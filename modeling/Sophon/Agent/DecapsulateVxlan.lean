/-
A VXLAN packet is decapsulated (`TunnelInfo::decapsulate` on a VXLAN packet over IPv4,
in `agent/src/common/decapsulate.rs`).

A VXLAN packet is an outer Ethernet header, an outer IPv4 header carrying UDP, a UDP
header to a VXLAN port, the VXLAN header with its flags and VNI, and the inner frame
(`VxlanPacket`).  Only the bytes the decoder reads are fields of their own: the MACs,
the addresses, the destination port, the VNI; every other byte of the headers is free.
From any tunnel state below the tier limit, with VXLAN in the bitmap, `decapsulate`
returns the offset of the inner frame from L3, raises the tier, and records the outer
addresses, the low four bytes of the outer MACs, the type and the VNI if the tunnel is
the outermost one (`decapsulate_vxlanPacket`).

Each byte the decoder reads is found by cutting the packet after the bytes before it
(`readU32Be_of_take` and its kin), one lemma for each field, and each function of the
decoder then has its own equation on such a packet, which the next one up rewrites
with: `recordOuter_vxlan`, `decapsulateVxlan_packet`, `decapsulateUdp_packet`.
-/
import Sophon.Agent.Decapsulate

namespace Sophon.Agent

/-! ### Reading fields -/

/-- Two bytes, high byte first. -/
def be16 (v : Nat) : List UInt8 := [(v / 2 ^ 8).toUInt8, v.toUInt8]

/-- Four bytes, high byte first. -/
def be32 (v : Nat) : List UInt8 :=
  [(v / 2 ^ 24).toUInt8, (v / 2 ^ 16).toUInt8, (v / 2 ^ 8).toUInt8, v.toUInt8]

theorem getD_of_take {buf : List UInt8} (bs : List UInt8) {off : Nat}
    (h : (buf.drop off).take bs.length = bs) (i : Nat) (hi : i < bs.length) :
    buf.getD (off + i) 0 = bs.getD i 0 := by
  rw [← h]
  simp [List.getD_eq_getElem?_getD, List.getElem?_drop, hi]

theorem length_le_of_take {buf : List UInt8} (bs : List UInt8) {off : Nat}
    (h : (buf.drop off).take bs.length = bs) (hne : bs ≠ []) :
    off + bs.length ≤ buf.length := by
  have hpos := List.length_pos_iff.mpr hne
  have := congrArg List.length h
  simp only [List.length_take, List.length_drop] at this
  omega

theorem readU32Be_of_take {buf : List UInt8} {off v : Nat} (h : (buf.drop off).take 4 = be32 v)
    (hv : v < 2 ^ 32) : readU32Be buf off = some v := by
  have hlen := length_le_of_take (be32 v) h (by simp [be32])
  have hb : ∀ i < 4, buf.getD (off + i) 0 = (be32 v).getD i 0 := fun i hi =>
    getD_of_take (be32 v) h i (by simpa [be32] using hi)
  have h0 : buf.getD off 0 = (be32 v).getD 0 0 := hb 0 (by decide)
  unfold readU32Be
  rw [if_pos (by simpa [be32] using hlen), show List.range 4 = [0, 1, 2, 3] from rfl]
  simp only [List.foldl_cons, List.foldl_nil, Option.some_inj, Nat.add_zero, h0, hb 1 (by decide),
    hb 2 (by decide), hb 3 (by decide)]
  simp [be32, Nat.toUInt8_eq, UInt8.toNat_ofNat']
  omega

theorem readU16Le_of_take {buf : List UInt8} {off v : Nat} (h : (buf.drop off).take 2 = be16 v)
    (hv : v < 2 ^ 16) : readU16Le buf off = some (v % 2 ^ 8 * 2 ^ 8 + v / 2 ^ 8) := by
  have hlen := length_le_of_take (be16 v) h (by simp [be16])
  have h0 := getD_of_take (be16 v) h 0 (by simp [be16])
  have h1 := getD_of_take (be16 v) h 1 (by simp [be16])
  rw [Nat.add_zero] at h0
  unfold readU16Le
  rw [if_pos (by simpa [be16] using hlen), h0, h1]
  simp [be16, Nat.toUInt8_eq, UInt8.toNat_ofNat']
  omega

theorem byteAt_of_take {buf : List UInt8} {off : Nat} (b : UInt8)
    (h : (buf.drop off).take 1 = [b]) :
    byteAt buf off = some b.toNat := by
  have hlen := length_le_of_take [b] h (List.cons_ne_nil _ _)
  have h0 := getD_of_take [b] h 0 (by simp)
  rw [Nat.add_zero] at h0
  unfold byteAt
  rw [if_pos (by simpa using hlen), h0]
  rfl

/-! ### VXLAN packets -/

/-- A MAC address in six bytes, high byte first. -/
def macBytes (m : Nat) : List UInt8 :=
  [(m / 2 ^ 40).toUInt8, (m / 2 ^ 32).toUInt8] ++ be32 (m % 2 ^ 32)

/-- A VXLAN packet over IPv4: the outer Ethernet, IPv4 and UDP headers, the VXLAN
header and the inner frame.  The fields are the ones `decapsulate` reads, and every
other byte of the headers is free. -/
structure VxlanPacket where
  macDst : Nat
  macSrc : Nat
  /-- VLAN tags and the EtherType. -/
  l2Rest : List UInt8
  /-- The IPv4 header from the version to the TTL. -/
  ipFront : Vector UInt8 9
  ipChecksum : Vector UInt8 2
  src : Nat
  dst : Nat
  srcPort : Nat
  dstPort : Nat
  /-- The UDP length and checksum. -/
  udpRest : Vector UInt8 4
  /-- The 24 reserved bits after the VXLAN flags. -/
  flagsReserved : Vector UInt8 3
  vni : Nat
  vniReserved : UInt8
  inner : List UInt8

namespace VxlanPacket

/-- The outer L2 header. -/
def l2 (p : VxlanPacket) : List UInt8 := macBytes p.macDst ++ macBytes p.macSrc ++ p.l2Rest

/-- The packet from the outer IPv4 header on. -/
def l3 (p : VxlanPacket) : List UInt8 :=
  p.ipFront.toList ++ 17 :: p.ipChecksum.toList ++ be32 p.src ++ be32 p.dst ++ be16 p.srcPort ++
    be16 p.dstPort ++ p.udpRest.toList ++ VXLAN_FLAGS.toUInt8 :: p.flagsReserved.toList ++
    be32 (p.vni * 2 ^ 8 + p.vniReserved.toNat) ++ p.inner

def bytes (p : VxlanPacket) : List UInt8 := p.l2 ++ p.l3

/-- A packet `decapsulate` takes for VXLAN: outer addresses of 32 bits, a destination
port VXLAN is known by (4789, 8472 or 6784), a VNI of 24 bits, and an inner frame of
at least an Ethernet header. -/
structure Valid (p : VxlanPacket) : Prop where
  src : p.src < 2 ^ 32
  dst : p.dst < 2 ^ 32
  dstPort : p.dstPort = 4789 ∨ p.dstPort = 8472 ∨ p.dstPort = 6784
  vni : p.vni < 2 ^ 24
  inner : ETH_HEADER_SIZE ≤ p.inner.length

/-- What the outermost tunnel records: the outer addresses, the low four bytes of the
outer MACs, the type and the VNI. -/
def outer (p : VxlanPacket) (t : TunnelInfo) : TunnelInfo :=
  { t with
    src := p.src, dst := p.dst, macSrc := p.macSrc % 2 ^ 32, macDst := p.macDst % 2 ^ 32
    tunnelType := .vxlan, id := p.vni }

theorem length_l3 (p : VxlanPacket) : p.l3.length = 36 + p.inner.length := by
  simp [l3, be32, be16]
  omega

theorem sliceFrom_bytes (p : VxlanPacket) : sliceFrom p.bytes p.l2.length = some p.l3 := by
  unfold sliceFrom bytes
  rw [if_pos (by simp)]
  simp

theorem byteAt_protocol (p : VxlanPacket) :
    byteAt p.l3 (FIELD_OFFSET_PROTO - ETH_HEADER_SIZE) = some 17 :=
  byteAt_of_take 17 (by simp [l3, FIELD_OFFSET_PROTO, ETH_HEADER_SIZE])

theorem byteAt_flags (p : VxlanPacket) :
    byteAt p.l3 (FIELD_OFFSET_VXLAN_FLAGS - ETH_HEADER_SIZE) = some VXLAN_FLAGS :=
  byteAt_of_take VXLAN_FLAGS.toUInt8
    (by simp [l3, List.drop_append, List.drop_eq_nil_of_le, FIELD_OFFSET_VXLAN_FLAGS,
      ETH_HEADER_SIZE, be32, be16])

theorem readU16Le_dstPort (p : VxlanPacket) (hp : p.Valid) :
    readU16Le p.l3 (FIELD_OFFSET_DPORT - ETH_HEADER_SIZE) =
      some (p.dstPort % 2 ^ 8 * 2 ^ 8 + p.dstPort / 2 ^ 8) :=
  readU16Le_of_take
    (by simp [l3, List.drop_append, List.drop_eq_nil_of_le, FIELD_OFFSET_DPORT, ETH_HEADER_SIZE,
      be32, be16])
    (by rcases hp.dstPort with h | h | h <;> rw [h] <;> decide)

theorem readU32Be_vni (p : VxlanPacket) (hp : p.Valid) :
    readU32Be p.l3 (FIELD_OFFSET_VXLAN_VNI - ETH_HEADER_SIZE) =
      some (p.vni * 2 ^ 8 + p.vniReserved.toNat) :=
  readU32Be_of_take
    (by simp [l3, List.drop_append, List.drop_eq_nil_of_le, FIELD_OFFSET_VXLAN_VNI, ETH_HEADER_SIZE,
      be32, be16])
    (by have := hp.vni; have := p.vniReserved.toNat_lt; omega)

theorem readU32Be_src (p : VxlanPacket) (hp : p.Valid) :
    readU32Be p.l3 (FIELD_OFFSET_SIP - ETH_HEADER_SIZE) = some p.src :=
  readU32Be_of_take
    (by simp [l3, List.drop_append, List.drop_eq_nil_of_le, FIELD_OFFSET_SIP, ETH_HEADER_SIZE,
      be32])
    hp.src

theorem readU32Be_dst (p : VxlanPacket) (hp : p.Valid) :
    readU32Be p.l3 (FIELD_OFFSET_DIP - ETH_HEADER_SIZE) = some p.dst :=
  readU32Be_of_take
    (by simp [l3, List.drop_append, List.drop_eq_nil_of_le, FIELD_OFFSET_DIP, ETH_HEADER_SIZE,
      be32])
    hp.dst

theorem readU32Be_macSrc (p : VxlanPacket) :
    readU32Be p.bytes (FIELD_OFFSET_SA + 2) = some (p.macSrc % 2 ^ 32) :=
  readU32Be_of_take
    (by simp [bytes, l2, macBytes, FIELD_OFFSET_SA, be32])
    (Nat.mod_lt _ (by decide))

theorem readU32Be_macDst (p : VxlanPacket) :
    readU32Be p.bytes (FIELD_OFFSET_DA + 2) = some (p.macDst % 2 ^ 32) :=
  readU32Be_of_take
    (by simp [bytes, l2, macBytes, FIELD_OFFSET_DA, be32])
    (Nat.mod_lt _ (by decide))

variable {p : VxlanPacket} (hp : p.Valid)
include hp

theorem decapsulateAddr_l3 (t : TunnelInfo) :
    t.decapsulateAddr p.l3 = some { t with src := p.src, dst := p.dst } := by
  unfold TunnelInfo.decapsulateAddr
  rw [readU32Be_src p hp, readU32Be_dst p hp]
  rfl

omit hp in
theorem decapsulateMac_bytes (t : TunnelInfo) :
    t.decapsulateMac p.bytes =
      some { t with macSrc := p.macSrc % 2 ^ 32, macDst := p.macDst % 2 ^ 32 } := by
  unfold TunnelInfo.decapsulateMac
  rw [readU32Be_macSrc p, readU32Be_macDst p]
  rfl

theorem recordOuter_vxlan {t : TunnelInfo} (ht : t.tier = 0) :
    t.recordOuter p.bytes p.l3 .vxlan p.vni = some (p.outer t) := by
  unfold TunnelInfo.recordOuter
  rw [if_pos ht, decapsulateAddr_l3 hp]
  simp only [Option.bind_eq_bind, Option.bind_some]
  rw [decapsulateMac_bytes]
  rfl

theorem decapsulateVxlan_packet (t : TunnelInfo) :
    t.decapsulateVxlan p.bytes p.l2.length =
      some (36, { (if t.tier = 0 then p.outer t else t) with tier := t.tier + 1 }) := by
  unfold TunnelInfo.decapsulateVxlan
  have hvni : (p.vni * 2 ^ 8 + p.vniReserved.toNat) / 2 ^ 8 = p.vni := by
    have := p.vniReserved.toNat_lt
    omega
  rw [sliceFrom_bytes]
  simp only [Option.bind_eq_bind, Option.bind_some]
  have hlen : ¬ p.l3.length < FIELD_OFFSET_VXLAN_FLAGS + VXLAN_HEADER_SIZE := by
    have := hp.inner
    rw [length_l3]
    unfold ETH_HEADER_SIZE at this
    unfold FIELD_OFFSET_VXLAN_FLAGS VXLAN_HEADER_SIZE
    omega
  rw [if_neg hlen, byteAt_flags]
  simp only [Option.bind_some]
  rw [if_neg (not_not.mpr rfl)]
  by_cases ht : t.tier = 0
  · -- the outermost tunnel is recorded
    rw [if_pos ht, readU32Be_vni p hp]
    simp only [Option.bind_some]
    rw [hvni, recordOuter_vxlan hp ht, if_pos ht]
    rfl
  · rw [if_neg ht, if_neg ht]
    rfl

theorem vxlanPort_le :
    (p.dstPort % 2 ^ 8 * 2 ^ 8 + p.dstPort / 2 ^ 8 = LE_VXLAN_PROTO_UDP_DPORT ∨
      p.dstPort % 2 ^ 8 * 2 ^ 8 + p.dstPort / 2 ^ 8 = LE_VXLAN_PROTO_UDP_DPORT2 ∨
      p.dstPort % 2 ^ 8 * 2 ^ 8 + p.dstPort / 2 ^ 8 = LE_VXLAN_PROTO_UDP_DPORT3) := by
  rcases hp.dstPort with h | h | h <;> rw [h] <;> decide

theorem decapsulateUdp_packet (t : TunnelInfo) {tunnelTypes : Nat}
    (hvxlan : hasTunnel tunnelTypes .vxlan = true) :
    t.decapsulateUdp p.bytes p.l2.length tunnelTypes = t.decapsulateVxlan p.bytes p.l2.length := by
  have hmac0 : byteAt p.bytes 0 = some (p.macDst / 2 ^ 40).toUInt8.toNat :=
    byteAt_of_take _ (by simp [bytes, l2, macBytes])
  have hmac1 : byteAt p.bytes 1 = some (p.macDst / 2 ^ 32).toUInt8.toNat :=
    byteAt_of_take _ (by simp [bytes, l2, macBytes])
  have hport : ¬ FIELD_OFFSET_DPORT - ETH_HEADER_SIZE + PORT_LEN > p.l3.length := by
    rw [length_l3]
    unfold FIELD_OFFSET_DPORT ETH_HEADER_SIZE PORT_LEN
    omega
  unfold TunnelInfo.decapsulateUdp
  rw [hmac0, hmac1, sliceFrom_bytes]
  simp only [Option.bind_eq_bind, Option.bind_some]
  rw [if_neg hport, readU16Le_dstPort p hp]
  simp only [Option.bind_some]
  rw [if_pos ⟨vxlanPort_le hp, hvxlan⟩]

omit hp in
theorem drop_inner : p.bytes.drop (p.l2.length + 36) = p.inner := by
  simp [bytes, l3, List.drop_append, List.drop_eq_nil_of_le, be32, be16]

end VxlanPacket

open VxlanPacket in
/-- **A VXLAN packet is decapsulated.**  Below the tier limit, with VXLAN in the tunnel
bitmap, `decapsulate` takes a VXLAN packet over IPv4 to the offset of its inner frame
from L3, raises the tier, and records the outer addresses, the low four bytes of the
outer MACs, the VXLAN type and the VNI if the tunnel is the outermost one; the packet is
left as it is. -/
theorem decapsulate_vxlanPacket {t : TunnelInfo} (htier : t.tier < TUNNEL_TIER_LIMIT)
    {tunnelTypes : Nat} (hvxlan : hasTunnel tunnelTypes .vxlan = true) {p : VxlanPacket}
    (hp : p.Valid) :
    t.decapsulate p.bytes p.l2.length tunnelTypes =
        some (36, { (if t.tier = 0 then p.outer t else t) with tier := t.tier + 1 }, p.bytes) ∧
      p.bytes.drop (p.l2.length + 36) = p.inner := by
  refine ⟨?_, drop_inner⟩
  have htypes : tunnelTypes ≠ 0 := by
    rintro rfl
    exact absurd hvxlan (by decide)
  have hlen : ¬ p.l3.length < IPV4_HEADER_SIZE + GRE_HEADER_SIZE_DECAP + ERSPAN_III_HEADER_SIZE +
      ERSPAN_III_SUBHEADER_SIZE := by
    have := hp.inner
    rw [length_l3]
    unfold ETH_HEADER_SIZE at this
    unfold IPV4_HEADER_SIZE GRE_HEADER_SIZE_DECAP ERSPAN_III_HEADER_SIZE ERSPAN_III_SUBHEADER_SIZE
    omega
  unfold TunnelInfo.decapsulate
  rw [if_neg (by rintro (h | h); exacts [htypes h, absurd h (Nat.ne_of_lt htier)]), sliceFrom_bytes]
  simp only [Option.bind_eq_bind, Option.bind_some]
  rw [if_neg hlen, byteAt_protocol]
  simp only [Option.bind_some]
  rw [if_pos trivial, decapsulateUdp_packet hp t hvxlan, decapsulateVxlan_packet hp t]
  rfl

/-- A VXLAN packet with VNI 100 from `10.0.0.1` to `10.0.0.2`, on the port 4789. -/
def vxlanSample : VxlanPacket where
  macDst := 0x020000000002
  macSrc := 0x020000000001
  l2Rest := [0x08, 0x00]
  ipFront := #v[0x45, 0, 0, 50, 0, 0, 0, 0, 64]
  ipChecksum := #v[0, 0]
  src := 0x0a000001
  dst := 0x0a000002
  srcPort := 49152
  dstPort := 4789
  udpRest := #v[0, 30, 0, 0]
  flagsReserved := #v[0, 0, 0]
  vni := 100
  vniReserved := 0
  inner := List.replicate 14 0

theorem vxlanSample_valid : vxlanSample.Valid :=
  ⟨by decide, by decide, .inl rfl, by decide, by decide⟩

/-- The sample decapsulated from a fresh tunnel state, with only VXLAN in the bitmap. -/
theorem decapsulate_vxlanSample :
    ((default : TunnelInfo).tier < TUNNEL_TIER_LIMIT ∧ hasTunnel 2 .vxlan = true ∧
        vxlanSample.Valid) ∧
      ((default : TunnelInfo).decapsulate vxlanSample.bytes vxlanSample.l2.length 2 =
          some (36,
            { (if (default : TunnelInfo).tier = 0 then vxlanSample.outer default else default) with
              tier := (default : TunnelInfo).tier + 1 }, vxlanSample.bytes) ∧
        vxlanSample.bytes.drop (vxlanSample.l2.length + 36) = vxlanSample.inner) :=
  ⟨⟨by decide, by decide, vxlanSample_valid⟩,
    decapsulate_vxlanPacket (by decide) (by decide) vxlanSample_valid⟩

end Sophon.Agent
