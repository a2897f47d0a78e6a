/-
Tunnel decapsulation (`TunnelInfo::decapsulate` and `decapsulate_v6` in
`agent/src/common/decapsulate.rs`).

`decapsulate` looks at the underlay IPv4 packet after the L2 header: it checks once
that 44 bytes of L3 are there, then dispatches on the IP protocol to the UDP tunnels
(VXLAN, VXLAN-GPE, Geneve), to GRE (ERSPAN, Tencent GRE, TEB) and to IP-in-IP.  Each
tunnel records the outer addresses, MACs, type and id when it is the outermost one
(`tier == 0`), raises the tier and returns the offset of the inner frame from L3.
The GRE decoders and the VXLAN-GPE decoder come from the `tunnel` plugin crate,
whose open build returns `None` from each; the model does the same.

The packet is a list of bytes, and a read, slice or copy outside it, which panics, is
`none`.  `usize` subtraction wraps as in a release build.  Of `TunnelInfo` every
field these functions write is kept.

The one length check does not cover the GRE and IP-in-IP branches, which read at the
underlay header size `(IHL & 0xf) << 2`, up to 60: `decapsulate_greIhl` is a GRE
packet with 44 bytes of L3 and `IHL = 15`, on which `decapsulate_gre` slices the L3
bytes from 60 and panics.
-/
import Sophon.Agent.Bytes

namespace Sophon.Agent

/-! ### Constants and types -/

def ETH_HEADER_SIZE : Nat := 14
def IPV4_HEADER_SIZE : Nat := 20
def IPV6_HEADER_SIZE : Nat := 40
def UDP_HEADER_SIZE : Nat := 8
def GRE_HEADER_SIZE_DECAP : Nat := 4
def ERSPAN_III_HEADER_SIZE : Nat := 12
def ERSPAN_III_SUBHEADER_SIZE : Nat := 8
def TUNNEL_TIER_LIMIT : Nat := 2
def FIELD_OFFSET_DA : Nat := 0
def FIELD_OFFSET_SA : Nat := 6
def FIELD_OFFSET_PROTO : Nat := 23
def FIELD_OFFSET_SIP : Nat := 26
def FIELD_OFFSET_DIP : Nat := 30
def FIELD_OFFSET_SPORT : Nat := 34
def FIELD_OFFSET_DPORT : Nat := 36
def FIELD_OFFSET_VXLAN_FLAGS : Nat := 42
def FIELD_OFFSET_VXLAN_VNI : Nat := 46
def PORT_LEN : Nat := 2
def VXLAN_HEADER_SIZE : Nat := 8
def VXLAN_FLAGS : Nat := 8
def GENEVE_HEADER_SIZE : Nat := 8
def UDP_PACKET_SIZE : Nat := 42
def UDP6_PACKET_SIZE : Nat := 62
def IP_IHL_OFFSET : Nat := 0
def GRE_FLAGS_OFFSET : Nat := 0
def GRE_PROTOCOL_OFFSET : Nat := 2
def IP6_PROTO_OFFSET : Nat := 6
def IP6_SIP_OFFSET : Nat := 20
def IP6_DIP_OFFSET : Nat := 36
def UDP_DPORT_OFFSET : Nat := 2
def VXLAN_FLAGS_OFFSET_DECAP : Nat := 0
def VXLAN_VNI_OFFSET_DECAP : Nat := 4
def GENEVE_VERSION_OFFSET : Nat := 0
def GENEVE_PROTOCOL_OFFSET : Nat := 2
def GENEVE_VNI_OFFSET : Nat := 4
def GENEVE_OPTION_LENGTH_MASK : Nat := 0x3f
def GENEVE_VERSION_SHIFT : Nat := 6
def GENEVE_VNI_SHIFT : Nat := 8
def LE_IPV4_PROTO_TYPE_I : Nat := 0x0008
def LE_IPV6_PROTO_TYPE_I : Nat := 0xDD86
def LE_ERSPAN_PROTO_TYPE_II : Nat := 0xBE88
def LE_ERSPAN_PROTO_TYPE_III : Nat := 0xEB22
def LE_VXLAN_PROTO_UDP_DPORT : Nat := 0xB512
def LE_GPE_VXLAN_PROTO_UDP_DPORT : Nat := 0xB612
def LE_VXLAN_PROTO_UDP_DPORT2 : Nat := 0x1821
def LE_VXLAN_PROTO_UDP_DPORT3 : Nat := 0x801A
def LE_TRANSPARENT_ETHERNET_BRIDGEING : Nat := 0x5865
def LE_GENEVE_PROTO_UDP_DPORT : Nat := 0xc117

/-- `TunnelType`, with its discriminants. -/
inductive TunnelType where
  | none
  | vxlan
  | ipip
  | tencentGre
  | geneve
  | vxlanNsh
  | erspan
  | teb
  deriving DecidableEq, Repr

def TunnelType.toNat : TunnelType → Nat
  | .none => 0
  | .vxlan => 1
  | .ipip => 2
  | .tencentGre => 3
  | .geneve => 4
  | .vxlanNsh => 5
  | .erspan => 6
  | .teb => 7

/-- `TunnelTypeBitmap::has`. -/
def hasTunnel (bitmap : Nat) (t : TunnelType) : Bool := bitmap &&& 2 ^ t.toNat ≠ 0

/-- `TunnelInfo`, without the ERSPAN source kept across resets. -/
structure TunnelInfo where
  src : Nat
  dst : Nat
  macSrc : Nat
  macDst : Nat
  id : Nat
  tunnelType : TunnelType
  tier : Nat
  isIpv6 : Bool
  deriving DecidableEq, Repr

instance : Inhabited TunnelInfo := ⟨⟨0, 0, 0, 0, 0, .none, 0, false⟩⟩

/-! ### The tunnels -/

namespace TunnelInfo

/-- `decapsulate_addr`: the outer IPv4 source and destination. -/
def decapsulateAddr (t : TunnelInfo) (l3 : List UInt8) : Option TunnelInfo := do
  let src ← readU32Be l3 (FIELD_OFFSET_SIP - ETH_HEADER_SIZE)
  let dst ← readU32Be l3 (FIELD_OFFSET_DIP - ETH_HEADER_SIZE)
  pure { t with src := src, dst := dst }

/-- `decapsulate_v6_addr`: the last four bytes of the outer IPv6 addresses. -/
def decapsulateV6Addr (t : TunnelInfo) (l3 : List UInt8) : Option TunnelInfo := do
  let src ← readU32Be l3 IP6_SIP_OFFSET
  let dst ← readU32Be l3 IP6_DIP_OFFSET
  pure { t with src := src, dst := dst }

/-- `decapsulate_mac`: the low four bytes of the outer MACs. -/
def decapsulateMac (t : TunnelInfo) (packet : List UInt8) : Option TunnelInfo := do
  let macSrc ← readU32Be packet (FIELD_OFFSET_SA + 2)
  let macDst ← readU32Be packet (FIELD_OFFSET_DA + 2)
  pure { t with macSrc := macSrc, macDst := macDst }

/-- The outermost tunnel's record, shared by the tunnels: addresses, MACs, type, id. -/
def recordOuter (t : TunnelInfo) (packet l3 : List UInt8) (tunnelType : TunnelType) (id : Nat) :
    Option TunnelInfo :=
  if t.tier = 0 then do
    let t ← t.decapsulateAddr l3
    let t ← t.decapsulateMac packet
    pure { t with tunnelType := tunnelType, id := id }
  else some t

/-- `decapsulate_vxlan`. -/
def decapsulateVxlan (t : TunnelInfo) (packet : List UInt8) (l2Len : Nat) : Option (Nat × TunnelInfo) := do
  let l3 ← sliceFrom packet l2Len
  if l3.length < FIELD_OFFSET_VXLAN_FLAGS + VXLAN_HEADER_SIZE then return (0, t)
  if (← byteAt l3 (FIELD_OFFSET_VXLAN_FLAGS - ETH_HEADER_SIZE)) ≠ VXLAN_FLAGS then return (0, t)
  let t ← if t.tier = 0 then do
      let vni ← readU32Be l3 (FIELD_OFFSET_VXLAN_VNI - ETH_HEADER_SIZE)
      t.recordOuter packet l3 .vxlan (vni / 2 ^ 8)
    else pure t
  pure (FIELD_OFFSET_VXLAN_FLAGS - ETH_HEADER_SIZE + VXLAN_HEADER_SIZE, { t with tier := t.tier + 1 })

/-- `decapsulate_geneve_header`: the VNI and the header size, `(0, 0)` when it is not a
Geneve header of Ethernet. -/
def decapsulateGeneveHeader (l4Payload : List UInt8) : Option (Nat × Nat) := do
  if l4Payload.length < GENEVE_HEADER_SIZE then return (0, 0)
  let versionAndOptionLength ← byteAt l4Payload GENEVE_VERSION_OFFSET
  if versionAndOptionLength / 2 ^ GENEVE_VERSION_SHIFT ≠ 0 then return (0, 0)
  let optionLength := (versionAndOptionLength &&& GENEVE_OPTION_LENGTH_MASK) * 4
  let geneveHeaderSize := optionLength + GENEVE_HEADER_SIZE
  if l4Payload.length < geneveHeaderSize then return (0, 0)
  if (← readU16Le l4Payload GENEVE_PROTOCOL_OFFSET) ≠ LE_TRANSPARENT_ETHERNET_BRIDGEING then
    return (0, 0)
  let vni ← readU32Be l4Payload GENEVE_VNI_OFFSET
  pure (vni / 2 ^ GENEVE_VNI_SHIFT, geneveHeaderSize)

/-- `decapsulate_geneve`. -/
def decapsulateGeneve (t : TunnelInfo) (packet : List UInt8) (l2Len : Nat) : Option (Nat × TunnelInfo) := do
  let l3 ← sliceFrom packet l2Len
  if l3.length < UDP_PACKET_SIZE + GENEVE_HEADER_SIZE then return (0, t)
  let l4Payload ← sliceFrom l3 (IPV4_HEADER_SIZE + UDP_HEADER_SIZE)
  let (tunnelId, geneveHeaderSize) ← decapsulateGeneveHeader l4Payload
  if geneveHeaderSize = 0 then return (0, t)
  let t ← t.recordOuter packet l3 .geneve tunnelId
  pure (UDP_PACKET_SIZE - ETH_HEADER_SIZE + geneveHeaderSize, { t with tier := t.tier + 1 })

/-- `decapsulate_udp`: the tunnel by the UDP destination port, and VXLAN on a hashed
port behind the destination MAC `ff:ff:..`. -/
def decapsulateUdp (t : TunnelInfo) (packet : List UInt8) (l2Len : Nat) (tunnelTypes : Nat) :
    Option (Nat × TunnelInfo) := do
  let macPrefix0 ← byteAt packet 0
  let macPrefix1 ← byteAt packet 1
  let l3 ← sliceFrom packet l2Len
  let dstPortOffset := FIELD_OFFSET_DPORT - ETH_HEADER_SIZE
  if dstPortOffset + PORT_LEN > l3.length then return (0, t)
  let dstPort ← readU16Le l3 (FIELD_OFFSET_DPORT - ETH_HEADER_SIZE)
  if (dstPort = LE_VXLAN_PROTO_UDP_DPORT ∨ dstPort = LE_VXLAN_PROTO_UDP_DPORT2 ∨
      dstPort = LE_VXLAN_PROTO_UDP_DPORT3) ∧ hasTunnel tunnelTypes .vxlan then
    return ← t.decapsulateVxlan packet l2Len
  -- `decapsulate_gpe_vxlan` of the `tunnel` crate returns `None`
  if dstPort = LE_GPE_VXLAN_PROTO_UDP_DPORT ∧ hasTunnel tunnelTypes .vxlanNsh then return (0, t)
  if dstPort = LE_GENEVE_PROTO_UDP_DPORT ∧ hasTunnel tunnelTypes .geneve then
    return ← t.decapsulateGeneve packet l2Len
  if macPrefix0 = 0xff ∧ macPrefix1 = 0xff ∧ hasTunnel tunnelTypes .vxlan then
    let srcPort ← readU16Le l3 (FIELD_OFFSET_SPORT - ETH_HEADER_SIZE)
    if srcPort = dstPort then return ← t.decapsulateVxlan packet l2Len
  pure (0, t)

/-- `decapsulate_gre`: the GRE header after the underlay IPv4 header of `IHL` words;
the ERSPAN, Tencent GRE and TEB decoders of the `tunnel` crate return `None`. -/
def decapsulateGre (t : TunnelInfo) (packet : List UInt8) (l2Len : Nat) (tunnelTypes : Nat) :
    Option (Nat × TunnelInfo) := do
  let l3 ← sliceFrom packet l2Len
  let ipHeaderSize := ((← byteAt l3 IP_IHL_OFFSET) &&& 0xf) * 4
  let _flags ← readU16Be l3 (ipHeaderSize + GRE_FLAGS_OFFSET)
  let greProtocolType ← readU16Le l3 (ipHeaderSize + GRE_PROTOCOL_OFFSET)
  if (greProtocolType = LE_ERSPAN_PROTO_TYPE_II ∨ greProtocolType = LE_ERSPAN_PROTO_TYPE_III) ∧
      hasTunnel tunnelTypes .erspan then return (0, t)
  if (greProtocolType = LE_IPV4_PROTO_TYPE_I ∨ greProtocolType = LE_IPV6_PROTO_TYPE_I) ∧
      hasTunnel tunnelTypes .tencentGre then return (0, t)
  if greProtocolType = LE_TRANSPARENT_ETHERNET_BRIDGEING ∧ hasTunnel tunnelTypes .teb then return (0, t)
  pure (0, t)

/-- `decapsulate_ipip`: the L2 header is moved up to just before the overlay IP header,
its EtherType set to the overlay's, and the offset of the overlay from the old L3 is
`start - l2_len`. -/
def decapsulateIpip (t : TunnelInfo) (packet : List UInt8) (l2Len : Nat) (underlayIpv6 overlayIpv6 : Bool) :
    Option (Nat × TunnelInfo × List UInt8) := do
  let t ← if t.tier = 0 then t.decapsulateMac packet else pure t
  let l3 ← sliceFrom packet l2Len
  let underlayIpHeaderSize ←
    if underlayIpv6 then pure IPV6_HEADER_SIZE else pure (((← byteAt l3 IP_IHL_OFFSET) &&& 0xf) * 4)
  let t ← if t.tier = 0 then do
      let t ← if underlayIpv6 then (do let t ← t.decapsulateV6Addr l3; pure { t with isIpv6 := true })
        else t.decapsulateAddr l3
      pure { t with tunnelType := .ipip, id := 0 }
    else pure t
  let t := { t with tier := t.tier + 1 }
  let start := l2Len + underlayIpHeaderSize - l2Len
  -- `copy_within(0..l2_len, start)`
  if start + l2Len > packet.length then none
  let packet := packet.take start ++ packet.take l2Len ++ packet.drop (start + l2Len)
  -- `write_u16_be(&mut packet[start + l2_len - 2..], ethertype)`, where the index wraps
  -- below 2
  if start + l2Len < 2 ∨ start + l2Len > packet.length then none
  let etherType := if overlayIpv6 then 0x86DD else 0x0800
  let packet := (packet.set (start + l2Len - 2) (etherType / 256).toUInt8).set (start + l2Len - 1)
    (etherType % 256).toUInt8
  -- `start - l2_len` in `usize`
  pure ((start + 2 ^ 64 - l2Len) % 2 ^ 64, t, packet)

/-- `decapsulate`: the underlay is IPv4. -/
def decapsulate (t : TunnelInfo) (packet : List UInt8) (l2Len : Nat) (tunnelTypes : Nat) :
    Option (Nat × TunnelInfo × List UInt8) := do
  if tunnelTypes = 0 ∨ t.tier = TUNNEL_TIER_LIMIT then return (0, t, packet)
  let l3 ← sliceFrom packet l2Len
  -- the one length check, meant to cover every branch
  if l3.length < IPV4_HEADER_SIZE + GRE_HEADER_SIZE_DECAP + ERSPAN_III_HEADER_SIZE +
      ERSPAN_III_SUBHEADER_SIZE then return (0, t, packet)
  let protocol ← byteAt l3 (FIELD_OFFSET_PROTO - ETH_HEADER_SIZE)
  if protocol = 17 then
    let (o, t) ← t.decapsulateUdp packet l2Len tunnelTypes
    return (o, t, packet)
  if protocol = 47 then
    let (o, t) ← t.decapsulateGre packet l2Len tunnelTypes
    return (o, t, packet)
  if protocol = 4 ∧ hasTunnel tunnelTypes .ipip then return ← t.decapsulateIpip packet l2Len false false
  if protocol = 41 ∧ hasTunnel tunnelTypes .ipip then return ← t.decapsulateIpip packet l2Len false true
  pure (0, t, packet)

/-- `decapsulate_v6_vxlan`. -/
def decapsulateV6Vxlan (t : TunnelInfo) (packet : List UInt8) (l2Len : Nat) : Option (Nat × TunnelInfo) := do
  let l3 ← sliceFrom packet l2Len
  if l3.length < FIELD_OFFSET_VXLAN_FLAGS + VXLAN_HEADER_SIZE then return (0, t)
  if (← byteAt l3 (IPV6_HEADER_SIZE + UDP_HEADER_SIZE + VXLAN_FLAGS_OFFSET_DECAP)) ≠ VXLAN_FLAGS then
    return (0, t)
  let t ← if t.tier = 0 then do
      let t ← t.decapsulateV6Addr l3
      let t ← t.decapsulateMac packet
      let vni ← readU32Be l3 (IPV6_HEADER_SIZE + UDP_HEADER_SIZE + VXLAN_VNI_OFFSET_DECAP)
      pure { t with tunnelType := .vxlan, id := vni / 2 ^ 8, isIpv6 := true }
    else pure t
  pure (IPV6_HEADER_SIZE + UDP_HEADER_SIZE + VXLAN_HEADER_SIZE, { t with tier := t.tier + 1 })

/-- `decapsulate_v6_geneve`. -/
def decapsulateV6Geneve (t : TunnelInfo) (packet : List UInt8) (l2Len : Nat) : Option (Nat × TunnelInfo) := do
  let l3 ← sliceFrom packet l2Len
  if l3.length < UDP6_PACKET_SIZE + GENEVE_HEADER_SIZE then return (0, t)
  let l4Payload ← sliceFrom l3 (IPV6_HEADER_SIZE + UDP_HEADER_SIZE)
  let (tunnelId, geneveHeaderSize) ← decapsulateGeneveHeader l4Payload
  if geneveHeaderSize = 0 then return (0, t)
  let t ← if t.tier = 0 then do
      let t ← t.decapsulateV6Addr l3
      let t ← t.decapsulateMac packet
      pure { t with tunnelType := .geneve, id := tunnelId, isIpv6 := true }
    else pure t
  pure (UDP_PACKET_SIZE - ETH_HEADER_SIZE + geneveHeaderSize, { t with tier := t.tier + 1 })

/-- `decapsulate_v6_udp`. -/
def decapsulateV6Udp (t : TunnelInfo) (packet : List UInt8) (l2Len : Nat) (tunnelTypes : Nat) :
    Option (Nat × TunnelInfo) := do
  let macPrefix0 ← byteAt packet 0
  let macPrefix1 ← byteAt packet 1
  let l3 ← sliceFrom packet l2Len
  let dstPortOffset := IPV6_HEADER_SIZE + UDP_DPORT_OFFSET
  if dstPortOffset + PORT_LEN > l3.length then return (0, t)
  let dstPort ← readU16Le l3 dstPortOffset
  if (dstPort = LE_VXLAN_PROTO_UDP_DPORT ∨ dstPort = LE_VXLAN_PROTO_UDP_DPORT2 ∨
      dstPort = LE_VXLAN_PROTO_UDP_DPORT3) ∧ hasTunnel tunnelTypes .vxlan then
    return ← t.decapsulateV6Vxlan packet l2Len
  if dstPort = LE_GENEVE_PROTO_UDP_DPORT ∧ hasTunnel tunnelTypes .geneve then
    return ← t.decapsulateV6Geneve packet l2Len
  if macPrefix0 = 0xff ∧ macPrefix1 = 0xff ∧ hasTunnel tunnelTypes .vxlan then
    let srcPort ← readU16Le l3 (dstPortOffset - 2)
    if srcPort = dstPort then return ← t.decapsulateV6Vxlan packet l2Len
  pure (0, t)

/-- `decapsulate_v6`: the underlay is IPv6. -/
def decapsulateV6 (t : TunnelInfo) (packet : List UInt8) (l2Len : Nat) (tunnelTypes : Nat) :
    Option (Nat × TunnelInfo × List UInt8) := do
  if tunnelTypes = 0 ∨ t.tier = TUNNEL_TIER_LIMIT then return (0, t, packet)
  let l3 ← sliceFrom packet l2Len
  if l3.length < IPV6_HEADER_SIZE + GRE_HEADER_SIZE_DECAP + ERSPAN_III_HEADER_SIZE +
      ERSPAN_III_SUBHEADER_SIZE then return (0, t, packet)
  let protocol ← byteAt l3 IP6_PROTO_OFFSET
  if protocol = 17 then
    let (o, t) ← t.decapsulateV6Udp packet l2Len tunnelTypes
    return (o, t, packet)
  if protocol = 4 ∧ hasTunnel tunnelTypes .ipip then return ← t.decapsulateIpip packet l2Len true false
  if protocol = 41 ∧ hasTunnel tunnelTypes .ipip then return ← t.decapsulateIpip packet l2Len true true
  pure (0, t, packet)

end TunnelInfo

/-- A GRE packet behind a 14-byte L2 header with 44 bytes of L3 and `IHL = 15`. -/
def greIhlPacket : List UInt8 :=
  List.replicate 14 0 ++ [0x4f] ++ List.replicate 8 0 ++ [47] ++ List.replicate 34 0

/-- **A GRE packet with a long underlay header panics.**  The packet has the 44 bytes
of L3 that `decapsulate` checks for, but `IHL = 15` makes the underlay header 60
bytes, and `decapsulate_gre` slices the L3 bytes from 60: the call panics (`none`). -/
theorem decapsulate_greIhl :
    greIhlPacket.length = 58 ∧ (default : TunnelInfo).decapsulate greIhlPacket 14 1 = none := by
  decide

end Sophon.Agent
