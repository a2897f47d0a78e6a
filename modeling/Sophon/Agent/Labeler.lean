/-
The labeler's CIDR and WAN-address lookups (`agent/src/policy/labeler.rs`).

CIDRs.  `update_cidr_table` indexes every CIDR under the key `(network, prefix
length, EPC)`, the EPC of a WAN CIDR being `EPC_DEEPFLOW`, and keeps per EPC the
least and greatest prefix length it holds.  `set_epc_by_cidr` probes the keys of the
queried address cut to every length from the greatest down to the least and stops at
the first CIDR it finds.  IPv4 and IPv6 networks share one key space: an IPv4 address
is its 32 bits, an IPv6 address its 128, and `clone_by_masklen` leaves an IPv4
address whole at the lengths above 32.  `setEpcByCidr_family` is an IPv4 query that
hits an IPv6 CIDR.

WAN addresses.  `update_ip_table` indexes every IPv4 subnet of a WAN interface under
its network address (IPv4-mapped), and marks in `ip_netmask_table`, for every /16
block the subnet spans, the count of its host bits.  `get_interface_by_ip` reads the
marks of the address's /16 block from the fewest host bits up and returns the
interface under the first network address it finds.  The index is the network
address alone: `getInterfaceByIp_sameNetwork` has two subnets with one network
address and different lengths, and the lookup returns the owner of the one that does
not hold the address.

The maps are functions; an update is `Function.update`.  Only the fields these
functions read or write are kept: of `PlatformData` the interface type and the
subnets, of `EndpointInfo` the L3 EPC and the VIP flag.  Shifts are those of the
release build (by the amount modulo the width).
-/
import Mathlib
import Sophon.Agent.Cidr

namespace Sophon.Agent

/-! ### CIDRs -/

/-- `EPC_DEEPFLOW`. -/
def EPC_DEEPFLOW : Int := -3

/-- `CidrType`. -/
inductive CidrType where
  | wan
  | lan
  deriving DecidableEq, Repr

/-- `Cidr`, with the fields the labeler reads. -/
structure Cidr where
  ip : IpNet
  tunnelId : Nat
  epcId : Int
  cidrType : CidrType
  isVip : Bool
  deriving DecidableEq, Repr

/-- `Cidr::netmask_len`. -/
def Cidr.netmaskLen (c : Cidr) : Nat := c.ip.prefixLen

/-- `EpcNetIpKey`. -/
structure EpcNetIpKey where
  ip : Nat
  masklen : Nat
  epcId : Int
  deriving DecidableEq, Repr

namespace EpcNetIpKey

/-- `EpcNetIpKey::new`: an IPv4 address is its 32 bits widened to `u128`. -/
def new (ip : IpAddr) (masklen : Nat) (epcId : Int) : EpcNetIpKey := ⟨ip.bits, masklen, epcId⟩

/-- `clone_by_masklen`: the address cut to `masklen` bits of its family; the shift
`max_prefix.saturating_sub(masklen)` is 0 for an IPv4 address at lengths from 32 up. -/
def cloneByMasklen (k : EpcNetIpKey) (masklen : Nat) (isIpv4 : Bool) : EpcNetIpKey :=
  let maxPrefix := if isIpv4 then 32 else 128
  ⟨k.ip &&& shlWrap 128 (2 ^ 128 - 1) (maxPrefix - masklen), masklen, k.epcId⟩

end EpcNetIpKey

/-- `EndpointInfo`, with the fields `set_epc_by_cidr` writes. -/
structure EndpointInfo where
  l3EpcId : Int
  isVip : Bool
  deriving DecidableEq, Repr

/-- The CIDR tables of `Labeler`. -/
structure CidrTables where
  epcCidrMasklenTable : Int → Option (Nat × Nat)
  epcCidrTable : EpcNetIpKey → Option Cidr
  tunnelCidrTable : Nat → List Cidr

/-- The body of `update_cidr_table`'s loop. -/
def updateCidrTableStep (t : CidrTables) (item : Cidr) : CidrTables :=
  let epcId := if item.cidrType = .wan then EPC_DEEPFLOW else item.epcId
  let key := EpcNetIpKey.new item.ip.network item.ip.prefixLen epcId
  let netmaskLen := item.netmaskLen
  { epcCidrTable := Function.update t.epcCidrTable key (some item)
    epcCidrMasklenTable := Function.update t.epcCidrMasklenTable epcId
      (match t.epcCidrMasklenTable epcId with
        | some (min, max) =>
            if min > netmaskLen then some (netmaskLen, max)
            else if max < netmaskLen then some (min, netmaskLen)
            else some (min, max)
        | none => some (netmaskLen, netmaskLen))
    tunnelCidrTable :=
      if item.tunnelId > 0 then
        Function.update t.tunnelCidrTable item.tunnelId (t.tunnelCidrTable item.tunnelId ++ [item])
      else t.tunnelCidrTable }

/-- `Labeler::update_cidr_table`; every tunnel's list is sorted by falling prefix
length, stably. -/
def updateCidrTable (cidrs : List Cidr) : CidrTables :=
  let t := cidrs.foldl updateCidrTableStep ⟨fun _ => none, fun _ => none, fun _ => []⟩
  { t with
    tunnelCidrTable := fun k => (t.tunnelCidrTable k).mergeSort fun a b => b.netmaskLen ≤ a.netmaskLen }

namespace CidrTables

/-- `get_cidr_masklen_range`. -/
def getCidrMasklenRange (t : CidrTables) (epcId : Int) : Nat × Nat :=
  (t.epcCidrMasklenTable epcId).getD (0, 0)

/-- `set_epc_by_cidr`: the probes from the greatest length down to the least; on a hit
the endpoint takes the CIDR's EPC and VIP flag. -/
def setEpcByCidr (t : CidrTables) (ip : IpAddr) (epcId : Int) (endpoint : EndpointInfo) :
    Bool × EndpointInfo :=
  let (min, max) := t.getCidrMasklenRange epcId
  let cidrKey := EpcNetIpKey.new ip max epcId
  match ((List.range' min (max + 1 - min)).reverse.filterMap fun i =>
      t.epcCidrTable (cidrKey.cloneByMasklen i ip.isIpv4)).head? with
  | some cidr => (true, { endpoint with l3EpcId := cidr.epcId, isVip := cidr.isVip })
  | none => (false, endpoint)

end CidrTables

/-- The IPv6 CIDR `::1.2.3.4/128` of EPC 1. -/
def cidrV6 : Cidr := ⟨⟨.v6 0x01020304, 128⟩, 0, 1, .lan, false⟩

/-- **An IPv4 query hits an IPv6 CIDR.**  With the one CIDR `::1.2.3.4/128` in EPC 1,
the IPv4 address `1.2.3.4` in EPC 1 is found, although no IPv4 CIDR holds it: both
are the key `(0x01020304, 128, 1)`. -/
theorem setEpcByCidr_family :
    (updateCidrTable [cidrV6]).setEpcByCidr (.v4 0x01020304) 1 ⟨0, false⟩ = (true, ⟨1, false⟩) ∧
      cidrV6.ip.addr.isIpv4 = false := by
  decide

/-! ### WAN addresses -/

/-- `IfType`. -/
inductive IfType where
  | wan
  | lan
  deriving DecidableEq, Repr

/-- `IpSubnet`, without its subnet id. -/
structure IpSubnet where
  rawIp : IpAddr
  netmask : Nat
  deriving DecidableEq, Repr

/-- `PlatformData`, with the fields `update_ip_table` reads. -/
structure PlatformData where
  ifType : IfType
  ips : List IpSubnet
  deriving DecidableEq, Repr

/-- The WAN tables of `Labeler`: `ip_netmask_table` from a /16 block to its host-bit
counts, and `ip_table` from a network address to its interface. -/
structure IpTables where
  ipNetmaskTable : Nat → Option Nat
  ipTable : Nat → Option PlatformData

/-- `u32` subtraction in a release build. -/
def sub32 (a b : Nat) : Nat := (a + 2 ^ 32 - b % 2 ^ 32) % 2 ^ 32

/-- Mark the host-bit count `bits` in the /16 blocks `start .. start + count - 1`: the
`while start <= end` loop. -/
def markBlocks (table : Nat → Option Nat) (bits : Nat) (start count : Nat) : Nat → Option Nat :=
  (List.range' start count).foldl (fun table k =>
    let k := k % 65536
    match table k with
    | some v => Function.update table k (some (v ||| bits))
    | none => Function.update table k (some bits)) table

/-- The indexing of one subnet of a WAN interface in `update_ip_table`. -/
def updateIpTableSubnet (interface : PlatformData) (t : IpTables) (ip : IpSubnet) : IpTables :=
  match ip.rawIp with
  | .v4 ipInt =>
      let netAddr := ipInt &&& shlWrap 32 (2 ^ 32 - 1) (sub32 32 ip.netmask)
      let start := netAddr >>> 16
      -- a subnet shorter than /16 spans `2^(16 - netmask)` blocks
      let count := if ip.netmask < 16 then 2 ^ (16 - ip.netmask) else 1
      let bits := shlWrap 32 1 (sub32 32 ip.netmask)
      { ipNetmaskTable := markBlocks t.ipNetmaskTable bits start count
        -- IPv4-mapped IPv6 address
        ipTable := Function.update t.ipTable (netAddr ||| 0xffff00000000) (some interface) }
  | .v6 bits =>
      let netAddr := bits &&& shlWrap 128 (2 ^ 128 - 1) (sub32 128 ip.netmask)
      { t with ipTable := Function.update t.ipTable netAddr (some interface) }

/-- `Labeler::update_ip_table`. -/
def updateIpTable (interfaces : List PlatformData) : IpTables :=
  interfaces.foldl (fun t interface =>
    if interface.ifType ≠ .wan then t
    else interface.ips.foldl (updateIpTableSubnet interface) t) ⟨fun _ => none, fun _ => none⟩

/-- `count_trailing_zeros32`: the lowest one bit `-y & y` of the 64-bit `y`, looked up
by its residue modulo 37. -/
def countTrailingZeros32 (x : Nat) : Nat :=
  let lookup := [32, 0, 1, 26, 2, 23, 27, 0, 3, 16, 24, 30, 28, 11, 0, 13, 4, 7, 17, 0, 25, 22, 31,
    15, 29, 10, 12, 6, 0, 21, 14, 9, 5, 20, 8, 19, 18]
  lookup.getD (((2 ^ 64 - x) % 2 ^ 64 &&& x) % 37) 0

namespace IpTables

/-- The `while netmask_temp > 0` loop of `get_interface_by_ip`: the marks from the
fewest host bits up; each turn clears one. -/
def probeMarks (t : IpTables) (ipInt : Nat) : Nat → Nat → Option PlatformData
  | 0, _ => none
  | fuel + 1, netmaskTemp =>
      if netmaskTemp > 0 then
        let count := countTrailingZeros32 netmaskTemp
        let netmaskTemp := netmaskTemp ^^^ shlWrap 32 1 count
        let netAddr := ipInt &&& shlWrap 32 (2 ^ 32 - 1) count
        match t.ipTable (netAddr ||| 0xffff00000000) with
        | some v => some v
        | none => probeMarks t ipInt fuel netmaskTemp
      else none

/-- `get_interface_by_ip`; a bitmap of 32 bits has at most 32 marks. -/
def getInterfaceByIp (t : IpTables) : IpAddr → Option PlatformData
  | .v4 ipInt =>
      match t.ipNetmaskTable ((ipInt >>> 16) % 65536) with
      | some netmask => t.probeMarks ipInt 32 netmask
      | none => none
  | .v6 netAddr => t.ipTable netAddr

end IpTables

/-- An IPv4 subnet contains an address. -/
def IpSubnet.Contains (s : IpSubnet) (ip : Nat) : Prop :=
  1 ≤ s.netmask ∧ s.netmask ≤ 32 ∧ s.rawIp.isIpv4 = true ∧
    ip / 2 ^ (32 - s.netmask) = s.rawIp.bits / 2 ^ (32 - s.netmask)

instance (s : IpSubnet) (ip : Nat) : Decidable (s.Contains ip) := inferInstanceAs (Decidable (_ ∧ _))

/-- The WAN interface with `10.0.0.1/8`. -/
def wanA : PlatformData := ⟨.wan, [⟨.v4 0x0A000001, 8⟩]⟩

/-- The WAN interface with `10.0.0.2/16`. -/
def wanB : PlatformData := ⟨.wan, [⟨.v4 0x0A000002, 16⟩]⟩

set_option maxRecDepth 8000 in
/-- **Two subnets with one network address.**  `10.0.0.1/8` and `10.0.0.2/16` are both
indexed under `10.0.0.0`, where the later one wins; the lookup of `10.1.0.1` reads the
mark of the /8, probes `10.0.0.0` and returns the interface of `10.0.0.2/16`, which
does not hold the address, while the only subnet that does is the /8 of the other
interface. -/
theorem getInterfaceByIp_sameNetwork :
    (updateIpTable [wanA, wanB]).getInterfaceByIp (.v4 0x0A010001) = some wanB ∧
      (∀ s ∈ wanB.ips, ¬ s.Contains 0x0A010001) ∧
      (∀ s ∈ wanA.ips, s.Contains 0x0A010001) := by
  decide

end Sophon.Agent
