/-
IP addresses, CIDRs and the conversion of an IP range into CIDRs
(`ip_range_convert_to_cidr` in `agent/src/common/policy.rs`).

`ipv4_range_convert` and `ipv6_range_convert` are one loop at two widths (32 and 128
bits), modelled once as `rangeConvertLoop w`.  From the cursor `start` it asks
`get_first_mask` for a prefix length, pushes `start/len`, and moves the cursor past
the last address of that CIDR.  `get_first_mask` tries the lengths from `w - 1`
down to 0 and returns the first at which bit `w - len` of `start` is set, or at which
the CIDR reaches `end` (or its parent would pass it).

The arithmetic is Rust's release build: a shift by the width or more shifts by the
amount modulo the width, and `u8` subtraction wraps (a debug build panics at both).
An `IpNet` keeps the address it was built from; `network()` clears the host bits and
`netmask()` is `MAX.checked_shl(w - len).unwrap_or(0)`, as in the `ipnet` crate.

The length search starts at `w - 1`, never at `w`, and tests bit `w - len` where the
alignment of a block of `2^(w - len)` addresses is bit `w - len - 1`:
`rangeConvert_single` shows the CIDR `0.0.0.2/31` for the one-address range
`[0.0.0.2, 0.0.0.2]`, whose network also holds `0.0.0.3`.
-/
import Mathlib

namespace Sophon.Agent

/-! ### Addresses and CIDRs -/

/-- `IpAddr`, by its bits. -/
inductive IpAddr where
  | v4 (ip : Nat)
  | v6 (ip : Nat)
  deriving DecidableEq, Repr

namespace IpAddr

def isIpv4 : IpAddr → Bool
  | .v4 _ => true
  | .v6 _ => false

/-- The bits of the address (`u32::from` or `u128::from`). -/
def bits : IpAddr → Nat
  | .v4 ip => ip
  | .v6 ip => ip

/-- The width of the address's family. -/
def width : IpAddr → Nat
  | .v4 _ => 32
  | .v6 _ => 128

/-- The address of the same family with other bits. -/
def withBits : IpAddr → Nat → IpAddr
  | .v4 _, b => .v4 b
  | .v6 _, b => .v6 b

end IpAddr

/-- `u{w}::MAX.checked_shl(s).unwrap_or(0)`. -/
def checkedShlMax (w s : Nat) : Nat := if s ≥ w then 0 else (2 ^ w - 1) * 2 ^ s % 2 ^ w

/-- `IpNet`: the address it was built from and the prefix length. -/
structure IpNet where
  addr : IpAddr
  prefixLen : Nat
  deriving DecidableEq, Repr

namespace IpNet

/-- `netmask()`. -/
def netmask (n : IpNet) : IpAddr :=
  n.addr.withBits (checkedShlMax n.addr.width (n.addr.width - n.prefixLen))

/-- `network()`: the address with its host bits cleared. -/
def network (n : IpNet) : IpAddr := n.addr.withBits (n.addr.bits &&& n.netmask.bits)

/-- The addresses of the segment `IpSegment::from` makes of the CIDR: those of the
family whose bits under the netmask are the network's. -/
def Covers (n : IpNet) (ip : IpAddr) : Prop :=
  ip.isIpv4 = n.addr.isIpv4 ∧ ip.bits &&& n.netmask.bits = n.network.bits

instance (n : IpNet) (ip : IpAddr) : Decidable (n.Covers ip) := inferInstanceAs (Decidable (_ ∧ _))

end IpNet

/-! ### The conversion -/

/-- `x << s` on a `w`-bit integer in a release build: the shift amount is taken modulo
`w`, the bits shifted past the top are lost. -/
def shlWrap (w x s : Nat) : Nat := x * 2 ^ (s % w) % 2 ^ w

/-- `u8` subtraction in a release build. -/
def sub8 (a b : Nat) : Nat := (a + 256 - b % 256) % 256

/-- `!x` on a `w`-bit integer. -/
def notW (w x : Nat) : Nat := 2 ^ w - 1 - x

/-- `v4_mask_len_to_netmask` and `v6_mask_len_to_netmask`: `MAX << (w - mask)`. -/
def maskLenToNetmask (w mask : Nat) : Nat := shlWrap w (2 ^ w - 1) (sub8 w mask)

/-- `v4_get_first_mask` and `v6_get_first_mask`: the first length from `w - 1` down to
0 at which bit `w - len` of `start` is set, or at which the CIDR from `start` reaches
`end`, or its parent would pass `end`; 0 when there is none. -/
def getFirstMask (w start endIp : Nat) : Nat :=
  ((List.range w).reverse.find? fun len =>
    -- lowering `len` further would make `start` not the first address of its CIDR
    start &&& shlWrap w 1 (sub8 w len) ≠ 0 ||
    -- lowering `len` further would take in addresses after `end`
    decide (start ||| notW w (maskLenToNetmask w len) ≥ endIp) ||
    decide (start ||| notW w (maskLenToNetmask w (sub8 len 1)) > endIp)).getD 0

/-- `v4_get_last_ip` and `v6_get_last_ip`. -/
def getLastIp (w ip mask : Nat) : Nat := ip ||| notW w (maskLenToNetmask w mask)

/-- The loop of `ipv4_range_convert` and `ipv6_range_convert` from the cursor `start`:
the pairs of address and prefix length it pushes. -/
def rangeConvertLoop (w endIp : Nat) : Nat → Nat → List (Nat × Nat)
  | 0, _ => []
  | fuel + 1, start =>
      if start ≤ endIp then
        let maskLen := getFirstMask w start endIp
        let lastIp := getLastIp w start maskLen
        (start, maskLen) ::
          if lastIp = 2 ^ w - 1 then []
          else
            let rhs := shlWrap w 1 (sub8 w maskLen)
            -- `start.checked_add(rhs)` fails past the top address
            if start + rhs ≥ 2 ^ w then [] else rangeConvertLoop w endIp fuel (start + rhs)
      else []

/-- `ipv4_range_convert`: the cursor moves up at every turn, so `2^32` turns are more
than the loop takes. -/
def ipv4RangeConvert (start endIp : Nat) : List IpNet :=
  (rangeConvertLoop 32 endIp (2 ^ 32) start).map fun (ip, len) => ⟨.v4 ip, len⟩

/-- `ipv6_range_convert`. -/
def ipv6RangeConvert (start endIp : Nat) : List IpNet :=
  (rangeConvertLoop 128 endIp (2 ^ 128) start).map fun (ip, len) => ⟨.v6 ip, len⟩

/-- `ip_range_convert_to_cidr`; a range from one family to the other is
`unreachable!()`. -/
def ipRangeConvertToCidr : IpAddr → IpAddr → Option (List IpNet)
  | .v4 s, .v4 e => some (ipv4RangeConvert s e)
  | .v6 s, .v6 e => some (ipv6RangeConvert s e)
  | _, _ => none

/-- **A one-address range becomes a `/31`.**  The range `[0.0.0.2, 0.0.0.2]` is
converted to the single CIDR `0.0.0.2/31`, whose segment also holds `0.0.0.3`, an
address outside the range. -/
theorem rangeConvert_single :
    ipRangeConvertToCidr (.v4 2) (.v4 2) = some [⟨.v4 2, 31⟩] ∧
      (⟨.v4 2, 31⟩ : IpNet).Covers (.v4 3) ∧ ¬ (2 ≤ 3 ∧ 3 ≤ 2) := by
  decide

end Sophon.Agent
