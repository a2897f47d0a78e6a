/-
Parsing the ACL port lists of the agent (`agent/src/common/port_range.rs`).

`PortRangeList::try_from` parses a port list `"p,a-b,..."`, sorts the ranges by
their first port and merges each range into the next when they overlap or touch.
(`PortRangeList::interest` and `create_table` are in `FastPath`.)

A `PortRange` packs `min << 16 | max` into a `u32` as the server's does, so the model
uses `Server.PortRange`.  Strings are their characters.  `list[i].max() + 1` is a
`u16` addition, which wraps in the release build (and panics in a debug build); the
model wraps.
-/
import Mathlib
import Sophon.Server.PortRange

namespace Sophon.Agent

open Server (PortRange newPortRange)

/-! ### Parsing -/

/-- The kinds of `ParseIntError` that `u16::from_str` returns. -/
inductive IntErrorKind where
  | empty
  | invalidDigit
  | posOverflow
  deriving DecidableEq, Repr

/-- How a `ParseIntError` displays. -/
def IntErrorKind.description : IntErrorKind → List Char
  | .empty => "cannot parse integer from empty string".toList
  | .invalidDigit => "invalid digit found in string".toList
  | .posOverflow => "number too large to fit in target type".toList

/-- The value of a decimal digit. -/
def toDigit (c : Char) : Option Nat :=
  if '0' ≤ c ∧ c ≤ '9' then some (c.toNat - '0'.toNat) else none

/-- The digit loop of `u16::from_str` that checks for overflow at every digit. -/
def parseDigitsChecked (acc : Nat) : List Char → Except IntErrorKind Nat
  | [] => .ok acc
  | c :: cs =>
      match toDigit c with
      | none => .error .invalidDigit
      | some d =>
          if acc * 10 > 65535 ∨ acc * 10 + d > 65535 then .error .posOverflow
          else parseDigitsChecked (acc * 10 + d) cs

/-- `u16::from_str`: an optional `+`, then decimal digits; up to four digits cannot
overflow and are read without the check. -/
def parseU16 (s : List Char) : Except IntErrorKind Nat :=
  match s with
  | [] => .error .empty
  | ['+'] | ['-'] => .error .invalidDigit
  | _ =>
      let digits := match s with
        | '+' :: rest => rest
        | _ => s
      if digits.length ≤ 4 then
        digits.foldlM (fun acc c => match toDigit c with
          | some d => .ok (acc * 10 + d)
          | none => .error .invalidDigit) 0
      else parseDigitsChecked 0 digits

/-- `TryFrom<&str> for PortRange`: `"p"` or `"a-b"` (parts after a second `-` are
ignored). -/
def PortRange.tryFrom (f : List Char) : Except (List Char) PortRange :=
  let ports := f.splitOn '-'
  if ports.length < 2 then
    match parseU16 f with
    | .error e => .error ("Invalid port ".toList ++ f ++ ": ".toList ++ e.description ++ ".\n".toList)
    | .ok port => .ok (newPortRange port port)
  else
    match parseU16 (ports.getD 0 []), parseU16 (ports.getD 1 []) with
    | .ok min, .ok max => .ok (newPortRange min max)
    | _, _ => .error ("Invalid port ".toList ++ f ++ ".\n".toList)

/-- One turn of the merge loop of `TryFrom<String> for PortRangeList`: when range `i`
reaches range `i + 1` or beyond, range `i + 1` becomes their union and range `i` is
marked deleted. -/
def mergeStep (st : List PortRange × List Bool) (i : Nat) : List PortRange × List Bool :=
  let (list, deleteFlags) := st
  if i = list.length - 1 then st
  else
    let cur := list.getD i ⟨0, 0⟩
    let next := list.getD (i + 1) ⟨0, 0⟩
    -- `list[i].max() + 1` in `u16`
    if (cur.max + 1) % 65536 ≥ next.min then
      let max := if next.max > cur.max then next.max else cur.max
      (list.set (i + 1) (newPortRange cur.min max), deleteFlags.set i true)
    else st

/-- `TryFrom<String> for PortRangeList`. -/
def PortRangeList.tryFrom (f : List Char) : Except (List Char) (List PortRange) :=
  if f.length = 0 then .ok [newPortRange 0 65535]
  else
    match (f.splitOn ',').mapM PortRange.tryFrom with
    | .error e => .error ("Acl port parse: ".toList ++ e ++ ".\n".toList)
    | .ok list =>
        -- `sort_by` on the first port is a stable sort
        let list := list.mergeSort fun a b => a.min ≤ b.min
        let (list, deleteFlags) :=
          (List.range list.length).foldl mergeStep (list, List.replicate list.length false)
        if !deleteFlags.any id then .ok list
        else .ok ((list.zip deleteFlags).filterMap fun (item, deleted) => if deleted then none else some item)

/-- **A range that ends at 65535 is never merged.**  In `"1-65535,5-6"` the first range
ends at 65535, `65535 + 1` wraps to 0 in `u16`, the test `0 >= 5` fails, and the list
keeps both ranges, which share the ports 5 and 6. -/
theorem tryFrom_wrap :
    PortRangeList.tryFrom "1-65535,5-6".toList = .ok [newPortRange 1 65535, newPortRange 5 6] ∧
      (1 ≤ 5 ∧ 5 ≤ 65535) ∧ (5 ≤ 5 ∧ 5 ≤ 6) := by
  have hparse : ("1-65535,5-6".toList.splitOn ',').mapM PortRange.tryFrom =
      .ok [newPortRange 1 65535, newPortRange 5 6] := by
    decide
  have hsort : ([newPortRange 1 65535, newPortRange 5 6].mergeSort fun a b => a.min ≤ b.min) =
      [newPortRange 1 65535, newPortRange 5 6] := by
    simp [List.mergeSort, newPortRange]
  refine ⟨?_, by decide, by decide⟩
  rw [PortRangeList.tryFrom, if_neg (by decide), hparse]
  simp only [hsort]
  decide

end Sophon.Agent
