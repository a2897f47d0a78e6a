/-
What the interest port map does with each port, and where it goes wrong.

The walk of `createPortRangeByTable` leaves its state alone on every port that
is not marked or only inside a range (`foldlM_portRangeStep_quiet`), so on a
table with a few marks it is the steps at those marks.  The last loop sends
exactly the unset ports from 1 on to `[portOther, portOther]` (`foldl_fillOther`).

With those, `generateInterestPortMap_adjacent` runs the map on one policy whose
source range is `[80, 80]` and whose destination range is `[81, 81]`.  The
segments are `[80, 80]` and `[81, 81]`; on the second, `portOther` is still 0, so
`lastMax` stays 80, and after the loop `portOther` becomes 81, a policy port.
Every port no policy names is then rewritten to 81, the same key as the policy
port 81 itself.
-/
import Sophon.Server.Interest

namespace Sophon.Server

variable {P : Type}

/-! ### The segment walk -/

/-- A port that is not marked, or only inside a range, leaves the walk as it was. -/
theorem portRangeStep_quiet {table : Nat → PortStatus} {port : Nat}
    (h : table port = .rangeNone ∨ table port = .rangeIn) (st : List PortRange × Int) :
    portRangeStep table st port = some st := by
  obtain ⟨portRanges, lastPort⟩ := st
  rcases h with h | h <;> simp [portRangeStep, h]

theorem foldlM_portRangeStep_quiet {table : Nat → PortStatus} (l : List Nat)
    (h : ∀ port ∈ l, table port = .rangeNone ∨ table port = .rangeIn) :
    ∀ st, l.foldlM (portRangeStep table) st = some st := by
  induction l with
  | nil => intro st; rfl
  | cons port rest ih =>
      intro st
      rw [List.foldlM_cons, portRangeStep_quiet (h port (List.mem_cons_self ..))]
      exact ih (fun p hp => h p (List.mem_cons_of_mem port hp)) st

/-! ### The map loops -/

/-- **The last loop sets exactly the unset ports it walks.** -/
theorem foldl_fillOther (portOther : Nat) (l : List Nat) :
    ∀ (maps : Nat → PortRange) (i : Nat),
      l.foldl (fillOther portOther) maps i
        = if i ∈ l ∧ maps i = ⟨0, 0⟩ then newPortRange portOther portOther else maps i := by
  induction l with
  | nil => intro maps i; simp
  | cons j rest ih =>
      intro maps i
      rw [List.foldl_cons, ih]
      by_cases hij : i = j
      · subst hij
        by_cases hz : maps i = ⟨0, 0⟩ <;> simp [fillOther, hz]
      · have hfill : fillOther portOther maps j i = maps i := by
          unfold fillOther
          split
          · exact Function.update_of_ne hij _ _
          · rfl
        simp [hfill, hij]

/-! ### Adjacent policy ports -/

/-- The policy of the failing run: source port 80, destination port 81. -/
def adjacentAcl : Acl Unit :=
  { srcPortRange := [newPortRange 80 80], dstPortRange := [newPortRange 81 81],
    fieldLink := [], field6Link := [], policy := () }

/-- The two marks of the adjacent ports. -/
theorem createPortStatusTable_adjacent :
    createPortStatusTable [newPortRange 80 80, newPortRange 81 81]
      = Function.update (Function.update (fun _ => .rangeNone) 80 .rangeEdge) 81 .rangeEdge := rfl

theorem getPortRanges_adjacent :
    getPortRanges [newPortRange 80 80, newPortRange 81 81]
      = some [newPortRange 80 80, newPortRange 81 81] := by
  have hsplit : List.range 65536 = List.range' 0 80 ++ (List.range' 80 2 ++ List.range' 82 65454) := by
    rw [List.range'_append_1, List.range'_append_1, List.range_eq_range']
  have hlow : ∀ p ∈ List.range' 0 80,
      Function.update (Function.update (fun _ => PortStatus.rangeNone) 80 .rangeEdge) 81
        .rangeEdge p = .rangeNone ∨
      Function.update (Function.update (fun _ => PortStatus.rangeNone) 80 .rangeEdge) 81
        .rangeEdge p = .rangeIn := by
    intro p hp
    rw [List.mem_range'_1] at hp
    left
    rw [Function.update_of_ne (by omega), Function.update_of_ne (by omega)]
  have hhigh : ∀ p ∈ List.range' 82 65454,
      Function.update (Function.update (fun _ => PortStatus.rangeNone) 80 .rangeEdge) 81
        .rangeEdge p = .rangeNone ∨
      Function.update (Function.update (fun _ => PortStatus.rangeNone) 80 .rangeEdge) 81
        .rangeEdge p = .rangeIn := by
    intro p hp
    rw [List.mem_range'_1] at hp
    left
    rw [Function.update_of_ne (by omega), Function.update_of_ne (by omega)]
  rw [getPortRanges, if_neg (by simp), createPortStatusTable_adjacent, createPortRangeByTable,
    hsplit]
  simp only [List.foldlM_append, foldlM_portRangeStep_quiet _ hlow, foldlM_portRangeStep_quiet _ hhigh]
  -- what is left are the steps at the two marked ports
  rfl

/-- **Adjacent policy ports make every other port look like a policy port.**  With
one policy from port 80 to port 81, a packet to port 1000 gets the fast-path key of
a packet to port 81, though the policy's destination range holds 81 and not 1000. -/
theorem generateInterestPortMap_adjacent :
    ∃ maps, generateInterestPortMap [adjacentAcl] = some maps ∧
      getFastInterestKeys maps 80 81 = getFastInterestKeys maps 80 1000 ∧
      adjacentAcl.dstPortRange = [newPortRange 81 81] ∧
      (newPortRange 81 81).min ≤ 81 ∧ 81 ≤ (newPortRange 81 81).max ∧
      ¬ ((newPortRange 81 81).min ≤ 1000 ∧ 1000 ≤ (newPortRange 81 81).max) := by
  have hports : (([adjacentAcl].flatMap fun acl => acl.srcPortRange ++ acl.dstPortRange))
      = [newPortRange 80 80, newPortRange 81 81] := rfl
  set st := [newPortRange 80 80, newPortRange 81 81].zipIdx.foldl interestStep
    ⟨fun _ => ⟨0, 0⟩, 0, 0⟩ with hst
  have h81 : st.interestPortMaps 81 = newPortRange 81 81 := by
    rw [hst]; decide
  have h80 : st.interestPortMaps 80 = newPortRange 80 80 := by
    rw [hst]; decide
  have h1000 : st.interestPortMaps 1000 = ⟨0, 0⟩ := by
    rw [hst]; decide
  refine ⟨(List.range' 1 65535).foldl (fillOther 81) st.interestPortMaps, ?_, ?_,
    rfl, by decide, by decide, by decide⟩
  · -- `portOther` is still 0 after the loop and `lastMax` is 80, so it becomes 81
    simp only [generateInterestPortMap, hports, getPortRanges_adjacent]
    rfl
  · simp only [getFastInterestKeys, foldl_fillOther, h80, h81, h1000, List.mem_range'_1]
    decide

end Sophon.Server
