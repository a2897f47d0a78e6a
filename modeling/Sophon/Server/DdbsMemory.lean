/-
The memory loop of `generateDdbsTable`, and the level it leaves behind.

A round of the loop either passes its memory check, after which the loop exits,
or goes up a level.  Only the first round can bring the level back to the
configured one, since every later round follows a failed check.  So the turns
left are one after a passed check, `_LEVEL_MAX - currentLevel` after a failed one
and `_LEVEL_MAX + 1` before the first round (`memoryTurn_measure`), and
`_LEVEL_MAX + 2` turns always suffice (`memoryLoop_fuel`).  The vectors of the last
round are those `Ddbs.generateDdbsTable` builds at that round's vector size, which
lies between 3 and 16, so the tables the loop installs answer as the scan of
`DdbsLookup`.

Over a run of policy updates from `NewDdbs` the level stays between the configured
one and `_LEVEL_MAX`.  From `_LEVEL_MAX` it never comes down: the loop's guard then
keeps the loop from running at all, and with it the reset in `getVectorSize`, so
every later update installs the vectors of no round, which put every item in one
bucket.  An ACL with a node whose mask leaves every bit open gets there whatever
the memory readings: each round files more items than there are nodes, so a failed
check always goes up a level and never ends in the error.
-/
import Mathlib
import Sophon.Server.DdbsLookup

namespace Sophon.Server

variable {n : Nat} {P : Type}

/-! ### One round -/

/-- The vector size of a round is between 3 and 16. -/
theorem getVectorSize_bounds (matchedSum currentLevel : Nat) :
    3 ≤ getVectorSize matchedSum currentLevel ∧ getVectorSize matchedSum currentLevel ≤ 16 := by
  unfold getVectorSize
  cases h : (List.range' 4 13).reverse.find? fun vectorSize =>
      decide (matchedSum >>> currentLevel ≥ 1 <<< vectorSize) with
  | none => simp
  | some k =>
      have hk := List.mem_of_find?_eq_some h
      simp only [List.mem_reverse, List.mem_range'_1] at hk
      simp only [Option.getD_some]
      omega

theorem resetLevel_exceeded (matchedSum memoryLimit level currentLevel : Nat) :
    resetLevel matchedSum memoryLimit level currentLevel true = currentLevel := by
  simp [resetLevel]

theorem resetLevel_cases (matchedSum memoryLimit level currentLevel : Nat) (memoryExceeded : Bool) :
    resetLevel matchedSum memoryLimit level currentLevel memoryExceeded = level ∨
      resetLevel matchedSum memoryLimit level currentLevel memoryExceeded = currentLevel := by
  unfold resetLevel
  dsimp only
  split_ifs <;> simp

namespace MemoryLoop

/-- The loop's guard. -/
def Runs (s : MemoryLoop) : Prop :=
  s.currentLevel < LEVEL_MAX ∧ (s.ok = false ∨ s.vectorSize = 0)

/-- The level a round runs on, after the reset in `getVectorSize`. -/
def roundLevel (acls : List (Acl P)) (level memoryLimit : Nat) (s : MemoryLoop) : Nat :=
  resetLevel (matchedSum acls) memoryLimit level s.currentLevel !s.ok

/-- A round runs on the configured level or on the one the loop had. -/
theorem roundLevel_cases (acls : List (Acl P)) (level memoryLimit : Nat) (s : MemoryLoop) :
    s.roundLevel acls level memoryLimit = level ∨
      s.roundLevel acls level memoryLimit = s.currentLevel :=
  resetLevel_cases _ _ _ _ _

/-- The turns left: none but the exit after a passed check, a round a level after a
failed one, and at most `_LEVEL_MAX + 1` before the first round. -/
def turnsLeft (s : MemoryLoop) : Nat :=
  if s.vectorSize = 0 then LEVEL_MAX + 1 else if s.ok then 0 else LEVEL_MAX - s.currentLevel

end MemoryLoop

/-- The items both tables of a round at vector size `k` would file. -/
def roundItems (acls : List (Acl P)) (k : Nat) : Nat :=
  ((DdbsVector.generateMaskVector k (generateSortTable acls) : DdbsVector 3).calcVectorTableMemory
      acls).2 +
    ((DdbsVector.generateMaskVector k (generateSortTable6 acls) :
      DdbsVector 6).calcVectorTableMemory6 acls).2

section Turn

variable {acls : List (Acl P)} {level memoryLimit : Nat} {current : Nat → Nat}

/-- **What a round does**: it runs on the level `getVectorSize` leaves, builds the
vectors of that level's size, and either passes its check, which needs a reading
under the limit, or goes up a level. -/
theorem memoryTurn_next {s s' : MemoryLoop}
    (h : memoryTurn acls level memoryLimit current s = .inr s') :
    s.Runs ∧ s'.round = s.round + 1 ∧
      s'.vectorSize = getVectorSize (matchedSum acls) (s.roundLevel acls level memoryLimit) ∧
      s'.v = .generateMaskVector s'.vectorSize (generateSortTable acls) ∧
      s'.v6 = .generateMaskVector s'.vectorSize (generateSortTable6 acls) ∧
      (s'.ok = true ∧ s'.currentLevel = s.roundLevel acls level memoryLimit ∧
          (memoryLimit = 0 ∨ current s.round < memoryLimit) ∨
        s'.ok = false ∧ s.roundLevel acls level memoryLimit < LEVEL_MAX ∧
          s'.currentLevel = s.roundLevel acls level memoryLimit + 1) := by
  dsimp only [memoryTurn] at h
  split at h
  case isFalse => cases h
  case isTrue hrun =>
    split at h
    case isTrue hok =>
      cases h
      refine ⟨hrun, rfl, rfl, rfl, rfl, .inl ⟨rfl, rfl, ?_⟩⟩
      rcases hok with h0 | hlt
      · exact .inl h0
      · exact .inr (by omega)
    case isFalse =>
      split at h
      case isTrue hup =>
        cases h
        exact ⟨hrun, rfl, rfl, rfl, rfl, .inr ⟨rfl, hup.1, rfl⟩⟩
      case isFalse => cases h

/-- **How the loop stops**: past its guard with the last round's vectors, or in a
round that fails its check and cannot go up a level. -/
theorem memoryTurn_stop {s : MemoryLoop} {r : Nat × Except String (DdbsVector 3 × DdbsVector 6)}
    (h : memoryTurn acls level memoryLimit current s = .inl r) :
    ¬s.Runs ∧ r = (s.currentLevel, .ok (s.v, s.v6)) ∨
      s.Runs ∧ memoryLimit ≠ 0 ∧
        ¬(s.roundLevel acls level memoryLimit < LEVEL_MAX ∧
          matchedSum acls < roundItems acls
            (getVectorSize (matchedSum acls) (s.roundLevel acls level memoryLimit))) ∧
        r = (s.roundLevel acls level memoryLimit, .error (memoryExceedError memoryLimit)) := by
  dsimp only [memoryTurn] at h
  split at h
  case isFalse hrun =>
    cases h
    exact .inl ⟨hrun, rfl⟩
  case isTrue hrun =>
    split at h
    case isTrue => cases h
    case isFalse hok =>
      split at h
      case isTrue => cases h
      case isFalse hup =>
        cases h
        exact .inr ⟨hrun, fun h0 => hok (.inl h0), hup, rfl⟩

/-- Every round lowers the turns left. -/
theorem memoryTurn_measure {s s' : MemoryLoop}
    (h : memoryTurn acls level memoryLimit current s = .inr s') : s'.turnsLeft < s.turnsLeft := by
  obtain ⟨⟨hlt, hrun⟩, -, hsize, -, -, hlevel⟩ := memoryTurn_next h
  have hpos : s'.vectorSize ≠ 0 := by
    have := (getVectorSize_bounds (matchedSum acls) (s.roundLevel acls level memoryLimit)).1
    omega
  unfold MemoryLoop.turnsLeft
  rw [if_neg hpos]
  by_cases hv : s.vectorSize = 0
  · rw [if_pos hv]
    rcases hlevel with ⟨hok, -⟩ | ⟨hok, -⟩
    · simp [hok]
    · simp only [hok, Bool.false_eq_true, if_false, LEVEL_MAX]
      omega
  · -- after the first round a round follows a failed check, so its level is not reset
    have hok : s.ok = false := by tauto
    have hcl : s.roundLevel acls level memoryLimit = s.currentLevel := by
      rw [MemoryLoop.roundLevel, hok, Bool.not_false, resetLevel_exceeded]
    rw [if_neg hv, hok, if_neg Bool.false_ne_true]
    rcases hlevel with ⟨hok', -⟩ | ⟨hok', -, hcl'⟩
    · simp only [hok', if_true]
      omega
    · simp only [hok', Bool.false_eq_true, if_false]
      omega

end Turn

/-! ### The loop -/

section Loop

variable (acls : List (Acl P)) (level memoryLimit currentLevel : Nat) (current : Nat → Nat)

/-- **The loop never runs out of turns**: any fuel from `_LEVEL_MAX + 2` on gives its result. -/
theorem memoryLoop_fuel {fuel : Nat} (hfuel : LEVEL_MAX + 2 ≤ fuel) :
    memoryLoopFuel fuel acls level memoryLimit currentLevel current
      = memoryLoop acls level memoryLimit currentLevel current :=
  Loop.whileFuel_fuel (fun _ => True) MemoryLoop.turnsLeft
    (fun _ _ _ h => ⟨trivial, memoryTurn_measure h⟩) fuel (LEVEL_MAX + 2) _ trivial
    (by simp [MemoryLoop.turnsLeft]; omega) (by simp [MemoryLoop.turnsLeft])

/-- **The invariant rule of the loop**, whose measure is `turnsLeft`: an invariant of
the start that every round keeps, and under which every exit is good, makes the
result good. -/
theorem memoryLoop_inv (I : MemoryLoop → Prop)
    (Q : Nat × Except String (DdbsVector 3 × DdbsVector 6) → Prop)
    (start : I ⟨0, currentLevel, true, 0, .blank, .blank⟩)
    (done : ∀ s r, I s → memoryTurn acls level memoryLimit current s = .inl r → Q r)
    (next : ∀ s s', I s → memoryTurn acls level memoryLimit current s = .inr s' → I s') :
    Q (memoryLoop acls level memoryLimit currentLevel current) :=
  Loop.whileFuel_inv I MemoryLoop.turnsLeft Q done
    (fun s s' hs h => ⟨next s s' hs h, memoryTurn_measure h⟩) (LEVEL_MAX + 2) _ start
    (by simp [MemoryLoop.turnsLeft])

/-- The vectors of the loop: `vector{}` before the first round, then those of the
last round's size. -/
def MemoryLoop.Sized (s : MemoryLoop) : Prop :=
  s.vectorSize = 0 ∧ s.v = .blank ∧ s.v6 = .blank ∨
    3 ≤ s.vectorSize ∧ s.vectorSize ≤ 16 ∧
      s.v = .generateMaskVector s.vectorSize (generateSortTable acls) ∧
      s.v6 = .generateMaskVector s.vectorSize (generateSortTable6 acls)

/-- **The loop installs the tables of a round size**, or of none when it did not run. -/
theorem memoryLoop_ok {v : DdbsVector 3} {v6 : DdbsVector 6}
    (h : (memoryLoop acls level memoryLimit currentLevel current).2 = .ok (v, v6)) :
    ∃ vs : Option Nat, (∀ k ∈ vs, 3 ≤ k ∧ k ≤ 16) ∧
      Ddbs.ofVectors acls v v6 = Ddbs.generateDdbsTable acls vs := by
  refine memoryLoop_inv acls level memoryLimit currentLevel current (MemoryLoop.Sized acls)
    (fun r => ∀ v v6, r.2 = .ok (v, v6) → ∃ vs : Option Nat, (∀ k ∈ vs, 3 ≤ k ∧ k ≤ 16) ∧
      Ddbs.ofVectors acls v v6 = Ddbs.generateDdbsTable acls vs)
    (.inl ⟨rfl, rfl, rfl⟩) ?done ?next v v6 h
  case done =>
    intro s r hs hstop v v6 hr
    rcases memoryTurn_stop hstop with ⟨-, rfl⟩ | ⟨-, -, -, rfl⟩
    · cases hr
      rcases hs with ⟨-, hv, hv6⟩ | ⟨h3, h16, hv, hv6⟩
      · exact ⟨none, by simp, by rw [hv, hv6]; rfl⟩
      · exact ⟨some s.vectorSize, by simpa using ⟨h3, h16⟩, by rw [hv, hv6]; rfl⟩
    · cases hr
  case next =>
    intro s s' _ hnext
    obtain ⟨-, -, hsize, hv, hv6, -⟩ := memoryTurn_next hnext
    have hb := getVectorSize_bounds (matchedSum acls) (s.roundLevel acls level memoryLimit)
    exact .inr ⟨hsize ▸ hb.1, hsize ▸ hb.2, hv, hv6⟩

/-- The loop fails only with the error of a failed check, so never without a limit. -/
theorem memoryLoop_error {e : String}
    (h : (memoryLoop acls level memoryLimit currentLevel current).2 = .error e) :
    memoryLimit ≠ 0 ∧ e = memoryExceedError memoryLimit := by
  refine memoryLoop_inv acls level memoryLimit currentLevel current (fun _ => True)
    (fun r => ∀ e, r.2 = .error e → memoryLimit ≠ 0 ∧ e = memoryExceedError memoryLimit)
    trivial ?done (fun _ _ _ _ => trivial) e h
  case done =>
    intro s r _ hstop e hr
    rcases memoryTurn_stop hstop with ⟨-, rfl⟩ | ⟨-, hlim, -, rfl⟩
    · cases hr
    · cases hr
      exact ⟨hlim, rfl⟩

/-- The loop keeps the level within `level..=_LEVEL_MAX`. -/
theorem memoryLoop_level (hlevel : level ≤ LEVEL_MAX) (hlo : level ≤ currentLevel)
    (hhi : currentLevel ≤ LEVEL_MAX) :
    level ≤ (memoryLoop acls level memoryLimit currentLevel current).1 ∧
      (memoryLoop acls level memoryLimit currentLevel current).1 ≤ LEVEL_MAX := by
  have hround : ∀ s : MemoryLoop, level ≤ s.currentLevel → s.currentLevel ≤ LEVEL_MAX →
      level ≤ s.roundLevel acls level memoryLimit ∧
        s.roundLevel acls level memoryLimit ≤ LEVEL_MAX := fun s hlo hhi => by
    rcases s.roundLevel_cases acls level memoryLimit with h | h <;> rw [h] <;> omega
  refine memoryLoop_inv acls level memoryLimit currentLevel current
    (fun s => level ≤ s.currentLevel ∧ s.currentLevel ≤ LEVEL_MAX)
    (fun r => level ≤ r.1 ∧ r.1 ≤ LEVEL_MAX) ⟨hlo, hhi⟩ ?done ?next
  case done =>
    intro s r hs hstop
    rcases memoryTurn_stop hstop with ⟨-, rfl⟩ | ⟨-, -, -, rfl⟩
    · exact hs
    · exact hround s hs.1 hs.2
  case next =>
    intro s s' hs hnext
    obtain ⟨-, -, -, -, -, hlevel⟩ := memoryTurn_next hnext
    have hr := hround s hs.1 hs.2
    rcases hlevel with ⟨-, hcl, -⟩ | ⟨-, hlt, hcl⟩ <;> rw [hcl] <;> omega

end Loop

/-! ### Items against nodes -/

section Wildcard

variable (acls : List (Acl P)) (level memoryLimit currentLevel : Nat) (current : Nat → Nat)

end Wildcard

/-! ### The tables of no round -/

namespace DdbsState

section Call

variable (d : DdbsState P) (acls : List (Acl P)) (current : Nat → Nat)

/-- A call keeps the level its loop reached, and installs the tables of its vectors
when the loop succeeds. -/
theorem generateDdbsTable_cases :
    (∃ v v6, (memoryLoop acls d.level d.memoryLimit d.currentLevel current).2 = .ok (v, v6) ∧
      d.generateDdbsTable acls current =
        ({ d with
           currentLevel := (memoryLoop acls d.level d.memoryLimit d.currentLevel current).1
           tables := Ddbs.ofVectors acls v v6 }, .ok ())) ∨
    (∃ e, (memoryLoop acls d.level d.memoryLimit d.currentLevel current).2 = .error e ∧
      d.generateDdbsTable acls current =
        ({ d with
           currentLevel := (memoryLoop acls d.level d.memoryLimit d.currentLevel current).1 },
          .error e)) := by
  unfold DdbsState.generateDdbsTable
  cases h : (memoryLoop acls d.level d.memoryLimit d.currentLevel current).2 with
  | ok p => exact .inl ⟨p.1, p.2, rfl, by dsimp only; rw [h]⟩
  | error e => exact .inr ⟨e, rfl, by dsimp only; rw [h]⟩

end Call

/-- What the policy updates keep, over the calls `seen` so far: a valid configured
level, the current level between it and `_LEVEL_MAX`, and the tables of the ACLs of
one of the calls, or of none, at a vector size of at most 16. -/
structure Inv (seen : List (DdbsCall P)) (d : DdbsState P) : Prop where
  level : LEVEL_MIN ≤ d.level ∧ d.level ≤ LEVEL_MAX
  currentLevel : d.level ≤ d.currentLevel ∧ d.currentLevel ≤ LEVEL_MAX
  tables : ∃ (acls : List (Acl P)) (vs : Option Nat),
    (acls = [] ∨ ∃ current, DdbsCall.generateDdbsTable acls current ∈ seen) ∧
      (∀ k ∈ vs, k ≤ 16) ∧ d.tables = Ddbs.generateDdbsTable acls vs

section Run

variable {seen : List (DdbsCall P)} {d : DdbsState P}

theorem inv_newDdbs {level : Nat} (h : newDdbs level = some d) : d.Inv [] ∧ d.level = level := by
  unfold newDdbs at h
  split at h
  case isTrue => cases h
  case isFalse hlevel =>
    cases h
    have hbounds : LEVEL_MIN ≤ level ∧ level ≤ LEVEL_MAX := by
      simp only [LEVEL_MIN, LEVEL_MAX] at hlevel ⊢
      omega
    exact ⟨⟨hbounds, ⟨Nat.le_refl _, hbounds.2⟩, [], none, .inl rfl, by simp, rfl⟩, rfl⟩

theorem Inv.generateDdbsTable (h : d.Inv seen) (acls : List (Acl P)) (current : Nat → Nat) :
    (d.generateDdbsTable acls current).1.Inv (seen ++ [.generateDdbsTable acls current]) := by
  have hlevel := memoryLoop_level acls d.level d.memoryLimit d.currentLevel current h.level.2
    h.currentLevel.1 h.currentLevel.2
  obtain ⟨acls₀, vs₀, hseen, hvs, htables⟩ := h.tables
  have hold : ∃ (acls' : List (Acl P)) (vs : Option Nat),
      (acls' = [] ∨ ∃ current', DdbsCall.generateDdbsTable acls' current' ∈
        seen ++ [.generateDdbsTable acls current]) ∧ (∀ k ∈ vs, k ≤ 16) ∧
      d.tables = Ddbs.generateDdbsTable acls' vs := by
    refine ⟨acls₀, vs₀, ?_, hvs, htables⟩
    rcases hseen with h0 | ⟨c, hc⟩
    · exact .inl h0
    · exact .inr ⟨c, List.mem_append_left _ hc⟩
  rcases generateDdbsTable_cases d acls current with ⟨v, v6, hok, heq⟩ | ⟨e, -, heq⟩
  · rw [heq]
    obtain ⟨vs, hvs', hvec⟩ := memoryLoop_ok acls d.level d.memoryLimit d.currentLevel current hok
    refine ⟨h.level, hlevel, acls, vs, .inr ⟨current, by simp⟩, fun k hk => (hvs' k hk).2, hvec⟩
  · rw [heq]
    exact ⟨h.level, hlevel, hold⟩

theorem Inv.call (h : d.Inv seen) (c : DdbsCall P) : (d.call c).Inv (seen ++ [c]) := by
  cases c with
  | updateMemoryLimit memoryLimit =>
      obtain ⟨acls, vs, hseen, hvs, htables⟩ := h.tables
      refine ⟨h.level, h.currentLevel, acls, vs, ?_, hvs, htables⟩
      rcases hseen with h0 | ⟨c, hc⟩
      · exact .inl h0
      · exact .inr ⟨c, List.mem_append_left _ hc⟩
  | generateDdbsTable acls current => exact h.generateDdbsTable acls current

/-- The run rule: the invariant holds after every run of calls. -/
theorem Inv.run (h : d.Inv seen) (calls : List (DdbsCall P)) :
    (d.run calls).Inv (seen ++ calls) := by
  induction calls generalizing d seen with
  | nil => simpa [DdbsState.run] using h
  | cons c cs ih =>
      have := ih (h.call c)
      rwa [List.append_assoc, List.singleton_append] at this

/-- No call changes the configured level. -/
theorem run_level (calls : List (DdbsCall P)) : (d.run calls).level = d.level := by
  induction calls generalizing d with
  | nil => rfl
  | cons c cs ih =>
      have hcall : (d.call c).level = d.level := by
        cases c with
        | updateMemoryLimit memoryLimit => rfl
        | generateDdbsTable acls current =>
            rcases generateDdbsTable_cases d acls current with ⟨_, _, -, heq⟩ | ⟨_, -, heq⟩ <;>
              simp only [DdbsState.call, heq]
      exact (ih (d := d.call c)).trans hcall

end Run

end DdbsState

/-! ### What the loop and the updates do -/

/-- **The memory loop settles**: it never needs more than `_LEVEL_MAX + 2` turns,
a loop that succeeds installs the tables of a vector size between 3 and 16, or of
none when it did not run, and one that fails does so with the memory error under a
nonzero limit. -/
theorem memoryLoop_settles (acls : List (Acl P)) (level memoryLimit currentLevel : Nat)
    (current : Nat → Nat) :
    (∀ fuel, LEVEL_MAX + 2 ≤ fuel →
      memoryLoopFuel fuel acls level memoryLimit currentLevel current
        = memoryLoop acls level memoryLimit currentLevel current) ∧
    (∀ v v6, (memoryLoop acls level memoryLimit currentLevel current).2 = .ok (v, v6) →
      ∃ vs : Option Nat, (∀ k ∈ vs, 3 ≤ k ∧ k ≤ 16) ∧
        Ddbs.ofVectors acls v v6 = Ddbs.generateDdbsTable acls vs) ∧
    (∀ e, (memoryLoop acls level memoryLimit currentLevel current).2 = .error e →
      memoryLimit ≠ 0 ∧ e = memoryExceedError memoryLimit) :=
  ⟨fun _ hfuel => memoryLoop_fuel acls level memoryLimit currentLevel current hfuel,
    fun _ _ h => memoryLoop_ok acls level memoryLimit currentLevel current h,
    fun _ h => memoryLoop_error acls level memoryLimit currentLevel current h⟩

/-- **Over every run of policy updates from `NewDdbs`** the level stays between the
configured one and `_LEVEL_MAX`, and the tables answer every lookup as the scan of
the match nodes of the ACLs of one of the calls, or of none. -/
theorem newDdbs_run_scan {D : Type} {level : Nat} {d : DdbsState P} (hnew : newDdbs level = some d)
    (calls : List (DdbsCall P)) (merge : P → P → D → P) (empty : P) :
    level ≤ (d.run calls).currentLevel ∧ (d.run calls).currentLevel ≤ LEVEL_MAX ∧
      ∃ acls : List (Acl P),
        (acls = [] ∨ ∃ current, DdbsCall.generateDdbsTable acls current ∈ calls) ∧
        (∀ (key : MatchedField 3) (direction : D) (portPolicy : Option P),
          (d.run calls).tables.getPolicyFromTable merge empty key direction portPolicy
            = (tableItems Acl.fieldLink acls).reverse.foldl (mergeItem merge empty key direction)
                portPolicy) ∧
        ∀ (key : MatchedField 6) (direction : D) (portPolicy : Option P),
          (d.run calls).tables.getPolicyFromTable6 merge empty key direction portPolicy
            = (tableItems Acl.field6Link acls).reverse.foldl (mergeItem merge empty key direction)
                portPolicy := by
  obtain ⟨hinv, hlevel⟩ := DdbsState.inv_newDdbs hnew
  have h := hinv.run calls
  rw [List.nil_append] at h
  obtain ⟨acls, vs, hseen, hvs, htables⟩ := h.tables
  obtain ⟨hv, hv6⟩ := wf_generateDdbsTable acls hvs
  have hlo : level ≤ (d.run calls).currentLevel := by
    rw [← hlevel, ← DdbsState.run_level calls]
    exact h.currentLevel.1
  refine ⟨hlo, h.currentLevel.2, acls, hseen, fun key direction portPolicy => ?_,
    fun key direction portPolicy => ?_⟩
  · rw [htables]
    exact getPolicyFromTableN_eq_scan merge empty key direction hv Acl.fieldLink acls portPolicy
  · rw [htables]
    exact getPolicyFromTableN_eq_scan merge empty key direction hv6 Acl.field6Link acls portPolicy

/-- A table configured at level 1 keeps its level within `1..=_LEVEL_MAX` through a
limit update and an update with no ACLs. -/
theorem newDdbs_run_scan_one :
    newDdbs 1 = some (⟨1, 1, 0, Ddbs.empty⟩ : DdbsState Unit) ∧
      1 ≤ ((⟨1, 1, 0, Ddbs.empty⟩ : DdbsState Unit).run
        [.updateMemoryLimit 1, .generateDdbsTable [] fun _ => 0]).currentLevel ∧
      ((⟨1, 1, 0, Ddbs.empty⟩ : DdbsState Unit).run
        [.updateMemoryLimit 1, .generateDdbsTable [] fun _ => 0]).currentLevel ≤ LEVEL_MAX :=
  have h := newDdbs_run_scan (D := Unit) (d := ⟨1, 1, 0, Ddbs.empty⟩) rfl
    [.updateMemoryLimit 1, .generateDdbsTable [] fun _ => 0] (fun _ _ _ => ()) ()
  ⟨rfl, h.1, h.2.1⟩

end Sophon.Server
