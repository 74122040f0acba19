import Mathlib.Data.List.Induction
import Concord.Boundary.Attach

/-! Each hint goes to the first observation at or below its line that no hint before it took. So
what a hint gets is told by the hints before it, and since hints are in line order, what a later
hint takes was free for the earlier ones too: they took something before it. -/
namespace Concord.Observation

variable {hs : List (Nat × Hint)} {os : List Observation} {taken : List (Option Nat)}

/-- There is an observation at a place, at or below a line. -/
def IsBelow (os : List Observation) (line i : Nat) : Prop :=
  ∃ o, os[i]? = some o ∧ line ≤ o.location.line

theorem freeBelow?_pred {line i : Nat} :
    (!taken.contains (some i) && os[i]?.any (line ≤ ·.location.line)) = true ↔
      some i ∉ taken ∧ IsBelow os line i := by
  simp [IsBelow, Option.any_eq_true]

theorem freeBelow?_eq_some {line i : Nat} (h : freeBelow? os taken line = some i) :
    some i ∉ taken ∧ IsBelow os line i ∧ ∀ j, some j ∉ taken → IsBelow os line j → i ≤ j := by
  obtain ⟨hi, -, hfirst⟩ := List.find?_range_eq_some.mp h
  obtain ⟨hfree, hbelow⟩ := freeBelow?_pred.mp hi
  refine ⟨hfree, hbelow, fun j hj hjbelow => ?_⟩
  by_contra hlt
  have hnot := hfirst j (Nat.lt_of_not_le hlt)
  rw [freeBelow?_pred.mpr ⟨hj, hjbelow⟩] at hnot
  cases hnot

theorem freeBelow?_eq_none {line : Nat} (h : freeBelow? os taken line = none) {j : Nat}
    (hj : IsBelow os line j) : some j ∈ taken := by
  have hlt : j < os.length := by
    obtain ⟨o, ho, -⟩ := hj
    exact (List.getElem?_eq_some_iff.mp ho).1
  have hnot := List.find?_range_eq_none.mp h j hlt
  by_contra hfree
  rw [freeBelow?_pred.mpr ⟨hfree, hj⟩] at hnot
  cases hnot

theorem hintTargets_concat (hs : List (Nat × Hint)) (h : Nat × Hint) :
    hintTargets os (hs ++ [h]) = hintTargets os hs ++ [freeBelow? os (hintTargets os hs) h.1] := by
  simp [hintTargets]

theorem length_hintTargets (os : List Observation) (hs : List (Nat × Hint)) :
    (hintTargets os hs).length = hs.length := by
  induction hs using List.reverseRecOn with
  | nil => rfl
  | append_singleton hs h ih => simp [hintTargets_concat, ih]

/-- A hint goes to the first observation at or below its line that no hint before it took. -/
theorem hintTargets_getElem? {k : Nat} {h : Nat × Hint} (hk : hs[k]? = some h) :
    (hintTargets os hs)[k]? = some (freeBelow? os ((hintTargets os hs).take k) h.1) := by
  induction hs using List.reverseRecOn with
  | nil => simp at hk
  | append_singleton hs g ih =>
    have hlen := length_hintTargets os hs
    rw [hintTargets_concat]
    rcases Nat.lt_or_ge k hs.length with hlt | hge
    · rw [List.getElem?_append_left hlt] at hk
      rw [List.getElem?_append_left (by omega), List.take_append_of_le_length (by omega), ih hk]
    · obtain ⟨hlast, -⟩ := List.getElem?_eq_some_iff.mp hk
      obtain rfl : k = hs.length := by
        rw [List.length_append, List.length_singleton] at hlast
        omega
      obtain rfl : g = h := by simpa using hk
      rw [← hlen, List.getElem?_concat_length, List.take_left]

/-- Hints and the observations they go to, by their numbers: no hint goes up, later hints go to later
observations, and one goes nowhere only if all from its line on are taken by hints before it. -/
structure Uncrossed (hs : List (Nat × Hint)) (os : List Observation) (target : Nat → Option Nat) :
    Prop where
  below : ∀ k i, target k = some i → ∃ h, hs[k]? = some h ∧ IsBelow os h.1 i
  ordered : ∀ k l i j, k < l → target k = some i → target l = some j → i < j
  exhausted : ∀ k h, hs[k]? = some h → target k = none →
    ∀ i, IsBelow os h.1 i → ∃ l < k, target l = some i

/-- What each hint goes to, none if it goes nowhere. -/
def targetOf (hs : List (Nat × Hint)) (os : List Observation) (k : Nat) : Option Nat :=
  (hintTargets os hs)[k]?.join

theorem targetOf_eq_some {k i : Nat} : targetOf hs os k = some i ↔ (hintTargets os hs)[k]? = some (some i) :=
  Option.join_eq_some_iff

theorem exists_hint {k i : Nat} (hk : targetOf hs os k = some i) :
    ∃ h, hs[k]? = some h ∧ freeBelow? os ((hintTargets os hs).take k) h.1 = some i := by
  rw [targetOf_eq_some] at hk
  obtain ⟨hlt, -⟩ := List.getElem?_eq_some_iff.mp hk
  rw [length_hintTargets] at hlt
  have hget := List.getElem?_eq_getElem hlt
  exact ⟨_, hget, Option.some.inj ((hintTargets_getElem? hget).symm.trans hk)⟩

theorem mem_take_hintTargets {k i : Nat} :
    some i ∈ (hintTargets os hs).take k ↔ ∃ l < k, targetOf hs os l = some i := by
  simp only [targetOf_eq_some, List.mem_iff_getElem?, List.getElem?_take]
  grind

theorem uncrossed_targetOf (hsorted : hs.Pairwise (·.1 ≤ ·.1)) : Uncrossed hs os (targetOf hs os) where
  below := by
    intro k i hk
    obtain ⟨h, hget, hfree⟩ := exists_hint hk
    exact ⟨h, hget, (freeBelow?_eq_some hfree).2.1⟩
  ordered := by
    intro k l i j hkl hk hl
    obtain ⟨g, hg, hi⟩ := exists_hint hk
    obtain ⟨h, hh, hj⟩ := exists_hint hl
    obtain ⟨-, -, hfirst⟩ := freeBelow?_eq_some hi
    obtain ⟨hfree, ⟨o, ho, hline⟩, -⟩ := freeBelow?_eq_some hj
    have hle : g.1 ≤ h.1 := by
      obtain ⟨hkl', rfl⟩ := List.getElem?_eq_some_iff.mp hg
      obtain ⟨hll, rfl⟩ := List.getElem?_eq_some_iff.mp hh
      exact List.pairwise_iff_getElem.mp hsorted k l hkl' hll hkl
    -- what the later hint takes was free for the earlier one as well
    have hnot : ∀ m < l, targetOf hs os m ≠ some j := by
      intro m hm heq
      exact hfree (mem_take_hintTargets.mpr ⟨m, hm, heq⟩)
    have hearlier : some j ∉ (hintTargets os hs).take k := by
      intro hmem
      obtain ⟨m, hm, heq⟩ := mem_take_hintTargets.mp hmem
      exact hnot m (Nat.lt_trans hm hkl) heq
    have hij := hfirst j hearlier ⟨o, ho, Nat.le_trans hle hline⟩
    have hne : i ≠ j := by
      rintro rfl
      exact hnot k hkl hk
    omega
  exhausted := by
    intro k h hget hk i hi
    rw [targetOf, hintTargets_getElem? hget] at hk
    exact mem_take_hintTargets.mp (freeBelow?_eq_none hk hi)

/-- The hints stand at the observations they go to, and the other observations are as they were. -/
structure Attached (hs : List (Nat × Hint)) (os : List Observation) (target : Nat → Option Nat)
    (result : List Observation) : Prop where
  length_eq : result.length = os.length
  given : ∀ k i h, target k = some i → hs[k]? = some h →
    result[i]? = os[i]?.map ({ · with hint := some h.2 })
  kept : ∀ i, (∀ k, target k ≠ some i) → result[i]? = os[i]?

theorem attached_giveHints (hsorted : hs.Pairwise (·.1 ≤ ·.1)) :
    Attached hs os (targetOf hs os) (giveHints hs os) where
  length_eq := by simp [giveHints]
  given := by
    intro k i h hk hget
    have hzip : ((hintTargets os hs).zip hs)[k]? = some (some i, h) :=
      List.getElem?_zip_eq_some.mpr ⟨targetOf_eq_some.mp hk, hget⟩
    obtain ⟨hlt, hat⟩ := List.getElem?_eq_some_iff.mp hzip
    have hfound : ((hintTargets os hs).zip hs).find? (·.1 == some i) = some (some i, h) := by
      refine List.find?_eq_some_iff_getElem.mpr ⟨by simp, k, hlt, hat, fun l hl => ?_⟩
      have hbefore : targetOf hs os l ≠ some i := by
        intro heq
        have := (uncrossed_targetOf hsorted).ordered l k i i hl heq hk
        omega
      have hne : ((hintTargets os hs).zip hs)[l].1 ≠ some i := by
        intro heq
        refine hbefore (targetOf_eq_some.mpr ?_)
        rw [← heq, List.getElem_zip, List.getElem?_eq_getElem]
      simpa using hne
    rw [giveHints, List.getElem?_mapIdx, hfound]
    simp
  kept := by
    intro i hnone
    have hmissing : ((hintTargets os hs).zip hs).find? (·.1 == some i) = none := by
      refine List.find?_eq_none.mpr fun p hp => ?_
      obtain ⟨k, hk⟩ := List.mem_iff_getElem?.mp hp
      have hne : p.1 ≠ some i := by
        intro heq
        refine hnone k (targetOf_eq_some.mpr ?_)
        rw [← heq]
        exact (List.getElem?_zip_eq_some.mp hk).1
      simpa using hne
    rw [giveHints, List.getElem?_mapIdx, hmissing]
    simp

def SpanLe (a b : Observation) : Prop :=
  a.span.start < b.span.start ∨ a.span.start = b.span.start ∧ a.span.stop ≤ b.span.stop

theorem complete_span (s : Source) (routines : List Routine) (hits : List Hit) (testFile : Bool)
    (o : Observation) : (complete s routines hits testFile o).span = o.span := by
  unfold complete
  dsimp only
  split <;> rfl

theorem completed_pairwise (s : Source) (routines : List Routine) (testFile : Bool)
    (os : List Observation) : (completed s routines testFile os).Pairwise SpanLe := by
  have hsorted := @List.pairwise_mergeSort Observation (fun a b =>
    a.span.start < b.span.start || (a.span.start == b.span.start && a.span.stop ≤ b.span.stop))
    (fun a b c hab hbc => by simp at *; omega) (fun a b => by simp; omega) os
  refine List.pairwise_map.mpr (hsorted.imp fun {a b} hab => ?_)
  simpa [SpanLe, complete_span] using hab

theorem hints_pairwise (s : Source) : (Note.hints s).Pairwise (·.1 ≤ ·.1) := by
  have hsorted := @List.pairwise_mergeSort (Nat × Hint) (fun a b => decide (a.1 ≤ b.1))
    (fun a b c hab hbc => by simp at *; omega) (fun a b => by simp; omega)
  exact (hsorted _).imp fun hab => by simpa using hab

/-- The hints of a source go to its observations without crossing: each to one observation and to each
at most one, none to one above it, later hints to later observations, and a hint goes nowhere only if
those before it took all that are at or below its line. -/
theorem hints_uncrossed (s : Source) (routines : List Routine) (testFile : Bool)
    (os : List Observation) :
    (completed s routines testFile os).Pairwise SpanLe ∧
      (completed s routines testFile os).Perm (os.map (complete s routines (Evidence.scan s) testFile)) ∧
      (Note.hints s).Pairwise (·.1 ≤ ·.1) ∧ ∃ target,
        Uncrossed (Note.hints s) (completed s routines testFile os) target ∧
        Attached (Note.hints s) (completed s routines testFile os) target
          (completeAll s routines testFile os) := by
  have hsorted := hints_pairwise s
  exact ⟨completed_pairwise s routines testFile os, (List.mergeSort_perm os _).map _, hsorted, _,
    uncrossed_targetOf hsorted, attached_giveHints hsorted⟩

end Concord.Observation
