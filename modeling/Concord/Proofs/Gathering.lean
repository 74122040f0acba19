import Concord.Binding.Set
import Concord.Proofs.Orders

/-! Observations are gathered by their keys. What is gathered under some keys is the same whatever
is observed under other ones. -/
namespace Concord

open Std

variable {first : Binding} {rest : List Binding}

namespace Binding

def gather (bs : List Binding) : List Binding := bs.foldl (fun all b => b.insert all) []

def KeySorted (bs : List Binding) : Prop := bs.Pairwise fun a b => a.key.compare b.key = .lt

section Insert

variable {a b : Binding} {bs : List Binding}

theorem insert_cons_of_lt (h : b.key.compare a.key = .lt) : b.insert (a :: bs) = b :: a :: bs := by
  rw [insert, h]

theorem insert_cons_of_eq (h : b.key.compare a.key = .eq) : b.insert (a :: bs) = a.absorb b :: bs := by
  rw [insert, h]

theorem insert_cons_of_gt (h : b.key.compare a.key = .gt) : b.insert (a :: bs) = a :: b.insert bs := by
  rw [insert, h]

theorem insert_of_lt (h : ∀ a ∈ bs, b.key.compare a.key = .lt) : b.insert bs = b :: bs := by
  cases bs with
  | nil => rfl
  | cons a bs => exact insert_cons_of_lt (h a List.mem_cons_self)

theorem forall_key_insert {P : BindingKey → Prop} (hb : P b.key) (hbs : ∀ a ∈ bs, P a.key) :
    ∀ a ∈ b.insert bs, P a.key := by
  induction bs with
  | nil => simpa [insert] using hb
  | cons a bs ih =>
    obtain ⟨ha, hbs⟩ := List.forall_mem_cons.mp hbs
    cases hcmp : b.key.compare a.key with
    | lt => simpa [insert_cons_of_lt hcmp] using ⟨hb, ha, hbs⟩
    | eq => simpa [insert_cons_of_eq hcmp] using And.intro (show P (a.absorb b).key from ha) hbs
    | gt => simpa [insert_cons_of_gt hcmp] using ⟨ha, ih hbs⟩

theorem KeySorted.insert (h : KeySorted bs) : KeySorted (b.insert bs) := by
  induction bs with
  | nil => exact List.pairwise_singleton _ _
  | cons a bs ih =>
    obtain ⟨ha, hbs⟩ := List.pairwise_cons.mp h
    cases hcmp : b.key.compare a.key with
    | lt =>
      rw [insert_cons_of_lt hcmp]
      refine List.pairwise_cons.mpr ⟨List.forall_mem_cons.mpr ⟨hcmp, fun c hc => ?_⟩, h⟩
      exact TransCmp.lt_trans hcmp (ha c hc)
    | eq =>
      rw [insert_cons_of_eq hcmp]
      exact List.pairwise_cons.mpr ⟨ha, hbs⟩
    | gt =>
      rw [insert_cons_of_gt hcmp]
      have hfirst := forall_key_insert (P := fun k => a.key.compare k = .lt)
        (OrientedCmp.gt_iff_lt.mp hcmp) ha
      exact List.pairwise_cons.mpr ⟨hfirst, ih hbs⟩

end Insert

section Keys

variable {p : Binding → Bool} (hp : ∀ a b : Binding, a.key = b.key → p a = p b) {b : Binding}
  {bs : List Binding}

include hp

theorem filter_insert_of_pos (hb : p b = true) (h : KeySorted bs) :
    (b.insert bs).filter p = b.insert (bs.filter p) := by
  induction bs with
  | nil => simp [insert, hb]
  | cons a bs ih =>
    obtain ⟨ha, hbs⟩ := List.pairwise_cons.mp h
    cases hcmp : b.key.compare a.key with
    | lt =>
      -- the list is sorted, so what is left of it still comes after the new binding
      have hlt : ∀ c ∈ (a :: bs).filter p, b.key.compare c.key = .lt := by
        intro c hc
        rcases List.mem_cons.mp (List.mem_filter.mp hc).1 with rfl | hc
        · exact hcmp
        · exact TransCmp.lt_trans hcmp (ha c hc)
      rw [insert_cons_of_lt hcmp, insert_of_lt hlt, List.filter_cons_of_pos hb]
    | eq =>
      have hpa : p a = true := hp b a (BindingKey.eq_of_compare hcmp) ▸ hb
      have hunion : p (a.absorb b) = true := hp a (a.absorb b) rfl ▸ hpa
      rw [insert_cons_of_eq hcmp, List.filter_cons_of_pos hunion, List.filter_cons_of_pos hpa,
        insert_cons_of_eq hcmp]
    | gt =>
      rw [insert_cons_of_gt hcmp]
      by_cases hpa : p a = true
      · rw [List.filter_cons_of_pos hpa, List.filter_cons_of_pos hpa, insert_cons_of_gt hcmp, ih hbs]
      · rw [List.filter_cons_of_neg hpa, List.filter_cons_of_neg hpa, ih hbs]

theorem filter_insert_of_neg (hb : ¬p b = true) : (b.insert bs).filter p = bs.filter p := by
  induction bs with
  | nil => simp [insert, hb]
  | cons a bs ih =>
    cases hcmp : b.key.compare a.key with
    | lt => rw [insert_cons_of_lt hcmp, List.filter_cons_of_neg hb]
    | eq =>
      have hpa : ¬p a = true := hp b a (BindingKey.eq_of_compare hcmp) ▸ hb
      have hunion : ¬p (a.absorb b) = true := hp a (a.absorb b) rfl ▸ hpa
      rw [insert_cons_of_eq hcmp, List.filter_cons_of_neg hunion, List.filter_cons_of_neg hpa]
    | gt => rw [insert_cons_of_gt hcmp, List.filter_cons, List.filter_cons, ih]

/-- What is gathered under some keys comes from what is observed under them. -/
theorem filter_gather (bs : List Binding) : (gather bs).filter p = gather (bs.filter p) := by
  have hfold {all : List Binding} (h : KeySorted all) :
      (bs.foldl (fun all b => b.insert all) all).filter p =
        (bs.filter p).foldl (fun all b => b.insert all) (all.filter p) := by
    induction bs generalizing all with
    | nil => rfl
    | cons b bs ih =>
      rw [List.foldl_cons, ih h.insert]
      by_cases hb : p b = true
      · rw [filter_insert_of_pos hp hb h, List.filter_cons_of_pos hb, List.foldl_cons]
      · rw [filter_insert_of_neg hp hb, List.filter_cons_of_neg hb]
  exact hfold List.Pairwise.nil

end Keys

theorem keySorted_gather (bs : List Binding) : KeySorted (gather bs) := by
  have hfold {all : List Binding} (h : KeySorted all) :
      KeySorted (bs.foldl (fun all b => b.insert all) all) := by
    induction bs generalizing all with
    | nil => exact h
    | cons b bs ih => exact ih h.insert
  exact hfold List.Pairwise.nil

theorem gather_of_same_key (h : ∀ b ∈ rest, b.key = first.key) :
    gather (first :: rest) = [rest.foldl absorb first] := by
  change rest.foldl (fun all b => b.insert all) [first] = _
  induction rest generalizing first with
  | nil => rfl
  | cons b rest ih =>
    obtain ⟨hb, hrest⟩ := List.forall_mem_cons.mp h
    have hcmp : b.key.compare first.key = .eq := by simp [hb, ReflCmp.compare_self]
    rw [List.foldl_cons, insert_cons_of_eq hcmp, List.foldl_cons]
    exact ih hrest

theorem filter_gather_key (bs : List Binding) (k : BindingKey) :
    (gather bs).filter (·.key = k) = gather (bs.filter (·.key = k)) := by
  apply filter_gather
  intro a b hkey
  rw [hkey]

theorem gathered_under_key {bs rest : List Binding} {k : BindingKey}
    (h : bs.filter (·.key = k) = first :: rest) :
    (gather bs).filter (·.key = k) = [rest.foldl absorb first] := by
  have hkeys : ∀ a ∈ first :: rest, a.key = k := by
    intro a ha
    rw [← h] at ha
    simpa using (List.mem_filter.mp ha).2
  obtain ⟨hfirst, hrest⟩ := List.forall_mem_cons.mp hkeys
  rw [filter_gather_key, h, gather_of_same_key fun a ha => (hrest a ha).trans hfirst.symm]

theorem exists_union_of_mem_gather {bs : List Binding} {b : Binding} (hb : b ∈ gather bs) :
    ∃ first rest, bs.filter (·.key = b.key) = first :: rest ∧ b = rest.foldl absorb first := by
  have hmem : b ∈ (gather bs).filter (·.key = b.key) := by simpa using hb
  cases h : bs.filter (·.key = b.key) with
  | nil =>
    rw [filter_gather_key, h] at hmem
    cases hmem
  | cons first rest =>
    rw [gathered_under_key h] at hmem
    exact ⟨first, rest, rfl, List.mem_singleton.mp hmem⟩

theorem exists_gathered_iff {bs : List Binding} {k : BindingKey} :
    (∃ b ∈ gather bs, b.key = k) ↔ ∃ b ∈ bs, b.key = k := by
  have hmem (l : List Binding) : (∃ b ∈ l, b.key = k) ↔ l.filter (·.key = k) ≠ [] := by
    simp
  rw [hmem, hmem]
  cases h : bs.filter (·.key = k) with
  | nil =>
    rw [filter_gather_key, h]
    rfl
  | cons first rest =>
    rw [gathered_under_key h]
    simp

theorem mem_sortedLocations {l : Location} {ls : List Location} : l ∈ sortedLocations ls ↔ l ∈ ls := by
  simp [sortedLocations]

/-- The places of a binding ascend strictly, and its own place is the first of them. -/
structure Placed (b : Binding) : Prop where
  ascending : b.locations.Pairwise fun l l' => l.compare l' = .lt
  mem : b.location ∈ b.locations
  least : ∀ l ∈ b.locations, (b.location.compare l).isLE = true

theorem mem_locations_absorb {a b : Binding} {l : Location} :
    l ∈ (a.absorb b).locations ↔ l ∈ a.locations ∨ l ∈ b.locations := by
  simp [absorb, mem_sortedLocations]

theorem Placed.absorb {a b : Binding} (ha : Placed a) (hb : Placed b) : Placed (a.absorb b) := by
  have hleast : ((a.absorb b).location = a.location ∨ (a.absorb b).location = b.location) ∧
      ((a.absorb b).location.compare a.location).isLE = true ∧
      ((a.absorb b).location.compare b.location).isLE = true := by
    by_cases h : b.location.compare a.location = .lt
    · simp [Binding.absorb, h, ReflCmp.compare_self]
    · have hle : (a.location.compare b.location).isLE = true :=
        Ordering.ne_gt_iff_isLE.mp fun hgt => h (OrientedCmp.lt_of_gt hgt)
      simp [Binding.absorb, h, ReflCmp.compare_self, hle]
  obtain ⟨hone, hlea, hleb⟩ := hleast
  constructor
  · exact Text.ascending_dropRepeats_mergeSort _
  · rw [mem_locations_absorb]
    rcases hone with h | h
    · exact .inl (h ▸ ha.mem)
    · exact .inr (h ▸ hb.mem)
  · intro l hl
    rcases mem_locations_absorb.mp hl with hl | hl
    · exact TransCmp.isLE_trans hlea (ha.least l hl)
    · exact TransCmp.isLE_trans hleb (hb.least l hl)

theorem placed_foldl_absorb (h : ∀ b ∈ first :: rest, Placed b) : Placed (rest.foldl absorb first) := by
  induction rest generalizing first with
  | nil => exact h first List.mem_cons_self
  | cons b rest ih =>
    obtain ⟨hfirst, hrest⟩ := List.forall_mem_cons.mp h
    obtain ⟨hb, hrest⟩ := List.forall_mem_cons.mp hrest
    exact ih (List.forall_mem_cons.mpr ⟨hfirst.absorb hb, hrest⟩)

theorem mem_locations_foldl_absorb {l : Location} :
    l ∈ (rest.foldl absorb first).locations ↔ ∃ b ∈ first :: rest, l ∈ b.locations := by
  induction rest generalizing first with
  | nil => simp
  | cons b rest ih =>
    rw [List.foldl_cons, ih]
    simp [mem_locations_absorb, or_assoc]

end Binding

def Outcome.binding? : Outcome → Option Binding
  | .bound b => some b
  | _ => none

theorem Outcome.binding?_eq_some_iff {x : Outcome} {b : Binding} :
    x.binding? = some b ↔ x = .bound b := by
  cases x <;> simp [Outcome.binding?]

def Outcome.mismatch? : Outcome → Option Mismatch
  | .contradicts m => some m
  | _ => none

def Outcome.diagnostic? : Outcome → Option Diagnostic
  | .unbound d => some d
  | _ => none

theorem bindings_ofOutcomes (outcomes : List Outcome) :
    (BindingSet.ofOutcomes outcomes).bindings = Binding.gather (outcomes.filterMap (·.binding?)) := by
  have hfold (s : BindingSet) : (outcomes.foldl BindingSet.add s).bindings =
      (outcomes.filterMap (·.binding?)).foldl (fun all b => b.insert all) s.bindings := by
    induction outcomes generalizing s with
    | nil => rfl
    | cons o outcomes ih => cases o <;> simp [ih, BindingSet.add, Outcome.binding?]
  exact hfold .empty

theorem mismatches_ofOutcomes (outcomes : List Outcome) :
    (BindingSet.ofOutcomes outcomes).mismatches = outcomes.filterMap (·.mismatch?) := by
  have hfold (s : BindingSet) : (outcomes.foldl BindingSet.add s).mismatches =
      s.mismatches ++ outcomes.filterMap (·.mismatch?) := by
    induction outcomes generalizing s with
    | nil => simp
    | cons o outcomes ih => cases o <;> simp [ih, BindingSet.add, Outcome.mismatch?]
  exact hfold .empty

theorem diagnostics_ofOutcomes (outcomes : List Outcome) :
    (BindingSet.ofOutcomes outcomes).diagnostics = outcomes.filterMap (·.diagnostic?) := by
  have hfold (s : BindingSet) : (outcomes.foldl BindingSet.add s).diagnostics =
      s.diagnostics ++ outcomes.filterMap (·.diagnostic?) := by
    induction outcomes generalizing s with
    | nil => simp
    | cons o outcomes ih => cases o <;> simp [ih, BindingSet.add, Outcome.diagnostic?]
  exact hfold .empty

end Concord
