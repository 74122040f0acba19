import Concord.Binding.Basic

/-! Places and keys are ordered part by part. Sorting keeps what it sorts, and the order of any
selection from it does not depend on the rest. -/
namespace Concord

open Std

theorem Location.compare_eq_lex : Location.compare =
    compareLex (compareOn (·.file)) (compareLex (compareOn (·.line)) (compareOn (·.column))) := rfl

instance : TransCmp Location.compare := by
  rw [Location.compare_eq_lex]
  infer_instance

instance : LawfulEqCmp Location.compare where
  eq_of_compare {a b} h := by
    cases a
    cases b
    simpa [Location.compare, Ordering.then_eq_eq, Std.compare_eq_iff_eq] using h

theorem BindingKey.compare_eq_lex : BindingKey.compare =
    compareLex (compareOn (·.contract)) (compareLex (compareOn (·.endpoint))
      (compareLex (compareOn (·.service)) (compareLex (compareOn (·.role.rank))
        (compareLex (compareOn (·.side.rank)) (compareOn (·.inTest.toNat)))))) := rfl

instance : TransCmp BindingKey.compare := by
  rw [BindingKey.compare_eq_lex]
  infer_instance

theorem BindingKey.eq_of_compare {a b : BindingKey} (h : a.compare b = .eq) : a = b := by
  obtain ⟨contract, endpoint, service, role, side, inTest⟩ := a
  obtain ⟨contract', endpoint', service', role', side', inTest'⟩ := b
  simp only [BindingKey.compare, Ordering.then_eq_eq, Std.compare_eq_iff_eq] at h
  obtain ⟨rfl, rfl, rfl, hrole, hside, htest⟩ := h
  have hrole : role = role' := by cases role <;> cases role' <;> simp_all [Role.rank]
  have hside : side = side' := by cases side <;> cases side' <;> simp_all [Side.rank]
  have htest : inTest = inTest' := by cases inTest <;> cases inTest' <;> simp_all
  rw [hrole, hside, htest]

theorem ne_gt_trans {α : Type} {cmp : α → α → Ordering} [TransCmp cmp] {a b c : α}
    (hab : (cmp a b != .gt) = true) (hbc : (cmp b c != .gt) = true) : (cmp a c != .gt) = true := by
  simp only [bne_iff_ne, ne_eq, ← Ordering.isLE_iff_ne_gt] at hab hbc ⊢
  exact TransCmp.isLE_trans hab hbc

theorem ne_gt_total {α : Type} {cmp : α → α → Ordering} [OrientedCmp cmp] (a b : α) :
    (cmp a b != .gt || cmp b a != .gt) = true := by
  have hswap : cmp b a = (cmp a b).swap := OrientedCmp.eq_swap
  rw [hswap]
  cases cmp a b <;> rfl

namespace Text

@[simp] theorem mem_dropRepeats {α : Type} [BEq α] [LawfulBEq α] {a : α} {l : List α} :
    a ∈ dropRepeats l ↔ a ∈ l := by
  fun_induction dropRepeats l with
  | case1 => rfl
  | case2 => rfl
  | case3 b c rest heq ih =>
    obtain rfl : b = c := by simpa using heq
    simp [ih]
  | case4 b c rest hne ih => simp [ih]

@[simp] theorem mem_sortedUnique {a : String} {names : List String} :
    a ∈ sortedUnique names ↔ a ∈ names := by
  simp [sortedUnique, sorted]

/-- What is sorted ascends strictly once repetitions are dropped, if only equal elements are ordered
equally. -/
theorem pairwise_dropRepeats {α : Type} [BEq α] [LawfulBEq α] {cmp : α → α → Ordering} [TransCmp cmp]
    {l : List α} (hties : ∀ a ∈ l, ∀ b ∈ l, cmp a b = .eq → a = b)
    (h : l.Pairwise fun a b => (cmp a b != .gt) = true) :
    (dropRepeats l).Pairwise fun a b => cmp a b = .lt := by
  fun_induction dropRepeats l with
  | case1 => exact .nil
  | case2 a => exact List.pairwise_singleton _ a
  | case3 a b rest heq ih =>
    obtain rfl : a = b := by simpa using heq
    exact ih (fun x hx y hy => hties x (.tail _ hx) y (.tail _ hy)) (List.pairwise_cons.mp h).2
  | case4 a b rest hne ih =>
    obtain ⟨ha, hrest⟩ := List.pairwise_cons.mp h
    apply List.pairwise_cons.mpr
      ⟨?_, ih (fun x hx y hy => hties x (.tail _ hx) y (.tail _ hy)) hrest⟩
    have hab : cmp a b = .lt := by
      cases hcmp : cmp a b with
      | lt => rfl
      | eq => simp [hties a (by simp) b (by simp) hcmp] at hne
      | gt => simpa [hcmp] using ha b List.mem_cons_self
    intro c hc
    rcases List.mem_cons.mp (mem_dropRepeats.mp hc) with rfl | hc
    · exact hab
    · have hbc := (List.pairwise_cons.mp hrest).1 c hc
      simp only [bne_iff_ne, ne_eq, ← Ordering.isLE_iff_ne_gt] at hbc
      exact TransCmp.lt_of_lt_of_isLE hab hbc

theorem pairwise_mergeSort {α : Type} {cmp : α → α → Ordering} [TransCmp cmp] (l : List α) :
    (l.mergeSort fun a b => cmp a b != .gt).Pairwise fun a b => (cmp a b != .gt) = true :=
  List.pairwise_mergeSort (fun _ _ _ => ne_gt_trans) (fun _ _ => ne_gt_total _ _) l

theorem ascending_dropRepeats_mergeSort {α : Type} [BEq α] [LawfulBEq α] {cmp : α → α → Ordering}
    [TransCmp cmp] [LawfulEqCmp cmp] (l : List α) :
    (dropRepeats (l.mergeSort fun a b => cmp a b != .gt)).Pairwise fun a b => cmp a b = .lt :=
  pairwise_dropRepeats (fun _ _ _ _ => LawfulEqCmp.eq_of_compare) (pairwise_mergeSort l)

end Text

theorem nodup_of_ascending {α : Type} {cmp : α → α → Ordering} [TransCmp cmp] {l : List α}
    (h : l.Pairwise fun a b => cmp a b = .lt) : l.Nodup := by
  apply h.imp
  rintro a b hlt rfl
  simp [ReflCmp.compare_self] at hlt

theorem Text.nodup_sortedUnique (names : List String) : (sortedUnique names).Nodup :=
  nodup_of_ascending (ascending_dropRepeats_mergeSort names)

theorem eq_of_ascending {α : Type} {cmp : α → α → Ordering} [TransCmp cmp] {l₁ l₂ : List α}
    (h₁ : l₁.Pairwise fun a b => cmp a b = .lt) (h₂ : l₂.Pairwise fun a b => cmp a b = .lt)
    (hmem : ∀ a, a ∈ l₁ ↔ a ∈ l₂) : l₁ = l₂ := by
  have hperm : l₁.Perm l₂ :=
    (List.perm_ext_iff_of_nodup (nodup_of_ascending h₁) (nodup_of_ascending h₂)).mpr hmem
  refine List.Perm.eq_of_pairwise ?_ h₁ h₂ hperm
  intro a b _ _ hab hba
  simp [OrientedCmp.gt_of_lt hab] at hba

/-- Sorting does not depend on the order before it if only equal elements are ordered equally. -/
theorem mergeSort_eq_of_perm {α : Type} {le : α → α → Bool}
    (trans : ∀ a b c, le a b = true → le b c = true → le a c = true)
    (total : ∀ a b, (le a b || le b a) = true) {l₁ l₂ : List α}
    (hties : ∀ a ∈ l₁, ∀ b ∈ l₁, le a b = true → le b a = true → a = b) (hperm : l₁.Perm l₂) :
    l₁.mergeSort le = l₂.mergeSort le := by
  refine List.Perm.eq_of_pairwise ?_ (List.pairwise_mergeSort trans total l₁)
    (List.pairwise_mergeSort trans total l₂) ?_
  · intro a b ha hb
    exact hties a (List.mem_mergeSort.mp ha) b (hperm.mem_iff.mpr (List.mem_mergeSort.mp hb))
  · exact (List.mergeSort_perm l₁ le).trans (hperm.trans (List.mergeSort_perm l₂ le).symm)

theorem eq_of_ne_gt {α : Type} {cmp : α → α → Ordering} [OrientedCmp cmp] {a b : α}
    (hab : (cmp a b != .gt) = true) (hba : (cmp b a != .gt) = true) : cmp a b = .eq := by
  have hswap : cmp b a = (cmp a b).swap := OrientedCmp.eq_swap
  rw [hswap] at hba
  cases hcmp : cmp a b <;> simp [hcmp] at hab hba ⊢

/-- Sorting by keys that are apart does not depend on the order before it. -/
theorem mergeSort_key_eq_of_perm {α κ : Type} {cmp : κ → κ → Ordering} [TransCmp cmp]
    [LawfulEqCmp cmp] {key : α → κ} {l₁ l₂ : List α}
    (hkeys : ∀ a ∈ l₁, ∀ b ∈ l₁, key a = key b → a = b) (hperm : l₁.Perm l₂) :
    (l₁.mergeSort fun a b => cmp (key a) (key b) != .gt) =
      l₂.mergeSort fun a b => cmp (key a) (key b) != .gt :=
  mergeSort_eq_of_perm (fun _ _ _ => ne_gt_trans) (fun _ _ => ne_gt_total _ _)
    (fun a ha b hb hab hba => hkeys a ha b hb (LawfulEqCmp.eq_of_compare (eq_of_ne_gt hab hba))) hperm

theorem eq_of_append_eq_append {α : Type} {p : α → Bool} {l₁ l₂ m₁ m₂ : List α}
    (h : l₁ ++ l₂ = m₁ ++ m₂) (hl₁ : ∀ a ∈ l₁, p a = true) (hl₂ : ∀ a ∈ l₂, p a = false)
    (hm₁ : ∀ a ∈ m₁, p a = true) (hm₂ : ∀ a ∈ m₂, p a = false) : l₁ = m₁ ∧ l₂ = m₂ := by
  have hfront {x y : List α} (hx : ∀ a ∈ x, p a = true) (hy : ∀ a ∈ y, p a = false) :
      (x ++ y).filter p = x := by
    rw [List.filter_append, List.filter_eq_self.mpr hx, List.filter_eq_nil_iff.mpr (by simpa using hy),
      List.append_nil]
  have hsame : l₁ = m₁ := by
    rw [← hfront hl₁ hl₂, h, hfront hm₁ hm₂]
  subst hsame
  exact ⟨rfl, List.append_cancel_left h⟩

theorem filter_mergeSort {α : Type} {le : α → α → Bool}
    (trans : ∀ a b c, le a b = true → le b c = true → le a c = true)
    (total : ∀ a b, (le a b || le b a) = true) (p : α → Bool) (l : List α) :
    (l.mergeSort le).filter p = (l.filter p).mergeSort le := by
  induction l with
  | nil => simp
  | cons a l ih =>
    have hafter {x before after : List α} (h : (a :: x).mergeSort le = before ++ a :: after) :
        ∀ b ∈ after, le a b = true := by
      have hsorted := List.pairwise_mergeSort trans total (a :: x)
      rw [h, List.pairwise_append, List.pairwise_cons] at hsorted
      exact hsorted.2.1.1
    obtain ⟨l₁, l₂, hcons, hl, hl₁⟩ := List.mergeSort_cons trans total a l
    by_cases ha : p a = true
    · -- both lists are cut at `a` into what comes before it and what does not
      obtain ⟨m₁, m₂, hcons', hm, hm₁⟩ := List.mergeSort_cons trans total a (l.filter p)
      have hsame : l₁.filter p ++ l₂.filter p = m₁ ++ m₂ := by
        rw [← List.filter_append, ← hl, ih, hm]
      obtain ⟨h₁, h₂⟩ := eq_of_append_eq_append (p := fun b => !le a b) hsame
        (fun b hb => hl₁ b (List.mem_filter.mp hb).1)
        (fun b hb => by simpa using hafter hcons b (List.mem_filter.mp hb).1) hm₁
        (fun b hb => by simpa using hafter hcons' b hb)
      rw [List.filter_cons_of_pos ha, hcons, List.filter_append, List.filter_cons_of_pos ha, hcons', h₁,
        h₂]
    · rw [List.filter_cons_of_neg ha, hcons, List.filter_append, List.filter_cons_of_neg ha,
        ← List.filter_append, ← hl, ih]

end Concord
