import Concord.Keyed

/-! What a change of one entry, and the choice of the first entry of each key, do to keys and
look-ups. -/
namespace Concord.Keyed

variable {α κ : Type} {k : κ} {xs : List α} {seen : List κ}

section Upsert

variable [DecidableEq κ] (key : α → κ) {change : α → α} {a : α}

theorem find?_upsert_self (hkey : ∀ m, key (change m) = key m) (l : List α) :
    (upsert (key · == key a) change a l).find? (key · == key a) =
      some (((l.find? (key · == key a)).map change).getD a) := by
  induction l with
  | nil => simp [upsert]
  | cons m l ih => by_cases hm : key m = key a <;> simp [upsert, hm, hkey, ih]

theorem find?_upsert_of_ne (hkey : ∀ m, key (change m) = key m) (hk : k ≠ key a) (l : List α) :
    (upsert (key · == key a) change a l).find? (key · == k) = l.find? (key · == k) := by
  induction l with
  | nil => simp [upsert, hk.symm]
  | cons m l ih =>
    by_cases hm : key m = key a
    · simp [upsert, hm, hkey, hk.symm]
    · simp [upsert, hm, List.find?_cons, ih]

theorem map_upsert (hkey : ∀ m, key (change m) = key m) (l : List α) :
    (upsert (key · == key a) change a l).map key =
      if key a ∈ l.map key then l.map key else l.map key ++ [key a] := by
  induction l with
  | nil => simp [upsert]
  | cons m l ih =>
    by_cases hm : key m = key a
    · simp [upsert, hm, hkey]
    · have hne : key a ≠ key m := fun h => hm h.symm
      by_cases ha : key a ∈ l.map key
      · simp only [upsert, beq_eq_false_iff_ne.mpr hm, Bool.false_eq_true, if_false, List.map_cons, ih,
          if_pos ha, if_pos (List.mem_cons_of_mem _ ha)]
      · simp only [upsert, beq_eq_false_iff_ne.mpr hm, Bool.false_eq_true, if_false, List.map_cons, ih,
          if_neg ha, List.mem_cons, hne, false_or, List.cons_append]

theorem mem_upsert {p : α → Bool} {x : α} {l : List α} (h : x ∈ upsert p change a l) :
    x ∈ l ∨ x = a ∨ ∃ m ∈ l, p m = true ∧ x = change m := by
  induction l with
  | nil => exact .inr (.inl (by simpa [upsert] using h))
  | cons m l ih =>
    by_cases hm : p m = true
    · rw [upsert, if_pos hm] at h
      rcases List.mem_cons.mp h with rfl | h
      · exact .inr (.inr ⟨m, List.mem_cons_self, hm, rfl⟩)
      · exact .inl (List.mem_cons_of_mem _ h)
    · rw [upsert, if_neg hm] at h
      rcases List.mem_cons.mp h with rfl | h
      · exact .inl List.mem_cons_self
      · rcases ih h with h | h | ⟨m', hm', h⟩
        · exact .inl (List.mem_cons_of_mem _ h)
        · exact .inr (.inl h)
        · exact .inr (.inr ⟨m', List.mem_cons_of_mem _ hm', h⟩)

end Upsert

section Firsts

variable [BEq κ]

theorem mem_of_mem_firstsFrom {key : α → κ} {a : α} (h : a ∈ firstsFrom key seen xs) : a ∈ xs := by
  induction xs generalizing seen with
  | nil => exact h
  | cons b xs ih =>
    rw [firstsFrom] at h
    split at h
    · exact List.mem_cons_of_mem _ (ih h)
    · rcases List.mem_cons.mp h with rfl | h
      · exact List.mem_cons_self
      · exact List.mem_cons_of_mem _ (ih h)

theorem firstsFrom_map {key : α → κ} {g : α → α} (hg : ∀ a, key (g a) = key a) (seen : List κ)
    (xs : List α) : firstsFrom key seen (xs.map g) = (firstsFrom key seen xs).map g := by
  induction xs generalizing seen with
  | nil => rfl
  | cons a xs ih =>
    rw [List.map_cons, firstsFrom, firstsFrom, hg]
    split
    · exact ih seen
    · rw [List.map_cons, ih]

variable [LawfulBEq κ]

theorem mem_map_firstsFrom {key : α → κ} :
    k ∈ (firstsFrom key seen xs).map key ↔ k ∈ xs.map key ∧ k ∉ seen := by
  induction xs generalizing seen with
  | nil => simp [firstsFrom]
  | cons a xs ih =>
    rw [firstsFrom]
    split
    · next hseen =>
      rw [ih]
      grind
    · next hfresh =>
      rw [List.map_cons, List.mem_cons, ih]
      grind

theorem mem_map_firsts {key : α → κ} : k ∈ (firsts key xs).map key ↔ k ∈ xs.map key := by
  simp [firsts, mem_map_firstsFrom]

theorem firsts_eq_nil_iff {key : α → κ} : firsts key xs = [] ↔ xs = [] := by
  cases xs with
  | nil => exact iff_of_true rfl rfl
  | cons a xs => simp [firsts, firstsFrom]

theorem nodup_map_firstsFrom (key : α → κ) (seen : List κ) (xs : List α) :
    ((firstsFrom key seen xs).map key).Nodup := by
  induction xs generalizing seen with
  | nil => exact List.nodup_nil
  | cons a xs ih =>
    rw [firstsFrom]
    split
    · exact ih seen
    · refine List.nodup_cons.mpr ⟨fun ha => ?_, ih _⟩
      exact (mem_map_firstsFrom.mp ha).2 List.mem_cons_self

theorem find?_firstsFrom {key : α → κ} (hk : k ∉ seen) (xs : List α) :
    (firstsFrom key seen xs).find? (key · == k) = xs.find? (key · == k) := by
  induction xs generalizing seen with
  | nil => rfl
  | cons a xs ih =>
    rw [firstsFrom]
    split
    · next hseen =>
      have hne : (key a == k) = false := by
        rw [beq_eq_false_iff_ne]
        rintro rfl
        exact hk (by simpa using hseen)
      rw [ih hk, List.find?_cons, hne]
    · by_cases ha : key a = k
      · simp [ha]
      · have hfresh : k ∉ key a :: seen := by simp [hk, Ne.symm ha]
        simp only [List.find?_cons, beq_eq_false_iff_ne.mpr ha, ih hfresh]

end Firsts

end Concord.Keyed
