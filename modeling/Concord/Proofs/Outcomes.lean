import Mathlib.Data.List.Forall2
import Concord.Extraction

/-! A traversal fails exactly if one of its steps does, and an extraction exactly if the text cannot
be read or the declarations or boundaries of the source are refused. -/
namespace Concord

variable {α β ε : Type} {x : Except ε α} {f : α → Except ε β} {l : List α} {e : ε}

theorem bind_eq_ok {b : β} (h : x >>= f = .ok b) : ∃ a, x = .ok a ∧ f a = .ok b := by
  cases x with
  | error e => simp [bind, Except.bind] at h
  | ok a => exact ⟨a, rfl, h⟩

theorem throw_ne_ok {a : α} : (throw e : Except ε α) ≠ .ok a := by
  simp [throw, throwThe, MonadExceptOf.throw]

theorem mapM_eq_ok {r : List β} (h : l.mapM f = .ok r) : List.Forall₂ (fun a b => f a = .ok b) l r := by
  induction l generalizing r with
  | nil =>
    obtain rfl : [] = r := by simpa [pure, Except.pure] using h
    exact .nil
  | cons a l ih =>
    rw [List.mapM_cons] at h
    obtain ⟨b, hb, h⟩ := bind_eq_ok h
    obtain ⟨bs, hbs, h⟩ := bind_eq_ok h
    obtain rfl : b :: bs = r := by simpa [pure, Except.pure] using h
    exact .cons hb (ih hbs)

theorem option_mapM_eq_ok {a : Option α} {r : Option β} (h : a.mapM f = .ok r) :
    r.isSome = a.isSome ∧ ∀ b ∈ r, ∃ x ∈ a, f x = .ok b := by
  cases a with
  | none =>
    obtain rfl : none = r := Except.ok.inj h
    simp
  | some a =>
    obtain ⟨b, hb, h⟩ := bind_eq_ok h
    obtain rfl : some b = r := Except.ok.inj h
    simpa using hb

/-- What each step that ends well keeps holds after a fold that ends well. -/
theorem foldlM_invariant {f : β → α → Except ε β} {P : β → Prop}
    (hf : ∀ b, ∀ a ∈ l, ∀ c, P b → f b a = .ok c → P c) {b c : β} (hb : P b)
    (h : l.foldlM f b = .ok c) : P c := by
  induction l generalizing b with
  | nil =>
    obtain rfl : b = c := Except.ok.inj h
    exact hb
  | cons a l ih =>
    rw [List.foldlM_cons] at h
    obtain ⟨b', hb', h⟩ := bind_eq_ok h
    exact ih (fun b a ha => hf b a (List.mem_cons_of_mem _ ha)) (hf b a List.mem_cons_self b' hb hb') h

theorem forall_right_of_forall₂ {R : α → β → Prop} {P : β → Prop} {r : List β}
    (h : List.Forall₂ R l r) (hP : ∀ a b, R a b → P b) : ∀ b ∈ r, P b := by
  induction h with
  | nil => simp
  | cons hab _ ih => exact List.forall_mem_cons.mpr ⟨hP _ _ hab, ih⟩

theorem bind_error_iff (hf : ∀ a, ∃ b, f a = .ok b) :
    (∃ e, x >>= f = .error e) ↔ ∃ e, x = .error e := by
  cases x with
  | error e => simp [bind, Except.bind]
  | ok a =>
    obtain ⟨b, hb⟩ := hf a
    simp [bind, Except.bind, hb]

theorem mapM_error_iff (f : α → Except ε β) (l : List α) :
    (∃ e, l.mapM f = .error e) ↔ ∃ a ∈ l, ∃ e, f a = .error e := by
  induction l with
  | nil => simp [pure, Except.pure]
  | cons a l ih =>
    rw [List.mapM_cons]
    cases ha : f a with
    | error e => simp [ha, bind, Except.bind]
    | ok b =>
      cases hl : l.mapM f with
      | error e =>
        have := ih.mp ⟨e, hl⟩
        simpa [ha, bind, Except.bind] using this
      | ok bs =>
        have : ¬∃ a ∈ l, ∃ e, f a = .error e := fun h => by simpa [hl] using ih.mpr h
        simpa [ha, bind, Except.bind, pure, Except.pure] using this

/-- A fold fails exactly if a step does, where a step fails or not whatever came before. -/
theorem foldlM_error_iff {f : β → α → Except ε β} {Bad : α → Prop}
    (hf : ∀ b, ∀ a ∈ l, (∃ e, f b a = .error e) ↔ Bad a) (b : β) :
    (∃ e, l.foldlM f b = .error e) ↔ ∃ a ∈ l, Bad a := by
  induction l generalizing b with
  | nil => simp [pure, Except.pure]
  | cons a l ih =>
    have ha := hf b a List.mem_cons_self
    have hl := ih fun b a ha => hf b a (List.mem_cons_of_mem _ ha)
    rw [List.foldlM_cons]
    cases hstep : f b a with
    | error e =>
      rw [hstep] at ha
      have hbad : Bad a := ha.mp ⟨e, rfl⟩
      simp [bind, Except.bind, hbad]
    | ok b' =>
      rw [hstep] at ha
      have hgood : ¬Bad a := fun hbad => by simpa using ha.mpr hbad
      simpa [bind, Except.bind, hgood] using hl b'

theorem exists_ok_iff : (∃ a, x = .ok a) ↔ ¬∃ e, x = .error e := by
  cases x <;> simp

theorem isOk_iff : x.isOk = true ↔ ∃ a, x = .ok a := by
  cases x <;> simp [Except.isOk, Except.toBool]

theorem not_exists_throw_eq_ok : ¬∃ a, (throw e : Except ε α) = .ok a := by
  rintro ⟨a, h⟩
  exact throw_ne_ok h

theorem ite_throw_ok_iff {c : Prop} [Decidable c] :
    (∃ a, (if c then throw e else x) = .ok a) ↔ ¬c ∧ ∃ a, x = .ok a := by
  by_cases h : c
  · rw [if_pos h]
    exact iff_of_false not_exists_throw_eq_ok fun hrest => hrest.1 h
  · rw [if_neg h]
    exact (and_iff_right h).symm

theorem bind_ok_iff : (∃ b, x >>= f = .ok b) ↔ ∃ a, x = .ok a ∧ ∃ b, f a = .ok b := by
  cases x with
  | error e => simp [bind, Except.bind]
  | ok a => simp [bind, Except.bind]

@[simp] theorem exists_pure_eq_ok (a : α) : ∃ b, (pure a : Except ε α) = .ok b := ⟨a, rfl⟩

theorem bind_pure_ok_iff {f : α → β} : (∃ b, (x >>= fun a => pure (f a)) = .ok b) ↔ ∃ a, x = .ok a := by
  rw [bind_ok_iff]
  simp only [exists_pure_eq_ok, and_true]

theorem bind_ok_iff_and {P : Prop} (hf : ∀ a, (∃ b, f a = .ok b) ↔ P) :
    (∃ b, x >>= f = .ok b) ↔ (∃ a, x = .ok a) ∧ P := by
  rw [bind_ok_iff]
  simp only [hf, exists_and_right]

theorem mapM_ok_iff (f : α → Except ε β) (l : List α) :
    (∃ r, l.mapM f = .ok r) ↔ ∀ a ∈ l, ∃ b, f a = .ok b := by
  simp only [exists_ok_iff, mapM_error_iff]
  simp

theorem option_mapM_ok_iff (f : α → Except ε β) (a : Option α) :
    (∃ r, a.mapM f = .ok r) ↔ ∀ x ∈ a, ∃ b, f x = .ok b := by
  cases a with
  | none => exact iff_of_true ⟨none, rfl⟩ (by simp)
  | some a =>
    have hsome : (some a).mapM f = f a >>= fun b => .ok (some b) := rfl
    rw [hsome, bind_ok_iff]
    simp

/-- A fold ends well exactly if each step does, where a step does or not whatever came before. -/
theorem foldlM_ok_iff {f : β → α → Except ε β} {Good : α → Prop}
    (hf : ∀ b, ∀ a ∈ l, (∃ c, f b a = .ok c) ↔ Good a) (b : β) :
    (∃ c, l.foldlM f b = .ok c) ↔ ∀ a ∈ l, Good a := by
  have hbad : ∀ b, ∀ a ∈ l, (∃ e, f b a = .error e) ↔ ¬Good a := by
    intro b a ha
    rw [← hf b a ha, exists_ok_iff, not_not]
  rw [exists_ok_iff, foldlM_error_iff hbad]
  simp

theorem extraction_ok_iff (s : Source) (language : Language) (path : String) :
    (∃ file, s.extraction language path = .ok file) ↔
      (∃ types, s.declarations language = .ok types) ∧
        ∃ observations, s.observations (s.routines language) language = .ok observations := by
  unfold Source.extraction
  exact bind_ok_iff_and fun types => bind_pure_ok_iff

/-- An extraction gives a result or says why the text cannot be read, unless the declarations or the
boundaries of the source are refused. -/
theorem extract_settled_iff (language : Language) (path content : String) :
    ((∃ x, extract language path content = .ok x) ∨
        ∃ e, extract language path content = .error (.parse e)) ↔
      ∀ s, Source.read language.lexis path content = .ok s →
        (∃ types, s.declarations language = .ok types) ∧
          ∃ observations, s.observations (s.routines language) language = .ok observations := by
  unfold extract
  cases hread : Source.read language.lexis path content with
  | error e => simp
  | ok s =>
    simp only [Except.ok.injEq, forall_eq', ← extraction_ok_iff s language path]
    cases s.extraction language path <;> simp

end Concord
