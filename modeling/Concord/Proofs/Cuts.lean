import Concord.Text.Basic

/-! The parts that a text is cut into make it up, and a text is cut where it is put together from
parts in which the place of the cut does not occur. -/
namespace Concord.Text

variable {t rest : List Char} {before needle : List Char} {p : Char → Bool} {c : Char}
  {tail : String}

theorem afterLead?_eq_some_iff {lead : List Char} : afterLead? lead t = some rest ↔ t = lead ++ rest := by
  induction lead generalizing t with
  | nil => simp [afterLead?]
  | cons a lead ih =>
    cases t with
    | nil => simp [afterLead?]
    | cons b t =>
      by_cases hab : a = b
      · simp [afterLead?, hab, ih]
      · simp [afterLead?, hab, Ne.symm hab]

theorem afterLead?_eq_none_iff {lead : List Char} : afterLead? lead t = none ↔ ¬lead <+: t := by
  rw [Option.eq_none_iff_forall_ne_some]
  constructor
  · rintro h ⟨rest, hrest⟩
    exact h rest (afterLead?_eq_some_iff.mpr hrest.symm)
  · rintro h rest hrest
    exact h ⟨rest, (afterLead?_eq_some_iff.mp hrest).symm⟩

theorem dropStart?_eq_some_iff {lead : String} : dropStart? lead t = some rest ↔ t = lead.toList ++ rest :=
  afterLead?_eq_some_iff

theorem dropEnd?_eq_some_iff : dropEnd? tail t = some rest ↔ t = rest ++ tail.toList := by
  rw [dropEnd?, Option.map_eq_some_iff]
  constructor
  · rintro ⟨u, hu, rfl⟩
    have := congrArg List.reverse (afterLead?_eq_some_iff.mp hu)
    simpa using this
  · rintro rfl
    exact ⟨rest.reverse, afterLead?_eq_some_iff.mpr (by simp), by simp⟩

theorem dropStart?_eq_none {lead : String} (hlead : lead.toList.head? = some c) (h : t.head? ≠ some c) :
    dropStart? lead t = none := by
  cases hdrop : dropStart? lead t with
  | none => rfl
  | some rest =>
    rw [dropStart?_eq_some_iff.mp hdrop, List.head?_append, hlead, Option.some_or] at h
    exact absurd rfl h

theorem dropEnd?_eq_none (htail : tail.toList.getLast? = some c) (h : t.getLast? ≠ some c) :
    dropEnd? tail t = none := by
  cases hdrop : dropEnd? tail t with
  | none => rfl
  | some rest =>
    rw [dropEnd?_eq_some_iff.mp hdrop, List.getLast?_append, htail, Option.some_or] at h
    exact absurd rfl h

theorem endsWith_iff : endsWith tail t = true ↔ tail.toList <:+ t := by
  rw [endsWith, List.isPrefixOf_iff_prefix, List.reverse_prefix]

theorem eq_of_cut? (h : cut? needle t = some (before, rest)) : t = before ++ (needle ++ rest) := by
  induction t generalizing before with
  | nil =>
    cases needle with
    | nil =>
      obtain ⟨rfl, rfl⟩ : [] = before ∧ [] = rest := by simpa [cut?] using h
      rfl
    | cons a needle => simp [cut?] at h
  | cons c t ih =>
    rw [cut?] at h
    split at h
    · next hlead =>
      obtain ⟨rfl, rfl⟩ := Prod.mk.inj (Option.some.inj h)
      rw [List.nil_append]
      exact afterLead?_eq_some_iff.mp hlead
    · obtain ⟨⟨a, b⟩, hcut, heq⟩ := Option.map_eq_some_iff.mp h
      obtain ⟨rfl, rfl⟩ := Prod.mk.inj heq
      rw [ih hcut, List.cons_append]

theorem cut?_eq_none (hc : c ∈ needle) (h : c ∉ t) : cut? needle t = none := by
  cases hcut : cut? needle t with
  | none => rfl
  | some parts => exact absurd (eq_of_cut? hcut ▸ by simp [hc]) h

theorem cut?_eq_none_iff : cut? needle t = none ↔ ¬needle <:+: t := by
  induction t with
  | nil => simp [cut?]
  | cons c t ih =>
    rw [cut?, List.infix_cons_iff]
    cases hlead : afterLead? needle (c :: t) with
    | some rest =>
      have hfirst : needle <+: c :: t := ⟨rest, (afterLead?_eq_some_iff.mp hlead).symm⟩
      simp [hfirst]
    | none =>
      have hfirst : ¬needle <+: c :: t := afterLead?_eq_none_iff.mp hlead
      simp [hfirst, ih]

/-- A text is cut where the needle first occurs. -/
theorem cut?_first {needle t before rest before' rest' : List Char}
    (h : cut? needle t = some (before, rest)) (h' : t = before' ++ (needle ++ rest')) :
    before.length ≤ before'.length := by
  induction t generalizing before before' with
  | nil =>
    have hnil := (eq_of_cut? h).symm
    simp [(List.append_eq_nil_iff.mp hnil).1]
  | cons c t ih =>
    rw [cut?] at h
    split at h
    · obtain ⟨rfl, -⟩ := Prod.mk.inj (Option.some.inj h)
      exact Nat.zero_le _
    · next hlead =>
      obtain ⟨⟨before, rest⟩, hcut, heq⟩ := Option.map_eq_some_iff.mp h
      obtain ⟨rfl, rfl⟩ := Prod.mk.inj heq
      cases before' with
      | nil => exact absurd ⟨rest', h'.symm⟩ (afterLead?_eq_none_iff.mp hlead)
      | cons d before' => exact Nat.succ_le_succ (ih hcut (List.cons.inj h').2)

theorem prefix_of_prefix_append {mark : Char} (hmark : mark ∉ needle)
    (h : needle <+: before ++ mark :: rest) : needle <+: before := by
  rcases List.prefix_or_prefix_of_prefix h (List.prefix_append before _) with h | ⟨tail, rfl⟩
  · exact h
  · rw [List.prefix_append_right_inj] at h
    cases tail with
    | nil => simp
    | cons c tail =>
      obtain ⟨rfl, -⟩ := List.cons_prefix_cons.mp h
      simp at hmark

theorem cut?_append {mark : Char} (hbefore : ¬needle <:+: before) (hmark : mark ∉ needle) :
    cut? needle (before ++ mark :: rest) =
      (cut? needle rest).map fun p => (before ++ mark :: p.1, p.2) := by
  have hlead {t : List Char} (ht : ¬needle <:+: t) : afterLead? needle (t ++ mark :: rest) = none :=
    afterLead?_eq_none_iff.mpr fun h => ht (prefix_of_prefix_append hmark h).isInfix
  induction before with
  | nil =>
    have hnone := hlead hbefore
    rw [List.nil_append] at hnone ⊢
    rw [cut?, hnone]
    rfl
  | cons c before ih =>
    have hnone := hlead hbefore
    rw [List.cons_append] at hnone ⊢
    rw [cut?, hnone, ih fun h => hbefore (h.trans (List.suffix_cons c before).isInfix), Option.map_map]
    rfl

theorem cut?_lead (needle u : List Char) : cut? needle (needle ++ u) = some ([], u) := by
  have hlead : afterLead? needle (needle ++ u) = some u := afterLead?_eq_some_iff.mpr rfl
  cases ht : needle ++ u with
  | nil =>
    obtain ⟨rfl, rfl⟩ := List.append_eq_nil_iff.mp ht
    rfl
  | cons c t =>
    rw [ht] at hlead
    rw [cut?, hlead]

theorem cut?_of_cut? (h : cut? needle t = some (before, rest)) (u : List Char) :
    cut? needle (before ++ (needle ++ u)) = some (before, u) := by
  induction t generalizing before with
  | nil =>
    obtain ⟨rfl, -⟩ := List.append_eq_nil_iff.mp (eq_of_cut? h).symm
    exact cut?_lead needle u
  | cons c t ih =>
    have ht := eq_of_cut? h
    rw [cut?] at h
    split at h
    · obtain ⟨rfl, -⟩ := Prod.mk.inj (Option.some.inj h)
      exact cut?_lead needle u
    · next hlead =>
      obtain ⟨⟨before', rest'⟩, hcut, heq⟩ := Option.map_eq_some_iff.mp h
      obtain ⟨rfl, rfl⟩ := Prod.mk.inj heq
      have hnone : afterLead? needle (c :: (before' ++ (needle ++ u))) = none := by
        rw [afterLead?_eq_none_iff] at hlead ⊢
        intro hfirst
        have hshort : c :: before' ++ needle <+: c :: (before' ++ (needle ++ u)) := ⟨u, by simp⟩
        have hinner := List.prefix_of_prefix_length_le hfirst hshort (by simp; omega)
        exact hlead (hinner.trans ⟨rest', by simp [ht]⟩)
      rw [List.cons_append, cut?, hnone]
      simp [ih hcut]

theorem cutWhere?_append (hbefore : ∀ d ∈ before, p d = false) (hc : p c = true) :
    cutWhere? p (before ++ c :: rest) = some (before, rest) := by
  induction before with
  | nil => simp [cutWhere?, hc]
  | cons d before ih =>
    obtain ⟨hd, hbefore⟩ := List.forall_mem_cons.mp hbefore
    simp [cutWhere?, hd, ih hbefore]

theorem cutWhere?_eq_none (h : ∀ c ∈ t, p c = false) : cutWhere? p t = none := by
  induction t with
  | nil => rfl
  | cons c t ih =>
    obtain ⟨hc, ht⟩ := List.forall_mem_cons.mp h
    simp [cutWhere?, hc, ih ht]

theorem dropEndWhile_self (h : ∀ c ∈ t.getLast?, p c = false) : dropEndWhile p t = t := by
  rw [dropEndWhile]
  rw [← List.head?_reverse] at h
  cases hrev : t.reverse with
  | nil => simpa using hrev.symm
  | cons c rest =>
    rw [hrev] at h
    rw [List.dropWhile_cons_of_neg (by simp [h c rfl]), ← hrev, List.reverse_reverse]

theorem dropEndWhile_append_of_last {f : Char → Bool}
    (ht : ∀ c ∈ t.getLast?, f c = false) (u : List Char) :
    dropEndWhile f (t ++ u) = t ++ dropEndWhile f u := by
  have hself : (t.reverse.dropWhile f).reverse = t := dropEndWhile_self ht
  rw [dropEndWhile, List.reverse_append, List.dropWhile_append]
  split
  · next hall => rw [hself, dropEndWhile, List.isEmpty_iff.mp hall, List.reverse_nil, List.append_nil]
  · rw [List.reverse_append, List.reverse_reverse, dropEndWhile]

theorem splitWhere_ne_nil (p : Char → Bool) (t : List Char) : splitWhere p t ≠ [] := by
  cases t with
  | nil => simp [splitWhere]
  | cons c t =>
    rw [splitWhere]
    split
    · simp
    · split <;> simp

theorem splitWhere_self (h : ∀ c ∈ t, p c = false) : splitWhere p t = [t] := by
  induction t with
  | nil => rfl
  | cons c t ih =>
    obtain ⟨hc, ht⟩ := List.forall_mem_cons.mp h
    simp [splitWhere, hc, ih ht]

theorem lastPiece_self (h : ∀ c ∈ t, p c = false) : lastPiece p t = t := by
  rw [lastPiece, splitWhere_self h]
  rfl

theorem splitWhere_append_cons (hc : p c = true) (a b : List Char) :
    splitWhere p (a ++ c :: b) = splitWhere p a ++ splitWhere p b := by
  induction a with
  | nil => simp [splitWhere, hc]
  | cons d a ih =>
    by_cases hd : p d = true
    · simp [splitWhere, hd, ih]
    · obtain ⟨piece, pieces, ha⟩ := List.exists_cons_of_ne_nil (splitWhere_ne_nil p a)
      simp [splitWhere, hd, ih, ha]

theorem mem_of_mem_splitWhere {piece : List Char} (h : piece ∈ splitWhere p t) (hc : c ∈ piece) :
    c ∈ t ∧ p c = false := by
  induction t generalizing piece with
  | nil => simp_all [splitWhere]
  | cons d t ih =>
    obtain ⟨first, pieces, ht⟩ := List.exists_cons_of_ne_nil (splitWhere_ne_nil p t)
    by_cases hd : p d = true
    · rw [splitWhere, if_pos hd] at h
      rcases List.mem_cons.mp h with rfl | h
      · simp at hc
      · exact (ih h hc).imp_left (List.mem_cons_of_mem d)
    · rw [splitWhere, if_neg hd, ht] at h
      rcases List.mem_cons.mp h with rfl | h
      · rcases List.mem_cons.mp hc with rfl | hc
        · exact ⟨List.mem_cons_self, by simpa using hd⟩
        · exact (ih (by simp [ht]) hc).imp_left (List.mem_cons_of_mem d)
      · exact (ih (by simp [ht, h]) hc).imp_left (List.mem_cons_of_mem d)

end Concord.Text
