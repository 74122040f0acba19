import Mathlib.Data.List.DropRight
import Concord.Literal.Template
import Concord.Proofs.Cuts
import Concord.Proofs.Greedy

/-! A template is put together from holes and single characters, whatever the expression is and
wherever it breaks off. Cutting it down to a path parts no hole. So the path templates of all
expressions are the texts of a normal form, and each text of that form is one. -/
namespace Concord.Literal

open Text

/-- What the next character of a literal does. -/
theorem inside_cons {q : Char} (hq : isQuote q = true) (d : Nat) (c : Char) (rest : List Char) :
    inside q d (c :: rest) =
      if c = '\\' then inside q d rest.tail
      else if c = '{' then (inside q (d + 1) rest).map fun t => (if d == 0 then hole else []) ++ t
      else if c = '$' ∧ q = '`' ∧ rest.head? = some '{' then inside q d rest
      else if 0 < d then inside q (if c = '}' then d - 1 else d) rest
      else if c = q then outside false true rest
      else if c = '%' ∧ rest.head?.any isVerb then (inside q d rest.tail).map (hole ++ ·)
      else (inside q d rest).map (c :: ·) := by
  have hpercent : q ≠ '%' := by
    rintro rfl
    cases hq
  rw [inside.eq_def]
  dsimp only
  by_cases hback : c = '\\'
  · cases rest <;> simp [hback, inside.eq_def q d []]
  by_cases hopen : c = '{'
  · simp [hopen]
  by_cases hdollar : c = '$' ∧ q = '`' ∧ rest.head? = some '{'
  · simp [hdollar]
  rw [if_neg (by simpa using hback), if_neg (by simpa [and_assoc] using hdollar),
    if_neg (by simpa using hopen), if_neg hback, if_neg hopen, if_neg hdollar]
  have hverb (hplain : ∀ v more, c = '%' → rest = v :: more → False) :
      ¬(c = '%' ∧ rest.head?.any isVerb) := by
    cases rest with
    | nil => simp
    | cons v rest => exact fun hc => hplain v rest hc.1 rfl
  rcases Nat.eq_zero_or_pos d with rfl | hd
  · rw [if_neg (by simp), if_neg (Nat.lt_irrefl 0)]
    split
    · next v rest _ =>
      rw [if_neg hpercent.symm]
      simp
    · next hplain =>
      rw [if_neg (hverb hplain)]
      simp
    · contradiction
  · by_cases hclose : c = '}'
    · simp [hclose, hd]
    · rw [if_neg (by simp [hclose]), if_pos hd, if_neg hclose]
      split
      · contradiction
      · contradiction
      · rfl

@[simp] theorem inside_nil (q : Char) (d : Nat) : inside q d [] = some [] := by rw [inside.eq_def]

theorem inside_quote {q : Char} (hq : isQuote q = true) (rest : List Char) :
    inside q 0 (q :: rest) = outside false true rest := by
  have hne : ∀ c ∈ ['\\', '{', '$'], q ≠ c := by
    rintro c hc rfl
    simp only [List.mem_cons, List.not_mem_nil, or_false] at hc
    rcases hc with rfl | rfl | rfl <;> cases hq
  rw [inside_cons hq, if_neg (hne _ (by simp)), if_neg (hne _ (by simp)),
    if_neg fun h => hne '$' (by simp) h.1, if_neg (Nat.lt_irrefl 0), if_pos rfl]

theorem outside_quote {q : Char} (hq : isQuote q = true) (seen : Bool) (rest : List Char) :
    outside false seen (q :: rest) = inside q 0 rest := by
  simp [outside, hq]

theorem inside_plain {q : Char} (hq : isQuote q = true) {t : List Char}
    (ht : ∀ c ∈ t, c ∉ ['\\', '{', '$', '%', q]) (rest : List Char) :
    inside q 0 (t ++ rest) = (inside q 0 rest).map (t ++ ·) := by
  induction t with
  | nil => simp
  | cons c t ih =>
    obtain ⟨hc, ht⟩ := List.forall_mem_cons.mp ht
    simp only [List.mem_cons, List.not_mem_nil, or_false, not_or] at hc
    simp [inside_cons hq, hc, ih ht, Function.comp_def]

/-- Texts that are put together from holes and from characters that are neither an opening brace nor a
backslash. -/
inductive Made : List Char → Prop
  | nil : Made []
  | hole {t : List Char} (ht : Made t) : Made (hole ++ t)
  | char {c : Char} {t : List Char} (hc : c ∉ ['{', '\\']) (ht : Made t) : Made (c :: t)

theorem Made.map {o : Option (List Char)} {f : List Char → List Char} (h : ∀ t ∈ o, Made t)
    (hf : ∀ t, Made t → Made (f t)) : ∀ t ∈ o.map f, Made t := by
  intro t ht
  obtain ⟨u, hu, rfl⟩ := Option.map_eq_some_iff.mp ht
  exact hf u (h u hu)

theorem made_holeIf (b : Bool) {t : List Char} (h : Made t) : Made ((if b then hole else []) ++ t) := by
  cases b with
  | false => exact h
  | true => exact .hole h

mutual

theorem made_outside (plus seen : Bool) (t : List Char) : ∀ r ∈ outside plus seen t, Made r := by
  cases t with
  | nil =>
    cases seen with
    | false => simp [outside]
    | true => simpa [outside] using made_holeIf plus .nil
  | cons c rest =>
    rw [outside]
    by_cases hc : isQuote c = true
    · rw [if_pos hc]
      exact Made.map (made_inside hc 0 rest) fun _ => made_holeIf plus
    · rw [if_neg hc]
      exact made_outside _ seen rest
termination_by t.length

theorem made_inside {q : Char} (hq : isQuote q = true) (d : Nat) (t : List Char) :
    ∀ r ∈ inside q d t, Made r := by
  cases t with
  | nil => simpa [inside.eq_def] using Made.nil
  | cons c rest =>
    rw [inside_cons hq]
    split
    · exact made_inside hq d rest.tail
    split
    · exact Made.map (made_inside hq (d + 1) rest) fun _ => made_holeIf _
    split
    · exact made_inside hq d rest
    split
    · exact made_inside hq _ rest
    split
    · exact made_outside false true rest
    split
    · exact Made.map (made_inside hq d rest.tail) fun _ => .hole
    · next hback hopen _ _ _ _ =>
      exact Made.map (made_inside hq d rest) fun _ => .char (by simp [hback, hopen])
termination_by t.length

end

/-- Every opening brace is closed at once. -/
def HolesClosed (t : List Char) : Prop := ∀ rest, '{' :: rest <:+ t → rest.head? = some '}'

namespace HolesClosed

variable {u v t : List Char}

theorem of_suffix (h : HolesClosed t) (hu : u <:+ t) : HolesClosed u :=
  fun rest hrest => h rest (hrest.trans hu)

theorem of_append (h : HolesClosed (u ++ v)) (hv : v.head? ≠ some '}') : HolesClosed u := by
  rintro rest ⟨before, rfl⟩
  have hnext := h (rest ++ v) ⟨before, by simp⟩
  cases rest with
  | nil => exact absurd hnext hv
  | cons c rest => simpa using hnext

theorem cons {c : Char} (hc : c ≠ '{') (h : HolesClosed t) : HolesClosed (c :: t) := by
  intro rest hrest
  rcases List.suffix_cons_iff.mp hrest with heq | hrest
  · exact absurd (List.cons.inj heq).1.symm hc
  · exact h rest hrest

theorem takeWhile {f : Char → Bool} (hf : f '}' = true) (h : HolesClosed t) :
    HolesClosed (t.takeWhile f) := by
  rw [← List.takeWhile_append_dropWhile (p := f) (l := t)] at h
  refine h.of_append fun hbrace => ?_
  have hnot := List.head?_dropWhile_not f t
  simp [hbrace, hf] at hnot

theorem rdropWhile {f : Char → Bool} (hf : f '}' = false) (h : HolesClosed t) :
    HolesClosed (t.rdropWhile f) := by
  rw [← List.rdropWhile_append_rtakeWhile (p := f) (l := t)] at h
  refine h.of_append fun hbrace => ?_
  have hholds := List.mem_rtakeWhile_imp (List.mem_of_mem_head? hbrace)
  simp [hf] at hholds

end HolesClosed

theorem Made.holesClosed {t : List Char} (h : Made t) : HolesClosed t := by
  induction h with
  | nil =>
    intro rest hrest
    simp at hrest
  | hole ht ih =>
    intro rest hrest
    rcases List.suffix_cons_iff.mp hrest with heq | hrest
    · simp [(List.cons.inj heq).2]
    · rcases List.suffix_cons_iff.mp hrest with heq | hrest
      · simp at heq
      · exact ih rest hrest
  | char hc ht ih => exact ih.cons fun h => hc (by simp [h])

theorem Made.not_mem {t : List Char} (h : Made t) : '\\' ∉ t := by
  induction h with
  | nil => simp
  | hole ht ih => simpa [Literal.hole] using ih
  | char hc ht ih =>
    simp only [List.mem_cons, List.not_mem_nil, or_false, not_or] at hc ⊢
    exact ⟨Ne.symm hc.2, ih⟩

theorem made_of_holesClosed (t : List Char) (h : HolesClosed t) (hback : '\\' ∉ t) : Made t := by
  match t with
  | [] => exact .nil
  | c :: rest =>
    have hrest : HolesClosed rest := h.of_suffix (List.suffix_cons c rest)
    simp only [List.mem_cons, not_or] at hback
    by_cases hc : c = '{'
    · subst hc
      obtain ⟨more, rfl⟩ : ∃ more, rest = '}' :: more :=
        List.head?_eq_some_iff.mp (h rest (List.suffix_refl _))
      have hmore : HolesClosed more := hrest.of_suffix (List.suffix_cons _ more)
      exact .hole (made_of_holesClosed more hmore fun hmem => hback.2 (List.mem_cons_of_mem _ hmem))
    · exact .char (by simp [hc, Ne.symm hback.1]) (made_of_holesClosed rest hrest hback.2)
termination_by t.length

/-- A path from its first slash on, up to a query or a fragment and without the slashes at its end. -/
theorem eq_of_rooted {path p : List Char}
    (h : (if path.contains '/' then
        some (dropTrailingSlashes ((path.dropWhile (· != '/')).takeWhile fun c => c != '?' && c != '#'))
      else none) = some p) :
    ∃ rest, '/' :: rest <:+ path ∧
      p = '/' :: (rest.takeWhile fun c => c != '?' && c != '#').rdropWhile (· == '/') := by
  by_cases hslash : path.contains '/' = true
  · have hne : path.dropWhile (· != '/') ≠ [] := by simpa using hslash
    obtain ⟨c, rest, hdrop⟩ := List.exists_cons_of_ne_nil hne
    obtain rfl : c = '/' := by simpa [hdrop] using List.head_dropWhile_not (· != '/') hne
    rw [if_pos hslash, hdrop] at h
    refine ⟨rest, hdrop ▸ List.dropWhile_suffix _, ?_⟩
    simpa [dropTrailingSlashes, dropEndWhile, List.rdropWhile] using h.symm
  · rw [if_neg hslash] at h
    cases h

/-- What a path consists of: a slash, and what follows it up to a query or a fragment without the slashes
at its end. -/
theorem urlPath?_eq_some {u p : List Char} (h : urlPath? u = some p) :
    ∃ rest, ('/' :: rest <:+ u ∨ rest = []) ∧
      p = '/' :: (rest.takeWhile fun c => c != '?' && c != '#').rdropWhile (· == '/') := by
  rw [urlPath?] at h
  cases hcut : cut? [':', '/', '/'] u with
  | none =>
    simp only [hcut] at h
    obtain ⟨rest, hrest, hp⟩ := eq_of_rooted h
    exact ⟨rest, .inl hrest, hp⟩
  | some parts =>
    obtain ⟨before, after⟩ := parts
    simp only [hcut] at h
    obtain ⟨rest, hrest, hp⟩ := eq_of_rooted h
    refine ⟨rest, ?_, hp⟩
    by_cases hslash : after.contains '/' = true
    · rw [if_pos hslash] at hrest
      have hafter : after <:+ u := by
        rw [eq_of_cut? hcut, ← List.append_assoc]
        exact List.suffix_append _ _
      exact .inl ((hrest.trans (List.dropWhile_suffix _)).trans hafter)
    · rw [if_neg hslash] at hrest
      right
      simpa [List.suffix_cons_iff] using hrest

/-- The normal form of path templates. -/
structure IsPathTemplate (p : List Char) : Prop where
  rooted : p.head? = some '/'
  query : '?' ∉ p
  fragment : '#' ∉ p
  tail : p.getLast? = some '/' → p = ['/']
  holes : HolesClosed p
  backslash : '\\' ∉ p

theorem isPathTemplate_of_urlPath? {u p : List Char} (hu : Made u) (h : urlPath? u = some p) :
    IsPathTemplate p := by
  obtain ⟨rest, hrest, rfl⟩ := urlPath?_eq_some h
  have hclosed : HolesClosed rest := by
    rcases hrest with hrest | rfl
    · exact hu.holesClosed.of_suffix ((List.suffix_cons _ _).trans hrest)
    · exact Made.nil.holesClosed
  have hback : '\\' ∉ rest := by
    rcases hrest with hrest | rfl
    · exact fun hmem => hu.not_mem (hrest.mem (List.mem_cons_of_mem _ hmem))
    · simp
  set kept := rest.takeWhile fun c => c != '?' && c != '#'
  have hmem : ∀ c ∈ '/' :: kept.rdropWhile (· == '/'), c ≠ '?' ∧ c ≠ '#' ∧ c ≠ '\\' := by
    intro c hc
    rcases List.mem_cons.mp hc with rfl | hc
    · decide
    · have hkept : c ∈ kept := (List.rdropWhile_prefix _ _).mem hc
      have hholds : c ≠ '?' ∧ c ≠ '#' := by simpa using List.mem_takeWhile_imp hkept
      exact ⟨hholds.1, hholds.2, fun h => hback (h ▸ (List.takeWhile_prefix _).mem hkept)⟩
  exact {
    rooted := rfl
    query := fun hc => (hmem _ hc).1 rfl
    fragment := fun hc => (hmem _ hc).2.1 rfl
    tail := by
      intro hlast
      by_cases hnil : kept.rdropWhile (· == '/') = []
      · rw [hnil]
      · have hnot := List.rdropWhile_last_not _ _ hnil
        rw [List.getLast?_cons_of_ne_nil hnil, List.getLast?_eq_some_getLast hnil] at hlast
        simp_all
    holes := ((hclosed.takeWhile (by decide)).rdropWhile (by decide)).cons (by decide)
    backslash := fun hc => (hmem _ hc).2.2 rfl }

theorem urlPath?_of_isPathTemplate {p : List Char} (h : IsPathTemplate p) :
    urlPath? ([':', '/', '/'] ++ p) = some p := by
  obtain ⟨rest, rfl⟩ := List.head?_eq_some_iff.mp h.rooted
  have hcut : cut? [':', '/', '/'] ([':', '/', '/'] ++ '/' :: rest) = some ([], '/' :: rest) := by
    simp [cut?, afterLead?]
  have htake : rest.takeWhile (fun c => c != '?' && c != '#') = rest := by
    rw [List.takeWhile_eq_self_iff]
    intro c hc
    have hquery : c ≠ '?' := fun hcq => h.query (hcq ▸ List.mem_cons_of_mem _ hc)
    have hfragment : c ≠ '#' := fun hcf => h.fragment (hcf ▸ List.mem_cons_of_mem _ hc)
    simp [hquery, hfragment]
  have hend : rest.rdropWhile (· == '/') = rest := by
    rw [List.rdropWhile_eq_self_iff]
    intro hne hlast
    have htail := h.tail
    rw [List.getLast?_cons_of_ne_nil hne, List.getLast?_eq_some_getLast hne] at htail
    simp_all
  rw [List.rdropWhile] at hend
  simp only [urlPath?, hcut]
  simp [htake, dropTrailingSlashes, dropEndWhile, hend]

theorem outside_single {c : Char} (hc : c ∉ ['{', '\\']) :
    ∃ q, isQuote q = true ∧
      ∀ rest, outside false true (q :: c :: q :: rest) = (outside false true rest).map (c :: ·) := by
  simp only [List.mem_cons, List.not_mem_nil, or_false, not_or] at hc
  have hquoted (q : Char) (hq : isQuote q = true) (hback : q ≠ '`') (hcq : c ≠ q)
      (hverb : isVerb q = false) (rest : List Char) :
      outside false true (q :: c :: q :: rest) = (outside false true rest).map (c :: ·) := by
    rw [outside_quote hq, inside_cons hq 0 c]
    simp [hc, hback, hcq, hverb, inside_quote hq]
  by_cases hdouble : c = '"'
  · exact ⟨'\'', rfl, hquoted '\'' rfl (by decide) (by simp [hdouble]) rfl⟩
  · exact ⟨'"', rfl, hquoted '"' rfl (by decide) hdouble rfl⟩

theorem last_quote (lead : List Char) {e : List Char} {q : Char} (hq : isQuote q = true)
    (he : ∀ c ∈ e.getLast?, isQuote c = true) : ∀ c ∈ (lead ++ q :: e).getLast?, isQuote c = true := by
  cases e with
  | nil => simp [hq]
  | cons d e => simpa [List.getLast?_append] using he

theorem exists_spelling {t : List Char} (h : Made t) :
    ∃ e, (∀ c ∈ e.getLast?, isQuote c = true) ∧
      ∀ rest, outside false true (e ++ rest) = (outside false true rest).map (t ++ ·) := by
  induction h with
  | nil => exact ⟨[], by simp, by simp⟩
  | @hole t ht ih =>
    obtain ⟨e, hlast, he⟩ := ih
    have hbraces (rest : List Char) : outside false true ('"' :: '{' :: '}' :: '"' :: rest) =
        (outside false true rest).map (Literal.hole ++ ·) := by
      rw [outside_quote rfl]
      simp [isQuote, inside_cons]
    refine ⟨'"' :: '{' :: '}' :: '"' :: e, last_quote ['"', '{', '}'] rfl hlast, ?_⟩
    intro rest
    simp [hbraces, he, Function.comp_def]
  | @char c t hc ht ih =>
    obtain ⟨e, hlast, he⟩ := ih
    obtain ⟨q, hq, hsingle⟩ := outside_single hc
    refine ⟨q :: c :: q :: e, last_quote [q, c] hq hlast, ?_⟩
    intro rest
    simp [hsingle, he, Function.comp_def]

theorem unwrapped_trim {q : Char} {e : List Char} (hq : isQuote q = true)
    (he : ∀ c ∈ (q :: e).getLast?, isQuote c = true) : unwrapped (trim (q :: e)) = q :: e := by
  have hquote (c : Char) (hc : isQuote c = true) : isBlank c = false ∧ c ≠ ')' := by
    simp only [isQuote, Bool.or_eq_true, beq_iff_eq] at hc
    rcases hc with (rfl | rfl) | rfl <;> decide
  have htrim : IsTrimmed (q :: e) := by
    refine ⟨by simp, ?_, fun c hc => (hquote c (he c hc)).1⟩
    simpa using (hquote q hq).1
  have hend : endsWith ")" (q :: e) = false := by
    rw [← Bool.not_eq_true, endsWith_iff]
    rintro ⟨lead, hlead⟩
    exact (hquote ')' (he ')' (by simp [← hlead]))).2 rfl
  rw [htrim.trim_self, unwrapped]
  cases wrapperCall.find? (q :: e) <;> simp [hend]

/-- The path templates of expressions are the texts in normal form: they start with a slash, have neither a
query nor a fragment, end with a slash only if they are nothing else, and all their braces are holes. -/
theorem templates_in_normal_form (p : List Char) :
    (∃ expr, pathTemplate? expr = some p) ↔ IsPathTemplate p := by
  constructor
  · rintro ⟨expr, h⟩
    obtain ⟨u, hu, hp⟩ := Option.bind_eq_some_iff.mp h
    exact isPathTemplate_of_urlPath? (made_outside _ _ _ u hu) hp
  · intro h
    obtain ⟨e, hlast, he⟩ := exists_spelling (made_of_holesClosed p h.holes h.backslash)
    refine ⟨'"' :: ([':', '/', '/'] ++ '"' :: e), ?_⟩
    have hread : unwrapped (trim ('"' :: ([':', '/', '/'] ++ '"' :: e))) =
        '"' :: ([':', '/', '/'] ++ '"' :: e) :=
      unwrapped_trim rfl (last_quote ['"', ':', '/', '/'] rfl hlast)
    have hwhole : outside false true e = some p := by simpa [outside] using he []
    rw [pathTemplate?, hread, outside_quote rfl, inside_plain rfl (by simp), inside_quote rfl, hwhole]
    exact urlPath?_of_isPathTemplate h

end Concord.Literal
