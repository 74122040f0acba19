import Mathlib.Data.Bool.AllAny
import Concord.Literal.Object
import Concord.Proofs.Greedy

/-! Digits with or without a fraction are a number, a text with a character that numbers do not have
is none, a text in quotes is a quoted literal, and a key in quotes names what stands between them.
-/
namespace Concord.Literal

open Text Pattern

variable {t : List Char}

/-- The digits of a number: one at least. -/
structure IsDigits (ds : List Char) : Prop where
  ne_nil : ds ≠ []
  ascii : ∀ c ∈ ds, isAsciiDigit c = true

/-- One of some marks, which may be there. -/
structure IsMark (marks mark : List Char) : Prop where
  single : mark.length ≤ 1
  mem : ∀ c ∈ mark, c ∈ marks

theorem toNat_of_isAsciiDigit {c : Char} (h : isAsciiDigit c = true) :
    48 ≤ c.toNat ∧ c.toNat ≤ 57 := by
  rw [isAsciiDigit, Bool.and_eq_true, decide_eq_true_iff, decide_eq_true_iff] at h
  exact h

theorem IsDigits.digit {ds : List Char} (h : IsDigits ds) : ∀ c ∈ ds, isDigit c = true := by
  intro c hc
  have hascii := h.ascii c hc
  have hrange := toNat_of_isAsciiDigit hascii
  rwa [isDigit, if_pos (by omega)]

theorem IsDigits.head_not_mem {ds : List Char} (h : IsDigits ds) {marks : List Char}
    (hmarks : ∀ c ∈ marks, isDigit c = false) (rest : List Char) :
    ∀ c ∈ (ds ++ rest).head?, c ∉ marks := by
  obtain ⟨d, ds, rfl⟩ := List.exists_cons_of_ne_nil h.ne_nil
  intro c hc hmem
  obtain rfl : d = c := by simpa using hc
  simpa [hmarks d hmem] using h.digit d List.mem_cons_self

theorem isIn_of_gains {p : Pattern}
    (h : Gains (run t.length p.labelled (place [] t) [] fun c ms => pure (c, ms)) (place t [], [])) :
    p.isIn t = true := by
  rw [isIn, find?_of_gains h, Option.isSome_some]

theorem gains_end {limit : Nat} {ms : Marks} :
    Gains (run limit textEnd (place t []) ms fun c ns => pure (c, ns)) (place t [], ms) :=
  gains_anchor rfl rfl

theorem gains_signed {limit label : Nat} {taken rest sign digits marks : List Char} {holds : Char → Bool}
    {ms : Marks} {k : Next} {r : Cursor × Marks} (hholds : ∀ c, holds c = true ↔ c ∈ marks)
    (hmarks : ∀ c ∈ marks, isDigit c = false) (hsign : IsMark marks sign) (hdigits : IsDigits digits)
    (hrest : ∀ c ∈ rest.head?, isDigit c = false) (hlimit : digits.length ≤ limit)
    (h : Gains (k (place (taken ++ sign ++ digits) rest) ms) r) :
    Gains (run limit (.alt (.one holds) .empty) (place taken (sign ++ (digits ++ rest))) ms fun c ns =>
      run limit (.seq digit (.star label true digit)) c ns k) r := by
  refine gains_opt_one hsign.single ?_ ?_ (gains_many1 hdigits.ne_nil hdigits.digit hrest hlimit h)
  · exact fun c hc => (hholds c).mpr (hsign.mem c hc)
  · intro _ c hc
    rw [← Bool.not_eq_true, hholds]
    exact hdigits.head_not_mem hmarks rest c hc

theorem isIn_integerLiteral {sign digits : List Char} (hsign : IsMark ['-'] sign)
    (hdigits : IsDigits digits) : integerLiteral.isIn (sign ++ digits) = true := by
  have hlimit : digits.length ≤ (sign ++ digits).length := by simp
  apply isIn_of_gains
  generalize (sign ++ digits).length = limit at hlimit
  refine gains_seq (gains_anchor rfl (gains_seq ?_))
  rw [← List.append_nil digits]
  refine gains_signed (by simp) (List.all_iff_forall_prop.mp (by decide)) hsign hdigits (by simp) hlimit ?_
  refine gains_seq (gains_opt_none (fails_one (by simp)) ?_)
  rw [List.append_nil]
  exact gains_end

/-- The exponent of a number, if there is one. -/
inductive IsExponent : List Char → Prop
  | none : IsExponent []
  | some {e : Char} {sign digits : List Char} (he : e ∈ ['e', 'E']) (hsign : IsMark ['-', '+'] sign)
      (hdigits : IsDigits digits) : IsExponent (e :: (sign ++ digits))

theorem isIn_numberLiteral {sign whole fraction exponent : List Char} (hsign : IsMark ['-'] sign)
    (hwhole : IsDigits whole) (hfraction : IsDigits fraction) (hexponent : IsExponent exponent) :
    numberLiteral.isIn (sign ++ (whole ++ '.' :: (fraction ++ exponent))) = true := by
  have hlimit : whole.length ≤ (sign ++ (whole ++ '.' :: (fraction ++ exponent))).length ∧
      fraction.length ≤ (sign ++ (whole ++ '.' :: (fraction ++ exponent))).length ∧
      exponent.length ≤ (sign ++ (whole ++ '.' :: (fraction ++ exponent))).length := by
    simp
    omega
  obtain ⟨hlimitWhole, hlimitFraction, hlimitExponent⟩ := hlimit
  apply isIn_of_gains
  generalize (sign ++ (whole ++ '.' :: (fraction ++ exponent))).length = limit at *
  refine gains_seq (gains_anchor rfl (gains_seq ?_))
  refine gains_signed (by simp) (List.all_iff_forall_prop.mp (by decide)) hsign hwhole
    (by simp; decide) hlimitWhole ?_
  refine gains_seq (gains_one (by rfl) (gains_seq ?_))
  refine gains_many1 hfraction.ne_nil hfraction.digit ?_ hlimitFraction (gains_seq ?_)
  · cases hexponent with
    | none => simp
    | @some e sign' digits he hsign' hdigits =>
      have hletters : ∀ c ∈ ['e', 'E'], isDigit c = false :=
        List.all_iff_forall_prop.mp (by decide)
      simpa using hletters e he
  · have htext : sign ++ (whole ++ '.' :: (fraction ++ exponent)) =
        [] ++ sign ++ whole ++ ['.'] ++ fraction ++ exponent := by simp
    rw [htext]
    cases hexponent with
    | none =>
      rw [List.append_nil]
      refine gains_opt_none (fails_seq (fails_one (by simp))) (gains_seq ?_)
      exact gains_opt_none (fails_one (by simp)) gains_end
    | @some e sign' digits he hsign' hdigits =>
      refine gains_orElse_left (gains_seq (gains_one (by simpa using he) (gains_seq ?_)))
      have hlimit : digits.length ≤ limit := by
        simp at hlimitExponent
        omega
      rw [← List.append_nil digits]
      refine gains_signed (by simp) (List.all_iff_forall_prop.mp (by decide)) hsign' hdigits (by simp)
        hlimit (gains_seq ?_)
      refine gains_opt_none (fails_one (by simp)) ?_
      have hend : [] ++ sign ++ whole ++ ['.'] ++ fraction ++ e :: (sign' ++ digits) =
          [] ++ sign ++ whole ++ ['.'] ++ fraction ++ [e] ++ sign' ++ digits := by simp
      rw [List.append_nil, hend]
      exact gains_end

def isIntegerChar (c : Char) : Bool := isDigit c || "-lL".toList.contains c

def isNumberChar (c : Char) : Bool := isDigit c || "-.eE+fFdD".toList.contains c

theorem isIntegerChar_of_isIn (h : integerLiteral.isIn t = true) : ∀ c ∈ t, isIntegerChar c = true := by
  refine forall_of_isIn (p := integerLiteral) rfl ?_ ?_ h
  · exact rfl
  · refine ⟨⟨fun c hc => ?_, trivial⟩, ⟨fun c hc => ?_, fun c hc => ?_⟩, ⟨fun c hc => ?_, trivial⟩,
      trivial⟩
    all_goals simp_all [isIntegerChar]

theorem isNumberChar_of_isIn (h : numberLiteral.isIn t = true) : ∀ c ∈ t, isNumberChar c = true := by
  refine forall_of_isIn (p := numberLiteral) rfl ?_ ?_ h
  · exact rfl
  · refine ⟨⟨fun c hc => ?_, trivial⟩, ⟨fun c hc => ?_, fun c hc => ?_⟩, fun c hc => ?_,
      ⟨fun c hc => ?_, fun c hc => ?_⟩,
      ⟨⟨fun c hc => ?_, ⟨fun c hc => ?_, trivial⟩, fun c hc => ?_, fun c hc => ?_⟩, trivial⟩,
      ⟨fun c hc => ?_, trivial⟩, trivial⟩
    all_goals simp_all [isNumberChar]
    all_goals grind

theorem isTrimmed_enclosed {q : Char} (hq : isQuote q = true) (t : List Char) :
    IsTrimmed (q :: (t ++ [q])) := by
  have hblank : isBlank q = false := by
    obtain (rfl | rfl) | rfl : (q = '"' ∨ q = '\'') ∨ q = '`' := by simpa [isQuote] using hq
    all_goals decide
  constructor
  · simp
  · simpa using hblank
  · rw [← List.cons_append, List.getLast?_append]
    simpa using hblank

theorem isTrimmed_quoted (t : List Char) : IsTrimmed ('"' :: (t ++ ['"'])) := isTrimmed_enclosed rfl t

theorem keyName?_quoted {key gap : List Char} (hne : key ≠ []) (hkey : '"' ∉ key)
    (hgap : ∀ c ∈ gap, isBlank c = true) :
    keyName? ('"' :: (key ++ '"' :: gap)) = some (String.ofList key) := by
  have htrim : trim ('"' :: (key ++ '"' :: gap)) = '"' :: (key ++ ['"']) := by
    simpa using (isTrimmed_quoted key).trim_eq (List.forall_mem_nil _) hgap
  have hlimit : key.length ≤ ('"' :: (key ++ ['"'])).length := by
    simp
    omega
  have hgains : Gains
      (run ('"' :: (key ++ ['"'])).length memberKey.labelled (place [] ('"' :: (key ++ ['"']))) []
        fun c ms => pure (c, ms))
      (place ('"' :: (key ++ ['"'])) [],
        [(1, place ['"'] (key ++ ['"']), place ('"' :: key) ['"'])]) := by
    generalize ('"' :: (key ++ ['"'])).length = limit at hlimit
    refine gains_seq (gains_anchor rfl (gains_seq (gains_orElse_left (gains_seq ?_))))
    refine gains_one (by rfl) (gains_seq ?_)
    refine gains_many1 hne (fun c hc => ?_) (by simp) hlimit ?_
    · have hmark : c ≠ '"' := fun h => hkey (h ▸ hc)
      simpa using hmark
    · refine gains_one (by rfl) (gains_seq ?_)
      refine gains_star (t := []) (by simp) (by simp) (by simp) ?_
      simpa [all] using gains_end
  rw [keyName?, htrim, find?_of_gains hgains]
  have hpart := partBetween_place ['"'] key ['"']
  simp only [Match.text?, Match.part?, matchBetween, List.map_cons, List.map_nil, List.find?_cons,
    beq_self_eq_true, Option.map_some, Option.bind_some, Option.some_or, List.cons_append,
    List.nil_append] at hpart ⊢
  rw [hpart]

theorem quoted?_enclosed {q : Char} (hq : q = '"' ∨ q = '\'') (ht : q ∉ t) :
    quoted? (q :: (t ++ [q])) = some t := by
  obtain ⟨c, rest, htail⟩ : ∃ c rest, t ++ [q] = c :: rest := List.exists_cons_of_ne_nil (by simp)
  have hquote : isQuote q = true := by simp [isQuote, hq]
  have hmark : dropMark (q :: (t ++ [q])) = q :: (t ++ [q]) := by
    rw [htail, dropMark, if_neg (by obtain rfl | rfl := hq <;> simp [isMark])]
  have hlast : (c :: rest).getLast? = some q := by rw [← htail, List.getLast?_concat]
  have hinner : (c :: rest).dropLast = t := by rw [← htail, List.dropLast_concat]
  rw [quoted?, (isTrimmed_enclosed hquote t).trim_self, hmark, htail]
  simp only [hlast, hinner]
  obtain rfl | rfl := hq <;> simp [isQuote, ht]

theorem quoted?_quoted (ht : '"' ∉ t) : quoted? ('"' :: (t ++ ['"'])) = some t :=
  quoted?_enclosed (.inl rfl) ht

theorem quoted?_eq_none_of_last (ht : IsTrimmed t) (h : ∀ c ∈ t.getLast?, isQuote c = false) :
    quoted? t = none := by
  have hmark : (dropMark t).getLast? = t.getLast? := by
    rcases t with _ | ⟨c, _ | ⟨q, rest⟩⟩
    · rfl
    · rfl
    · rw [dropMark]
      split
      · rw [List.getLast?_cons_cons]
      · rfl
  rw [quoted?, ht.trim_self]
  rw [← hmark] at h
  generalize dropMark t = u at h
  rcases u with _ | ⟨q, _ | ⟨c, rest⟩⟩
  · rfl
  · rfl
  · rw [List.getLast?_cons_cons] at h
    have hopen : (!isQuote q || (c :: rest).getLast? != some q) = true := by
      by_cases hlast : (c :: rest).getLast? = some q
      · simp [h q hlast]
      · simp [hlast]
    simp only [hopen, if_true]

theorem quoted?_eq_none (ht : IsTrimmed t) (h : ∀ c ∈ t, isQuote c = false) : quoted? t = none := by
  have hmark : dropMark t = t := by
    match t with
    | [] => rfl
    | [_] => rfl
    | c :: q :: rest =>
      have hq := h q (by simp)
      rw [dropMark, if_neg]
      simp_all [isQuote]
  rw [quoted?, ht.trim_self, hmark]
  match t with
  | [] => rfl
  | [_] => rfl
  | q :: c :: rest => simp [h q (by simp)]

theorem scalarShape_unquoted (ht : IsTrimmed t) (h : ∀ c ∈ t, isQuote c = false) (shape : Shape) :
    scalarShape t shape = if integerLiteral.isIn t then { shape with kind := .integer }
      else if numberLiteral.isIn t then { shape with kind := .number }
      else expressionShape t shape := by
  have hhead : t.head?.any isQuote = false := by
    cases t with
    | nil => rfl
    | cons c t => simpa using h c (by simp)
  have hstart (lead : String) (c : Char) (hc : c ∈ lead.toList) (hquote : isQuote c = true) :
      startsWith lead t = false := by
    rw [← Bool.not_eq_true, startsWith, List.isPrefixOf_iff_prefix]
    intro hlead
    simp [h c (hlead.mem hc)] at hquote
  rw [scalarShape, quoted?_eq_none ht h]
  simp [hhead, hstart "f\"" '"' (by decide) rfl, hstart "f'" '\'' (by decide) rfl]

end Concord.Literal
