import Concord.Proofs.TypeReaders

/-! In a union every alternative is read for itself, an absent one makes the type optional, and
parentheses keep a union inside a type apart. So this reader too takes a notation apart level by
level, and with the others it inverts the notation of each language. -/
namespace Concord.TypeScript

open Text Pattern Literal TypeExpr

variable {u : List Char} {us : List (List Char)} {name : String} {fuel : Nat}
  {read : List Char → TypeExpr}

theorem isIn_identifierPath (hname : isIdentifier name = true) :
    identifierPath.isIn name.toList = true := by
  have hword : IsWordy name.toList := .of_isIdentifier hname
  rw [isIdentifier, Bool.and_eq_true] at hname
  have hchars := hword.chars
  obtain ⟨c, n, hn⟩ := List.exists_cons_of_ne_nil hword.ne_nil
  rw [hn] at hname hchars ⊢
  have hfirst : (isAsciiLetter c || "_$".toList.contains c) = true := by
    have hc : isAsciiLetter c = true ∨ c = '_' := by simpa using hname.1
    obtain hc | rfl := hc
    · simp [hc]
    · simp
  have hrest : ∀ d ∈ n, (isWord d || "$".toList.contains d) = true := by
    intro d hd
    simp [isWord_of_isNameChar (hchars d (by simp [hd]))]
  have hlimit : n.length ≤ (c :: n).length := by simp
  apply isIn_of_gains
  generalize (c :: n).length = limit at hlimit
  refine gains_seq (gains_anchor rfl (gains_seq (gains_seq (gains_one hfirst ?_))))
  rw [← List.append_nil n]
  refine gains_star hrest (by simp) hlimit (gains_seq ?_)
  exact gains_star_none (fun _ => fails_seq (fails_one (by simp))) (by simpa [all] using gains_end)

theorem bareType_self (ht : IsTrimmed u) (hhead : ∀ c ∈ u.head?, isEdge c = true)
    (hlast : ∀ c ∈ u.getLast?, isEdge c = true) : bareType u = u := by
  have hend : dropEndWhile (fun c => c == ';' || c == ',') u = u := by
    apply dropEndWhile_self
    intro c hc
    have hedge := hlast c hc
    rw [← Bool.not_eq_true, Bool.or_eq_true, beq_iff_eq, beq_iff_eq]
    rintro (rfl | rfl)
    all_goals exact absurd hedge (by decide)
  rw [bareType, ht.trim_self, hend, ht.trim_self]
  split
  · exact absurd (hhead '|' rfl) (by decide)
  · exact absurd (hhead '&' rfl) (by decide)
  · rfl

theorem parts_unit (hu : IsUnit u) : bareType u = u ∧ typeList '|' u = [u] :=
  ⟨bareType_self hu.trimmed hu.head hu.last, typeList_single rfl (by decide) (hu.isPart rfl)⟩

theorem typeWithin_union (hus : ∀ u ∈ us, IsUnit u) (hmany : 1 < us.length) :
    typeWithin (fuel + 1) (union us) = unionType (typeWithin fuel) us := by
  have hne : ∀ u ∈ us, u ≠ [] := fun u hu => (hus u hu).ne_nil
  have hsome : us ≠ [] := by
    rintro rfl
    simp at hmany
  have hbare : bareType (union us) = union us := by
    apply bareType_self (isTrimmed_joined (fun u hu => (hus u hu).trimmed) hsome)
    · intro c hc
      obtain ⟨u, hu, hcu⟩ := head_joined hne c hc
      exact (hus u hu).head c hcu
    · intro c hc
      obtain ⟨u, hu, hcu⟩ := last_joined hne c hc
      exact (hus u hu).last c hcu
  have hblank : ∀ c ∈ [' '], c = ' ' := by simp
  have hlist : typeList '|' (union us) = us :=
    typeList_joined rfl (by decide) hblank fun u hu => (hus u hu).isPart rfl
  simp only [typeWithin, hbare, hlist, hmany, if_true]

theorem unionType_null (hus : ∀ u ∈ us, isNullish u = false) :
    unionType read (us ++ ["null".toList]) = .optional (unionType read us) := by
  have hpresent : us.filter (!isNullish ·) = us := by
    rw [List.filter_eq_self]
    intro u hu
    simp [hus u hu]
  have hall : (us ++ ["null".toList]).filter (!isNullish ·) = us := by
    have hnull : isNullish "null".toList = true := by decide
    rw [List.filter_append, hpresent, List.filter_cons_of_neg (by simp only [hnull]; decide),
      List.filter_nil, List.append_nil]
  simp only [unionType, hpresent, hall, List.length_append, List.length_singleton, Nat.lt_irrefl,
    Nat.lt_add_one, if_true, if_false]

theorem unionType_single (hpresent : isNullish u = false) (hquoted : quoted? u = none) :
    unionType read [u] = read u := by
  simp [unionType, hpresent, hquoted]

theorem chars_of_isNullish (h : isNullish u = true) : ∀ c ∈ u, isNameChar c = true := by
  have hwords : ∀ w ∈ ["null", "undefined", "void"], w.toList.all isNameChar = true :=
    List.all_iff_forall_prop.mp (by decide)
  have hmem : String.ofList u ∈ ["null", "undefined", "void"] := List.contains_iff_mem.mp h
  simpa using hwords _ hmem

theorem isNullish_eq_false {c : Char} (hlast : u.getLast? = some c) (hc : isNameChar c = false) :
    isNullish u = false := by
  rw [← Bool.not_eq_true]
  intro h
  simp [chars_of_isNullish h c (List.mem_of_mem_getLast? hlast)] at hc

theorem isNullish_applied (hname : isIdentifier name = true)
    (hspecial : isSpecial .typeScript name = false) : isNullish (applied .typeScript name us) = false := by
  rw [← Bool.not_eq_true]
  intro h
  have hlead := takeWhile_applied .typeScript us (.of_isIdentifier hname)
  rw [← List.append_nil (applied .typeScript name us),
    List.takeWhile_append_of_pos (chars_of_isNullish h), List.takeWhile_nil, List.append_nil] at hlead
  rw [isNullish, hlead, String.ofList_toList] at h
  simp_all [isSpecial]

theorem last_inQuotes (value : String) : (inQuotes value).getLast? = some '\'' := by
  rw [inQuotes, ← List.cons_append, List.getLast?_concat]

theorem isNullish_inQuotes (value : String) : isNullish (inQuotes value) = false :=
  isNullish_eq_false (last_inQuotes value) rfl

theorem unionType_literals {values : List String} (hsome : values ≠ [])
    (hvalues : ∀ v ∈ values, ∀ c ∈ v.toList, isQuote c = false) :
    unionType read (values.map inQuotes) = .literals values := by
  have hpresent : (values.map inQuotes).filter (!isNullish ·) = values.map inQuotes := by
    rw [List.filter_eq_self]
    intro u hu
    obtain ⟨v, -, rfl⟩ := List.mem_map.mp hu
    simp [isNullish_inQuotes]
  simp [unionType, hpresent, filterMap_quoted? hvalues, hsome, Function.comp_def]

theorem typeWithin_applied (hname : isIdentifier name = true) (hus : ∀ u ∈ us, IsPart ',' u)
    (harray : ["Array", "ReadonlyArray", "Set", "ReadonlySet"].contains name = false)
    (hwrapper : wrappers.contains name = false) :
    typeWithin (fuel + 1) (applied .typeScript name us) =
      (knownType? name).getD (.named name (us.map (typeWithin fuel))) := by
  have hword : IsWordy name.toList := .of_isIdentifier hname
  obtain ⟨hbare, hlist⟩ := parts_unit (isUnit_applied (l := .typeScript) hname hus)
  have hend : dropEnd? "[]" (applied .typeScript name us) = none :=
    dropEnd?_eq_none rfl (last_arguments_ne hword rfl (by decide))
  have hparen : ((applied .typeScript name us).head? == some '(') = false :=
    beq_false_of_ne (head_applied_ne hword rfl)
  have hgeneric : generic '<' '>' (applied .typeScript name us) = (name.toList, us) :=
    generic_arguments (IsUnit.of_isWordy hword).trimmed (hword.not_mem rfl) rfl hus
  simp only [typeWithin, hbare, hlist, hend, hparen, quoted?_applied hname hus, hgeneric,
    isIn_identifierPath hname, String.ofList_toList, harray, hwrapper, List.length_singleton,
    Nat.lt_irrefl, Bool.false_and, Bool.not_true, Bool.false_eq_true, if_false]
  cases knownType? name <;> rfl

theorem typeWithin_literals {values : List String} (h : Expressible .typeScript (.literals values)) :
    typeWithin (fuel + 1) (write .typeScript (.literals values)) = .literals values := by
  cases h with
  | literals _ hsome hvalues =>
  have htext : write .typeScript (.literals values) = union (values.map inQuotes) := by
    rw [write]
    rfl
  rw [htext]
  by_cases hmany : 1 < values.length
  · rw [typeWithin_union (isUnit_inQuotes hvalues) (by simpa using hmany),
      unionType_literals hsome hvalues]
  · obtain ⟨v, rfl⟩ : ∃ v, values = [v] := by
      have hpos := List.length_pos_iff.mpr hsome
      exact List.length_eq_one_iff.mp (by omega)
    have hquote : '\'' ∉ v.toList := not_mem_of_quoteFree (hvalues v (by simp))
    obtain ⟨hbare, hlist⟩ := parts_unit (IsUnit.inQuotes hquote)
    have hend : dropEnd? "[]" (inQuotes v) = none := dropEnd?_eq_none rfl (by rw [last_inQuotes]; decide)
    have hparen : ((inQuotes v).head? == some '(') = false := by simp [inQuotes]
    have hquoted : quoted? (inQuotes v) = some v.toList := quoted?_enclosed (.inr rfl) hquote
    have hsingle : union [inQuotes v] = inQuotes v := rfl
    rw [List.map_singleton, hsingle]
    simp only [typeWithin, hbare, hlist, hend, hparen, hquoted, List.length_singleton, Nat.lt_irrefl,
      Bool.false_and, Bool.false_eq_true, if_false, String.ofList_toList]

theorem last_inParens (u : List Char) : (inParens u).getLast? = some ')' := by
  rw [inParens, ← List.cons_append, List.getLast?_concat]

theorem present_of_last {c : Char} (hu : IsUnit u) (hlast : u.getLast? = some c)
    (hc : isClosing c = true) : isNullish u = false ∧ quoted? u = none := by
  have hmarks : ∀ d ∈ [')', ']', '}', '>'], isNameChar d = false ∧ isQuote d = false :=
    List.all_iff_forall_prop.mp (by decide)
  obtain ⟨hname, hquote⟩ := hmarks c (by simpa [isClosing, or_assoc] using hc)
  constructor
  · exact isNullish_eq_false hlast hname
  · apply quoted?_eq_none_of_last hu.trimmed
    intro d hd
    obtain rfl : c = d := by simpa [hlast] using hd
    exact hquote

/-- The alternatives of a type that is not optional are present, and their union is read as the type. -/
theorem unionType_alternatives {t : TypeExpr} (fuel : Nat) (h : Expressible .typeScript t)
    (hopt : t.isOptional = false) :
    (∀ u ∈ alternatives .typeScript t, isNullish u = false) ∧
      unionType (typeWithin (fuel + 1)) (alternatives .typeScript t) =
        typeWithin (fuel + 1) (write .typeScript t) := by
  have hsingle (hpresent : isNullish (write .typeScript t) = false ∧ quoted? (write .typeScript t) = none)
      (halts : alternatives .typeScript t = [write .typeScript t]) :
      (∀ u ∈ alternatives .typeScript t, isNullish u = false) ∧
        unionType (typeWithin (fuel + 1)) (alternatives .typeScript t) =
          typeWithin (fuel + 1) (write .typeScript t) := by
    rw [halts]
    exact ⟨by simpa using hpresent.1, unionType_single hpresent.1 hpresent.2⟩
  cases h with
  | string => exact hsingle (by decide) rfl
  | @array item hitem =>
    have hlast : (write .typeScript (.array item)).getLast? = some ']' := by
      rw [write]
      simp [arrayOf, List.getLast?_append]
    exact hsingle (present_of_last (isUnit_write (.array hitem) fun _ => rfl) hlast rfl) rfl
  | optional _ => simp [isOptional] at hopt
  | @named name args hname hspecial hargs =>
    refine hsingle ?_ rfl
    rw [write]
    exact ⟨isNullish_applied hname hspecial, quoted?_applied hname (isPart_writeAll hargs)⟩
  | @literals values hl hsome hvalues =>
    -- Here the union is not one alternative that is read again: both sides are the values.
    have halts : alternatives .typeScript (.literals values) = values.map inQuotes := by
      simp [alternatives]
    rw [halts, unionType_literals hsome hvalues, typeWithin_literals (.literals hl hsome hvalues)]
    refine ⟨fun u hu => ?_, rfl⟩
    obtain ⟨v, -, rfl⟩ := List.mem_map.mp hu
    exact isNullish_inQuotes v

theorem typeWithin_optional (fuel : Nat) {inner : TypeExpr} (hinner : Expressible .typeScript inner) :
    typeWithin (fuel + 2) (write .typeScript (.optional inner)) =
      .optional (typeWithin (fuel + 1)
        (enclosed .typeScript inner.isOptional (write .typeScript inner))) := by
  have hunits := isUnit_alternatives (Expressible.optional hinner)
  by_cases hopt : inner.isOptional = true
  · have halts : alternatives .typeScript (.optional inner) =
        [inParens (write .typeScript inner)] ++ ["null".toList] := by
      simp [alternatives, hopt]
    have hparens : enclosed .typeScript inner.isOptional (write .typeScript inner) =
        inParens (write .typeScript inner) := by
      simp [enclosed, hopt]
    obtain ⟨hpresent, hquoted⟩ :=
      present_of_last (.inParens (isPart_write hinner)) (last_inParens _) rfl
    rw [write_eq_union (.optional hinner), typeWithin_union hunits (by simp [halts]), halts,
      unionType_null (by simpa using hpresent), unionType_single hpresent hquoted, hparens]
  · have halts : alternatives .typeScript (.optional inner) =
        alternatives .typeScript inner ++ ["null".toList] := by
      simp [alternatives, hopt]
    have hplain : enclosed .typeScript inner.isOptional (write .typeScript inner) =
        write .typeScript inner := by
      simp [enclosed, hopt]
    have hsome := List.length_pos_iff.mpr (alternatives_ne_nil hinner)
    obtain ⟨hpresent, hunion⟩ := unionType_alternatives fuel hinner (by simpa using hopt)
    rw [write_eq_union (.optional hinner), typeWithin_union hunits (by simp [halts]; omega), halts,
      unionType_null hpresent, hunion, hplain]

theorem levelReader : LevelReader .typeScript typeWithin where
  string fuel := by
    have hname : isIdentifier "string" = true := by decide
    have htext : (stringWord .typeScript).toList = applied .typeScript "string" [] := by
      simp [applied, arguments, stringWord]
    rw [htext, typeWithin_applied hname (List.forall_mem_nil _) (by decide) (by decide)]
    rfl
  array fuel item hitem := by
    have hunit := isUnit_write (Expressible.array hitem) fun _ => rfl
    obtain ⟨hbare, hlist⟩ := parts_unit hunit
    have hend : dropEnd? "[]" (write .typeScript (.array item)) =
        some (enclosed .typeScript item.isUnion (write .typeScript item)) := by
      rw [dropEnd?_eq_some_iff, write]
      rfl
    simp only [typeWithin, hbare, hlist, hend, List.length_singleton, Nat.lt_irrefl, if_false]
  optional fuel _ hinner := typeWithin_optional fuel hinner
  named fuel name us hname hspecial hus := by
    simp only [isSpecial, Bool.or_eq_false_iff, Option.isSome_eq_false_iff, Option.isNone_iff_eq_none]
      at hspecial
    obtain ⟨⟨hknown, hwrapper⟩, hother⟩ := hspecial
    rw [typeWithin_applied hname hus (by simp_all) hwrapper, hknown]
    rfl
  literals fuel values h := typeWithin_literals h
  parens fuel t _ ht := by
    have hunit := IsUnit.inParens (isPart_write ht)
    obtain ⟨hbare, hlist⟩ := parts_unit hunit
    have hlast := last_inParens (write .typeScript t)
    have hend : dropEnd? "[]" (inParens (write .typeScript t)) = none :=
      dropEnd?_eq_none rfl (by rw [hlast]; decide)
    have hinside : ((inParens (write .typeScript t)).drop 1).dropLast = write .typeScript t := by
      simp [inParens]
    rw [typeWithin]
    simp only [hbare, hlist, hend, hlast, hinside, List.length_singleton, Nat.lt_irrefl, if_false]
    rfl

end Concord.TypeScript

namespace Concord.TypeExpr

/-- Every type that a language can express is read from its notation. -/
theorem types_read_from_notation {l : Language} {t : TypeExpr} (h : Expressible l t) :
    typeExpr l (String.ofList (write l t)) = t := by
  have hfuel := Nat.lt_succ_self (write l t).length
  cases l with
  | go =>
    simp only [typeExpr, Go.typeExpr, String.toList_ofList]
    exact Go.levelReader.read_write h hfuel
  | typeScript =>
    simp only [typeExpr, TypeScript.typeExpr, String.toList_ofList]
    exact TypeScript.levelReader.read_write h hfuel
  | python =>
    simp only [typeExpr, Python.typeExpr, String.toList_ofList]
    exact Python.levelReader.read_write h hfuel
  | java =>
    simp only [typeExpr, Java.typeExpr, String.toList_ofList]
    exact Java.levelReader.read_write h hfuel

def pageOfChoices : TypeExpr :=
  .named "Page" [.array (.optional (.literals ["a, b", "c | d>"])),
    .optional (.optional (.scalar .string))]

theorem page_of_choices_read :
    Expressible .typeScript pageOfChoices ∧
      typeExpr .typeScript "Page<('a, b' | 'c | d>' | null)[], (string | null) | null>" =
        pageOfChoices := by
  have hchoices : Expressible .typeScript (.literals ["a, b", "c | d>"]) := by
    refine .literals (.inl rfl) (by simp) (fun v hv => ?_)
    have hfree : ∀ w ∈ ["a, b", "c | d>"], w.toList.all (!Literal.isQuote ·) = true :=
      List.all_iff_forall_prop.mp (by decide)
    simpa using hfree v hv
  have hpage : Expressible .typeScript pageOfChoices := by
    apply Expressible.named (by decide) (by decide)
    intro t ht
    obtain rfl | rfl : t = _ ∨ t = _ := by simpa using ht
    · exact .array (.optional hchoices)
    · exact .optional (.optional .string)
  have htext : String.ofList (write .typeScript pageOfChoices) =
      "Page<('a, b' | 'c | d>' | null)[], (string | null) | null>" := by decide
  exact ⟨hpage, htext ▸ types_read_from_notation hpage⟩

end Concord.TypeExpr
