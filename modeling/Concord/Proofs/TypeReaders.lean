import Concord.Proofs.TypeNotation

/-! A reader takes a notation apart one level at a time: it finds the array, the optional type or
the name with its arguments that the text was written from. A reader that does so inverts the
notation, and the readers of the languages without unions do. -/
namespace Concord.TypeExpr

open Text Literal

variable {l : Language} {t : TypeExpr} {fuel : Nat} {u n : List Char} {us : List (List Char)}
  {name : String}

theorem length_le_joinedBy {glue : List Char} (hu : u ∈ us) : u.length ≤ (joinedBy glue us).length := by
  fun_induction joinedBy glue us with
  | case1 => simp at hu
  | case2 w => simp_all
  | case3 w us _ ih =>
    obtain rfl | hu := List.mem_cons.mp hu
    · simp
    · have := ih hu
      simp
      omega

theorem length_lt_applied (l : Language) (name : String) (hu : u ∈ us) :
    u.length < (applied l name us).length := by
  have hne : us ≠ [] := List.ne_nil_of_mem hu
  have hjoined : u.length ≤ (joinedBy [',', ' '] us).length := length_le_joinedBy hu
  cases l <;> simp [applied, arguments, hne] <;> omega

theorem length_lt_arrayOf (l : Language) (u : List Char) : u.length < (arrayOf l u).length := by
  cases l with
  | go =>
    rw [arrayOf, List.length_cons, List.length_cons]
    omega
  | python => exact length_lt_applied .python "List" (by simp)
  | _ => simp [arrayOf]

theorem length_lt_optionalOf (l : Language) (u : List Char) : u.length < (optionalOf l u).length := by
  cases l with
  | go => simp [optionalOf]
  | typeScript => simp [optionalOf, union, joinedBy]
  | python => exact length_lt_applied .python "Optional" (by simp)
  | java => exact length_lt_applied .java "Optional" (by simp)

theorem takeWhile_applied (l : Language) (us : List (List Char)) (hname : IsWordy name.toList) :
    (applied l name us).takeWhile isNameChar = name.toList := by
  have hargs (a b : Char) (ha : isNameChar a = false) :
      (arguments a b us).takeWhile isNameChar = [] := by
    rw [arguments]
    split
    · rfl
    · rw [List.takeWhile_cons_of_neg (by simp [ha])]
  have htext (a b : Char) (ha : isNameChar a = false) :
      (name.toList ++ arguments a b us).takeWhile isNameChar = name.toList := by
    rw [List.takeWhile_append_of_pos hname.chars, hargs a b ha, List.append_nil]
  cases l <;> exact htext _ _ rfl

theorem head_applied_ne {c : Char} (hname : IsWordy name.toList) (hc : isNameChar c = false) :
    (applied l name us).head? ≠ some c := by
  cases l <;> exact hname.head_ne hc _

theorem last_arguments_ne {a b c : Char} (hn : IsWordy n) (hc : isNameChar c = false) (hb : c ≠ b) :
    (n ++ arguments a b us).getLast? ≠ some c := by
  intro hlast
  rw [arguments] at hlast
  split at hlast
  · rw [List.append_nil] at hlast
    exact hn.not_mem hc (List.mem_of_mem_getLast? hlast)
  · rw [← List.cons_append, ← List.append_assoc, List.getLast?_concat] at hlast
    exact hb (Option.some.inj hlast).symm

theorem quoted?_applied (hname : isIdentifier name = true) (hus : ∀ u ∈ us, IsPart ',' u) :
    quoted? (applied l name us) = none := by
  have hword : IsWordy name.toList := .of_isIdentifier hname
  apply quoted?_eq_none_of_last (isUnit_applied hname hus).trimmed
  intro c hc
  rw [← Bool.not_eq_true]
  intro hquote
  have hchar : isNameChar c = false := by
    rw [← Bool.not_eq_true]
    intro hchar
    simpa [isPlain, hquote] using isPlain_of_isNameChar hchar
  have hclosing (b : Char) (hb : isQuote b = false) : c ≠ b := by
    rintro rfl
    simp [hquote] at hb
  cases l <;> exact last_arguments_ne hword hchar (hclosing _ rfl) hc

theorem filterMap_quoted? {values : List String} (h : ∀ v ∈ values, ∀ c ∈ v.toList, isQuote c = false) :
    (values.map inQuotes).filterMap quoted? = values.map String.toList := by
  induction values with
  | nil => rfl
  | cons v values ih =>
    obtain ⟨hv, h⟩ := List.forall_mem_cons.mp h
    have hread : quoted? (inQuotes v) = some v.toList :=
      quoted?_enclosed (.inr rfl) (not_mem_of_quoteFree hv)
    simp [hread, ih h]

theorem isPart_writeAll {args : List TypeExpr} (h : ∀ t ∈ args, Expressible l t) :
    ∀ u ∈ writeAll l args, IsPart ',' u := by
  intro u hu
  rw [writeAll_eq_map] at hu
  obtain ⟨t, ht, rfl⟩ := List.mem_map.mp hu
  exact isPart_write (h t ht)

/-- A reader takes a notation apart level by level: it reads the parts of a type with one unit of fuel
less than the type. An optional type is given two units, since a union of literals in it is read at once
and not as a part. -/
structure LevelReader (l : Language) (read : Nat → List Char → TypeExpr) : Prop where
  string (fuel : Nat) : read (fuel + 1) (stringWord l).toList = .scalar .string
  array (fuel : Nat) {item : TypeExpr} (hitem : Expressible l item) :
    read (fuel + 1) (write l (.array item)) =
      .array (read fuel (enclosed l item.isUnion (write l item)))
  optional (fuel : Nat) {inner : TypeExpr} (hinner : Expressible l inner) :
    read (fuel + 2) (write l (.optional inner)) =
      .optional (read (fuel + 1) (enclosed l inner.isOptional (write l inner)))
  named (fuel : Nat) {name : String} {us : List (List Char)} (hname : isIdentifier name = true)
    (hspecial : isSpecial l name = false) (hus : ∀ u ∈ us, IsPart ',' u) :
    read (fuel + 1) (applied l name us) = .named name (us.map (read fuel))
  literals (fuel : Nat) {values : List String} (h : Expressible l (.literals values)) :
    read (fuel + 1) (write l (.literals values)) = .literals values
  parens (fuel : Nat) {t : TypeExpr} (hl : l = .typeScript) (ht : Expressible l t) :
    read (fuel + 1) (inParens (write l t)) = read fuel (write l t)

namespace LevelReader

variable {read : Nat → List Char → TypeExpr}

theorem read_enclosed (hread : LevelReader l read) (ht : Expressible l t)
    (h : ∀ fuel, (write l t).length < fuel → read fuel (write l t) = t) (barred : Bool)
    (hfuel : (enclosed l barred (write l t)).length < fuel) :
    read fuel (enclosed l barred (write l t)) = t := by
  rw [enclosed] at hfuel ⊢
  split at hfuel
  · next hbarred =>
    obtain ⟨hl, -⟩ : l = .typeScript ∧ barred = true := by simpa using hbarred
    simp [inParens] at hfuel
    obtain ⟨fuel, rfl⟩ : ∃ k, fuel = k + 1 := ⟨fuel - 1, by omega⟩
    rw [if_pos hbarred, hread.parens fuel hl ht]
    exact h fuel (by omega)
  · next hbarred =>
    rw [if_neg hbarred]
    exact h fuel hfuel

/-- A reader that takes a notation apart level by level reads every type from its notation. -/
theorem read_write (hread : LevelReader l read) (ht : Expressible l t)
    (hfuel : (write l t).length < fuel) : read fuel (write l t) = t := by
  induction ht generalizing fuel with
  | string =>
    obtain ⟨fuel, rfl⟩ : ∃ k, fuel = k + 1 := ⟨fuel - 1, by omega⟩
    exact hread.string fuel
  | @array item hitem ih =>
    obtain ⟨fuel, rfl⟩ : ∃ k, fuel = k + 1 := ⟨fuel - 1, by omega⟩
    rw [hread.array fuel hitem, hread.read_enclosed hitem fun k hk => ih hk]
    rw [write] at hfuel
    have := length_lt_arrayOf l (enclosed l item.isUnion (write l item))
    omega
  | @optional inner hinner ih =>
    rw [write] at hfuel
    have hinside := length_lt_optionalOf l (enclosed l inner.isOptional (write l inner))
    obtain ⟨fuel, rfl⟩ : ∃ k, fuel = k + 2 := ⟨fuel - 2, by omega⟩
    rw [hread.optional fuel hinner, hread.read_enclosed hinner fun k hk => ih hk]
    omega
  | @named name args hname hspecial hargs ih =>
    obtain ⟨fuel, rfl⟩ : ∃ k, fuel = k + 1 := ⟨fuel - 1, by omega⟩
    rw [write] at hfuel ⊢
    rw [hread.named fuel hname hspecial (isPart_writeAll hargs), writeAll_eq_map, List.map_map]
    rw [writeAll_eq_map] at hfuel
    have hread : args.map (read fuel ∘ write l) = args.map id := by
      apply List.map_congr_left
      intro t ht
      have hpart : write l t ∈ args.map (write l) := List.mem_map_of_mem ht
      have := length_lt_applied l name hpart
      exact ih t ht (by omega)
    rw [hread, List.map_id]
  | @literals values hl hsome hvalues =>
    obtain ⟨fuel, rfl⟩ : ∃ k, fuel = k + 1 := ⟨fuel - 1, by omega⟩
    exact hread.literals fuel (.literals hl hsome hvalues)

end LevelReader

end Concord.TypeExpr

namespace Concord.Go

open Text Literal TypeExpr

variable {t : TypeExpr} {u : List Char} {us : List (List Char)} {name : String}

theorem knownType?_eq_none (h : '[' ∈ name.toList) : knownType? name = none := by
  unfold knownType?
  split
  all_goals simp_all

theorem typeWithin_applied (fuel : Nat) (hname : isIdentifier name = true)
    (hspecial : isSpecial .go name = false) (hus : ∀ u ∈ us, IsPart ',' u) :
    typeWithin (fuel + 1) (applied .go name us) = .named name (us.map (typeWithin fuel)) := by
  have hword : IsWordy name.toList := .of_isIdentifier hname
  obtain ⟨hknown, -, hmap⟩ : knownType? name = none ∧ name ≠ "byte" ∧ name ≠ "map" := by
    simpa [isSpecial] using hspecial
  have htrim : trim (applied .go name us) = applied .go name us :=
    (isUnit_applied hname hus).trimmed.trim_self
  have hstar : dropStart? "*" (applied .go name us) = none :=
    dropStart?_eq_none rfl (head_applied_ne hword rfl)
  have hbytes : (applied .go name us == "[]byte".toList) = false := by
    rw [beq_eq_false_iff_ne]
    intro h
    exact head_applied_ne hword rfl (congrArg List.head? h)
  have hbrackets : dropStart? "[]" (applied .go name us) = none :=
    dropStart?_eq_none rfl (head_applied_ne hword rfl)
  have hkeyed : startsWith "map[" (applied .go name us) = false := by
    -- The name ends before the first bracket, so it would be the name of keyed collections.
    rw [← Bool.not_eq_true, startsWith, List.isPrefixOf_iff_prefix]
    rintro ⟨rest, hrest⟩
    have hlead := takeWhile_applied .go us hword
    rw [← hrest] at hlead
    exact hmap (String.toList_inj.mp hlead.symm)
  have hplain : knownType? (String.ofList (applied .go name us)) = none := by
    by_cases hnone : us = []
    · simpa [applied, arguments, hnone] using hknown
    · apply knownType?_eq_none
      simp [applied, arguments, hnone]
  have hgeneric : generic '[' ']' (applied .go name us) = (name.toList, us) :=
    generic_arguments (IsUnit.of_isWordy hword).trimmed (hword.not_mem rfl) rfl hus
  have hqualified : (isQualifiedName name.toList && !name.toList.isEmpty) = true := by
    simp [isQualifiedName, hword.isQualified, hword.ne_nil]
  simp only [typeWithin, htrim, hstar, hbytes, hbrackets, hkeyed, hplain, hgeneric, hqualified,
    String.ofList_toList, Bool.false_eq_true, if_false, if_true]

theorem write_ne_byte (h : Expressible .go t) : write .go t ≠ "byte".toList := by
  cases h with
  | string => decide
  | array _ => simp [write, arrayOf]
  | optional _ => simp [write, optionalOf]
  | @named name args hname hspecial _ =>
    intro hbyte
    have hlead := takeWhile_applied .go (writeAll .go args) (.of_isIdentifier hname)
    rw [write] at hbyte
    rw [hbyte] at hlead
    obtain rfl : name = "byte" := String.toList_inj.mp hlead.symm
    simp [isSpecial] at hspecial
  | literals hl _ _ => simp at hl

theorem levelReader : LevelReader .go typeWithin where
  string _ := rfl
  array fuel item hitem := by
    have htrim := (isUnit_write (.array hitem) (by simp)).trimmed.trim_self
    have hbytes : (write .go (.array item) == "[]byte".toList) = false := by
      simpa [write, arrayOf, enclosed] using write_ne_byte hitem
    have hbrackets : dropStart? "[]" (write .go (.array item)) =
        some (enclosed .go item.isUnion (write .go item)) := by
      rw [dropStart?_eq_some_iff, write]
      rfl
    have hstar : dropStart? "*" (write .go (.array item)) = none := by
      rw [write]
      rfl
    simp only [typeWithin, htrim, hstar, hbytes, hbrackets, Bool.false_eq_true, if_false]
  optional fuel inner hinner := by
    have htrim := (isUnit_write (.optional hinner) (by simp)).trimmed.trim_self
    have hstar : dropStart? "*" (write .go (.optional inner)) =
        some (enclosed .go inner.isOptional (write .go inner)) := by
      rw [dropStart?_eq_some_iff, write]
      rfl
    rw [typeWithin]
    simp only [htrim, hstar]
  named fuel _ _ := typeWithin_applied fuel
  literals _ _ h := by
    cases h with
    | literals hl _ _ => simp at hl
  parens _ _ hl _ := by simp at hl

end Concord.Go

namespace Concord.Java

open Text Literal TypeExpr

variable {t : TypeExpr} {u : List Char} {us : List (List Char)} {name : String}

theorem parts_applied (hname : isIdentifier name = true) (hus : ∀ u ∈ us, IsPart ',' u) :
    trim (applied .java name us) = applied .java name us ∧
      dropEnd? "[]" (applied .java name us) = none ∧
      generic '<' '>' (applied .java name us) = (name.toList, us) ∧ bare name.toList = name.toList := by
  have hword : IsWordy name.toList := .of_isIdentifier hname
  refine ⟨(isUnit_applied hname hus).trimmed.trim_self, ?_, ?_, ?_⟩
  · exact dropEnd?_eq_none rfl (last_arguments_ne hword rfl (by decide))
  · exact generic_arguments (IsUnit.of_isWordy hword).trimmed (hword.not_mem rfl) rfl hus
  · exact lastPiece_self fun c hc => beq_false_of_ne (ne_of_isNameChar (hword.chars c hc) rfl)

theorem levelReader : LevelReader .java typeWithin where
  string fuel := by
    have hname : isIdentifier "String" = true := by decide
    obtain ⟨htrim, hend, hgeneric, hbare⟩ := parts_applied hname (List.forall_mem_nil _)
    have htext : (stringWord .java).toList = applied .java "String" [] := by
      simp [applied, arguments, stringWord]
    rw [htext]
    simp only [typeWithin, htrim, hend, hgeneric, hbare, String.ofList_toList]
    rfl
  array fuel item hitem := by
    have htrim := (isUnit_write (.array hitem) (by simp)).trimmed.trim_self
    have hend : dropEnd? "[]" (write .java (.array item)) =
        some (enclosed .java item.isUnion (write .java item)) := by
      rw [dropEnd?_eq_some_iff, write]
      rfl
    simp only [typeWithin, htrim, hend]
  optional fuel inner hinner := by
    have hname : isIdentifier "Optional" = true := by decide
    have hpart : ∀ u ∈ [write .java inner], IsPart ',' u := by simpa using isPart_write hinner
    obtain ⟨htrim, hend, hgeneric, hbare⟩ := parts_applied hname hpart
    have htext : write .java (.optional inner) = applied .java "Optional" [write .java inner] := by
      rw [write]
      rfl
    rw [htext, typeWithin]
    simp only [htrim, hend, hgeneric, hbare, String.ofList_toList]
    rfl
  named fuel name us hname hspecial hus := by
    obtain ⟨htrim, hend, hgeneric, hbare⟩ := parts_applied hname hus
    have hchars := (IsWordy.of_isIdentifier hname).isQualified
    simp only [typeWithin, htrim, hend, hgeneric, hbare, String.ofList_toList]
    split
    all_goals simp_all [isSpecial]
  literals _ _ h := by
    cases h with
    | literals hl _ _ => simp at hl
  parens _ _ hl _ := by simp at hl

end Concord.Java

namespace Concord.Python

open Text Literal TypeExpr

variable {us : List (List Char)} {name : String}

theorem parts_applied (hname : isIdentifier name = true) (hus : ∀ u ∈ us, IsPart ',' u) :
    trim (applied .python name us) = applied .python name us ∧
      quoted? (applied .python name us) = none ∧
      typeList '|' (applied .python name us) = [applied .python name us] ∧
      generic '[' ']' (applied .python name us) = (name.toList, us) ∧
      bare name.toList = name.toList := by
  have hword : IsWordy name.toList := .of_isIdentifier hname
  have hunit : IsUnit (applied .python name us) := isUnit_applied hname hus
  refine ⟨hunit.trimmed.trim_self, ?_, ?_, ?_, ?_⟩
  · exact quoted?_applied hname hus
  · exact typeList_single rfl (by decide) (hunit.isPart rfl)
  · exact generic_arguments (IsUnit.of_isWordy hword).trimmed (hword.not_mem rfl) rfl hus
  · exact lastPiece_self fun c hc => beq_false_of_ne (ne_of_isNameChar (hword.chars c hc) rfl)

theorem levelReader : LevelReader .python typeWithin where
  string fuel := by
    have hname : isIdentifier "str" = true := by decide
    obtain ⟨htrim, hquoted, hlist, hgeneric, hbare⟩ := parts_applied hname (List.forall_mem_nil _)
    have htext : (stringWord .python).toList = applied .python "str" [] := by
      simp [applied, arguments, stringWord]
    rw [htext]
    simp only [typeWithin, htrim, hquoted, hlist, hgeneric, hbare, String.ofList_toList]
    rfl
  array fuel item hitem := by
    have hname : isIdentifier "List" = true := by decide
    have hpart : ∀ u ∈ [write .python item], IsPart ',' u := by simpa using isPart_write hitem
    obtain ⟨htrim, hquoted, hlist, hgeneric, hbare⟩ := parts_applied hname hpart
    have htext : write .python (.array item) = applied .python "List" [write .python item] := by
      rw [write]
      rfl
    rw [htext]
    simp only [typeWithin, htrim, hquoted, hlist, hgeneric, hbare, String.ofList_toList]
    rfl
  optional fuel inner hinner := by
    have hname : isIdentifier "Optional" = true := by decide
    have hpart : ∀ u ∈ [write .python inner], IsPart ',' u := by simpa using isPart_write hinner
    obtain ⟨htrim, hquoted, hlist, hgeneric, hbare⟩ := parts_applied hname hpart
    have htext : write .python (.optional inner) = applied .python "Optional" [write .python inner] := by
      rw [write]
      rfl
    rw [htext, typeWithin]
    simp only [htrim, hquoted, hlist, hgeneric, hbare, String.ofList_toList]
    rfl
  named fuel name us hname hspecial hus := by
    obtain ⟨htrim, hquoted, hlist, hgeneric, hbare⟩ := parts_applied hname hus
    have hchars := (IsWordy.of_isIdentifier hname).isQualified
    simp only [typeWithin, htrim, hquoted, hlist, hgeneric, hbare, String.ofList_toList]
    simp only [List.length_singleton, Nat.lt_irrefl, if_false]
    split
    all_goals simp_all [isSpecial]
  literals fuel values h := by
    cases h with
    | literals _ hsome hvalues =>
    have hname : isIdentifier "Literal" = true := by decide
    have hpart : ∀ u ∈ values.map inQuotes, IsPart ',' u :=
      fun u hu => (isUnit_inQuotes hvalues u hu).isPart rfl
    obtain ⟨htrim, hquoted, hlist, hgeneric, hbare⟩ := parts_applied hname hpart
    have htext : write .python (.literals values) = applied .python "Literal" (values.map inQuotes) := by
      rw [write]
      rfl
    rw [htext]
    simp only [typeWithin, htrim, hquoted, hlist, hgeneric, hbare, String.ofList_toList]
    simp [filterMap_quoted? hvalues, hsome, Function.comp_def]
  parens _ _ hl _ := by simp at hl

end Concord.Python
