import Concord.Extraction
import Concord.Proofs.TypePieces

/-! The types that a language can express with strings, arrays, optional types, named types and
unions of literals, each in one notation. Outside brackets and quotes the notation has only the
characters of names, but for stars and for the bars of a union, so its parts can be told apart. -/
namespace Concord.TypeExpr

open Text Literal

def isNameChar (c : Char) : Bool := isAsciiAlphanumeric c || c == '_'

def isIdentifier (name : String) : Bool :=
  name.toList.head?.any (fun c => isAsciiLetter c || c == '_') && name.toList.all isNameChar

/-- The names with a meaning of their own in a language. -/
def isSpecial : Language → String → Bool
  | .go, name => (Go.knownType? name).isSome || ["byte", "map"].contains name
  | .java, name => (Java.knownType? name).isSome ||
      ["List", "ArrayList", "LinkedList", "Set", "HashSet", "TreeSet", "Collection", "Iterable", "Flux",
        "Optional", "Mono", "CompletableFuture", "ResponseEntity", "HttpEntity"].contains name
  | .python, name => (Python.knownType? name).isSome ||
      ["Optional", "Union", "Literal", "Annotated", "Required", "NotRequired", "ClassVar", "Final",
        "List", "list", "Sequence", "Set", "set", "FrozenSet", "frozenset", "Tuple", "tuple",
        "Iterable", "conlist"].contains name
  | .typeScript, name => (TypeScript.knownType? name).isSome || TypeScript.wrappers.contains name ||
      ["Array", "ReadonlyArray", "Set", "ReadonlySet", "null", "undefined", "void"].contains name

/-- The types that a language can express. -/
inductive Expressible (l : Language) : TypeExpr → Prop
  | string : Expressible l (.scalar .string)
  | array {item} (hitem : Expressible l item) : Expressible l (.array item)
  | optional {inner} (hinner : Expressible l inner) : Expressible l (.optional inner)
  | named {name args} (hname : isIdentifier name = true) (hspecial : isSpecial l name = false)
    (hargs : ∀ t ∈ args, Expressible l t) : Expressible l (.named name args)
  | literals {values} (hl : l = .typeScript ∨ l = .python) (hsome : values ≠ [])
    (hvalues : ∀ v ∈ values, ∀ c ∈ v.toList, isQuote c = false) : Expressible l (.literals values)

def isOptional : TypeExpr → Bool
  | .optional _ => true
  | _ => false

def isUnion : TypeExpr → Bool
  | .optional _ => true
  | .literals values => 1 < values.length
  | _ => false

def inParens (u : List Char) : List Char := '(' :: (u ++ [')'])

def inQuotes (value : String) : List Char := '\'' :: (value.toList ++ ['\''])

def stringWord : Language → String
  | .go | .typeScript => "string"
  | .java => "String"
  | .python => "str"

def applied (l : Language) (name : String) (args : List (List Char)) : List Char :=
  match l with
  | .go | .python => name.toList ++ arguments '[' ']' args
  | .java | .typeScript => name.toList ++ arguments '<' '>' args

def union (us : List (List Char)) : List Char := joinedBy [' ', '|', ' '] us

def arrayOf (l : Language) (item : List Char) : List Char :=
  match l with
  | .go => '[' :: ']' :: item
  | .java | .typeScript => item ++ ['[', ']']
  | .python => applied l "List" [item]

def optionalOf (l : Language) (inner : List Char) : List Char :=
  match l with
  | .go => '*' :: inner
  | .java | .python => applied l "Optional" [inner]
  | .typeScript => union [inner, "null".toList]

def literalsOf (l : Language) (values : List String) : List Char :=
  match l with
  | .python => applied l "Literal" (values.map inQuotes)
  | _ => union (values.map inQuotes)

/-- A part of a type, in parentheses if its bars would be read as those of the whole. -/
def enclosed (l : Language) (barred : Bool) (u : List Char) : List Char :=
  if l == .typeScript && barred then inParens u else u

mutual

def write (l : Language) : TypeExpr → List Char
  | .scalar _ => (stringWord l).toList
  | .array item => arrayOf l (enclosed l item.isUnion (write l item))
  | .optional inner => optionalOf l (enclosed l inner.isOptional (write l inner))
  | .named name args => applied l name (writeAll l args)
  | .literals values => literalsOf l values
  | _ => []

def writeAll (l : Language) : List TypeExpr → List (List Char)
  | [] => []
  | t :: ts => write l t :: writeAll l ts

end

theorem writeAll_eq_map (l : Language) (ts : List TypeExpr) : writeAll l ts = ts.map (write l) := by
  induction ts with
  | nil => rfl
  | cons t ts ih => rw [writeAll, ih, List.map_cons]

example : String.ofList (write .typeScript (.array (.optional (.named "Page" [.literals ["a", "b"]])))) =
    "(Page<'a' | 'b'> | null)[]" := by
  decide

theorem ne_of_isNameChar {c d : Char} (hc : isNameChar c = true) (hd : isNameChar d = false) : c ≠ d := by
  rintro rfl
  simp [hc] at hd

theorem toNat_of_isNameChar {c : Char} (hc : isNameChar c = true) : 48 ≤ c.toNat ∧ c.toNat ≤ 122 := by
  simp only [isNameChar, isAsciiAlphanumeric, isAsciiLetter, isAsciiLower, isAsciiUpper, isAsciiDigit,
    Bool.or_eq_true, Bool.and_eq_true, decide_eq_true_iff, beq_iff_eq] at hc
  obtain ((h | h) | h) | rfl := hc
  · have : 97 ≤ c.toNat ∧ c.toNat ≤ 122 := h
    omega
  · have : 65 ≤ c.toNat ∧ c.toNat ≤ 90 := h
    omega
  · have : 48 ≤ c.toNat ∧ c.toNat ≤ 57 := h
    omega
  · decide

theorem isPlain_of_isNameChar {c : Char} (hc : isNameChar c = true) : isPlain c = true :=
  isPlain_of hc (by decide)

theorem isBlank_of_isNameChar {c : Char} (hc : isNameChar c = true) : isBlank c = false := by
  have hrange := toNat_of_isNameChar hc
  simp [isBlank]
  omega

theorem isAlphanumeric_of_isNameChar {c : Char} (hc : isNameChar c = true) :
    (isAlphanumeric c || c == '_') = true := by
  have hrange := toNat_of_isNameChar hc
  rwa [isAlphanumeric, if_pos (by omega)]

theorem isWord_of_isNameChar {c : Char} (hc : isNameChar c = true) : isWord c = true := by
  have hrange := toNat_of_isNameChar hc
  rwa [isWord, if_pos (by omega)]

/-- A text of the characters of names. -/
structure IsWordy (n : List Char) : Prop where
  ne_nil : n ≠ []
  chars : ∀ c ∈ n, isNameChar c = true

namespace IsWordy

variable {n : List Char} {c : Char}

theorem of_isIdentifier {name : String} (h : isIdentifier name = true) : IsWordy name.toList := by
  rw [isIdentifier, Bool.and_eq_true] at h
  constructor
  · intro hnil
    simp [hnil] at h
  · exact List.all_eq_true.mp h.2

theorem not_mem (h : IsWordy n) (hc : isNameChar c = false) : c ∉ n := by
  intro hmem
  exact ne_of_isNameChar (h.chars c hmem) hc rfl

theorem head_ne (h : IsWordy n) (hc : isNameChar c = false) (rest : List Char) :
    (n ++ rest).head? ≠ some c := by
  obtain ⟨d, n, rfl⟩ := List.exists_cons_of_ne_nil h.ne_nil
  have hd := ne_of_isNameChar (h.chars d List.mem_cons_self) hc
  simpa using hd

theorem isQualified (h : IsWordy n) :
    (n.all fun c => isAlphanumeric c || c == '_' || c == '.') = true := by
  refine List.all_eq_true.mpr fun c hc => ?_
  simp [isAlphanumeric_of_isNameChar (h.chars c hc)]

end IsWordy

/-- The characters of a type outside brackets and quotes, if it is no union. -/
def isUnitChar (c : Char) : Bool := isNameChar c || c == '*'

/-- The text of a type or of an alternative of a union. -/
structure IsUnit (u : List Char) : Prop where
  ne_nil : u ≠ []
  balanced : Balanced isUnitChar u

def isEdge (c : Char) : Bool := isUnitChar c || isQuote c || isOpening c || isClosing c

theorem isBlank_of_isEdge {c : Char} (hc : isEdge c = true) : isBlank c = false := by
  by_cases hname : isNameChar c = true
  · exact isBlank_of_isNameChar hname
  · have hmark : c ∈ ['*', '"', '\'', '`', '(', '[', '{', '<', ')', ']', '}', '>'] := by
      simpa [isEdge, isUnitChar, hname, isQuote, isOpening, isClosing, or_assoc] using hc
    have hmarks : ∀ d ∈ ['*', '"', '\'', '`', '(', '[', '{', '<', ')', ']', '}', '>'],
        isBlank d = false :=
      List.all_iff_forall_prop.mp (by decide)
    exact hmarks c hmark

namespace IsUnit

variable {u w n : List Char} {us : List (List Char)}

theorem head (h : IsUnit u) : ∀ c ∈ u.head?, isEdge c = true := by
  intro c hc
  obtain hc | hc | hc := h.balanced.head c hc <;> simp [isEdge, hc]

theorem last (h : IsUnit u) : ∀ c ∈ u.getLast?, isEdge c = true := by
  intro c hc
  obtain hc | hc | hc := h.balanced.last c hc <;> simp [isEdge, hc]

theorem trimmed (h : IsUnit u) : IsTrimmed u :=
  ⟨h.ne_nil, fun c hc => isBlank_of_isEdge (h.head c hc), fun c hc => isBlank_of_isEdge (h.last c hc)⟩

theorem isPart (h : IsUnit u) {sep : Char} (hsep : isUnitChar sep = false) : IsPart sep u := by
  refine ⟨h.trimmed, h.balanced.mono fun c hc => ?_⟩
  rw [bne_iff_ne]
  rintro rfl
  simp [hc] at hsep

theorem of_isWordy (h : IsWordy n) : IsUnit n := by
  refine ⟨h.ne_nil, .of_plain fun c hc => ?_⟩
  have hchar := h.chars c hc
  exact ⟨isPlain_of_isNameChar hchar, by simp [isUnitChar, hchar]⟩

theorem arguments {a b : Char} (hn : IsWordy n) (ha : isOpening a = true) (hb : isClosing b = true)
    (hus : ∀ u ∈ us, IsPart ',' u) : IsUnit (n ++ arguments a b us) := by
  refine ⟨by simp [hn.ne_nil], (of_isWordy hn).balanced.append ?_⟩
  rw [Literal.arguments]
  split
  · exact .nil
  · have hglue : Balanced (fun _ => true) [',', ' '] :=
      .of_plain (by simp; decide)
    exact .of_bracketed ha hb (hglue.joined fun u hu => (hus u hu).balanced.mono fun _ _ => rfl)

theorem inParens (hw : IsPart ',' w) : IsUnit (inParens w) :=
  ⟨by simp [TypeExpr.inParens], .of_bracketed rfl rfl hw.balanced⟩

theorem inQuotes {value : String} (hvalue : '\'' ∉ value.toList) : IsUnit (inQuotes value) :=
  ⟨by simp [TypeExpr.inQuotes], .of_quoted rfl hvalue⟩

theorem brackets : Balanced isUnitChar ['[', ']'] := .bracketed rfl rfl .nil .nil

end IsUnit

def alternatives (l : Language) : TypeExpr → List (List Char)
  | .optional inner =>
    if l == .typeScript then
      (if inner.isOptional then [inParens (write l inner)] else alternatives l inner) ++ ["null".toList]
    else [write l (.optional inner)]
  | .literals values =>
    if l == .typeScript then values.map inQuotes else [write l (.literals values)]
  | t => [write l t]

theorem joinedBy_concat {glue v : List Char} {us : List (List Char)} (hsome : us ≠ []) :
    joinedBy glue (us ++ [v]) = joinedBy glue us ++ (glue ++ v) := by
  fun_induction joinedBy glue us with
  | case1 => exact absurd rfl hsome
  | case2 u => simp [joinedBy]
  | case3 u us hrest ih =>
    simp [joinedBy, ih hrest]

variable {l : Language} {t : TypeExpr}

theorem alternatives_ne_nil (h : Expressible l t) : alternatives l t ≠ [] := by
  cases h with
  | string => simp [alternatives]
  | array _ => simp [alternatives]
  | optional _ =>
    rw [alternatives]
    split <;> simp
  | named _ _ _ => simp [alternatives]
  | literals _ hsome _ =>
    rw [alternatives]
    split
    · simpa using hsome
    · simp

theorem write_eq_union (h : Expressible l t) : write l t = union (alternatives l t) := by
  induction h with
  | string => rfl
  | array _ _ => rfl
  | @optional inner hinner ih =>
    by_cases hl : l = .typeScript
    · subst hl
      by_cases hopt : inner.isOptional = true
      · simp [write, enclosed, optionalOf, alternatives, hopt]
      · have htext : write .typeScript (.optional inner) =
            union [write .typeScript inner, "null".toList] := by
          simp [write, enclosed, optionalOf, hopt]
        have halts : alternatives .typeScript (.optional inner) =
            alternatives .typeScript inner ++ ["null".toList] := by
          simp [alternatives, hopt]
        rw [htext, halts, ih]
        exact (joinedBy_concat (alternatives_ne_nil hinner)).symm
    · simp [alternatives, hl, union, joinedBy]
  | named _ _ _ _ => rfl
  | @literals values hl _ _ =>
    by_cases hl : l = .typeScript
    · subst hl
      simp [write, literalsOf, alternatives]
    · simp [alternatives, hl, union, joinedBy]

theorem alternatives_eq_single (h : Expressible l t) (hunion : l = .typeScript → t.isUnion = false) :
    alternatives l t = [write l t] := by
  cases h with
  | string => rfl
  | array _ => rfl
  | optional _ =>
    have hl : l ≠ .typeScript := fun hl => by simpa [isUnion] using hunion hl
    simp [alternatives, hl]
  | named _ _ _ => rfl
  | @literals values _ hsome _ =>
    by_cases hl : l = .typeScript
    · obtain ⟨v, rfl⟩ : ∃ v, values = [v] := by
        have hlen : values.length ≤ 1 := by simpa [isUnion] using hunion hl
        have hpos := List.length_pos_iff.mpr hsome
        exact List.length_eq_one_iff.mp (by omega)
      simp [alternatives, hl, write, literalsOf, union, joinedBy]
    · simp [alternatives, hl]

theorem isPart_write_of (h : Expressible l t) (hunits : ∀ u ∈ alternatives l t, IsUnit u) :
    IsPart ',' (write l t) := by
  have hglue : Balanced (· != ',') [' ', '|', ' '] := .of_plain (by simp; decide)
  rw [write_eq_union h]
  constructor
  · exact isTrimmed_joined (fun u hu => (hunits u hu).trimmed) (alternatives_ne_nil h)
  · exact hglue.joined fun u hu => ((hunits u hu).isPart rfl).balanced

theorem isUnit_applied {name : String} {us : List (List Char)} (hname : isIdentifier name = true)
    (hus : ∀ u ∈ us, IsPart ',' u) : IsUnit (applied l name us) := by
  cases l <;> exact .arguments (.of_isIdentifier hname) rfl rfl hus

theorem isUnit_arrayOf {u : List Char} (hu : IsUnit u) : IsUnit (arrayOf l u) := by
  have hword : isIdentifier "List" = true := by decide
  have hitem : ∀ w ∈ [u], IsPart ',' w := by simpa using hu.isPart rfl
  cases l with
  | go => exact ⟨by simp [arrayOf], .bracketed rfl rfl .nil hu.balanced⟩
  | typeScript => exact ⟨by simp [arrayOf], hu.balanced.append IsUnit.brackets⟩
  | python => exact isUnit_applied (l := .python) hword hitem
  | java => exact ⟨by simp [arrayOf], hu.balanced.append IsUnit.brackets⟩

theorem isUnit_optionalOf {u : List Char} (hl : l ≠ .typeScript) (hu : IsUnit u) :
    IsUnit (optionalOf l u) := by
  have hword : isIdentifier "Optional" = true := by decide
  have hinner : ∀ w ∈ [u], IsPart ',' w := by simpa using hu.isPart rfl
  cases l with
  | go => exact ⟨by simp [optionalOf], .plain rfl rfl hu.balanced⟩
  | typeScript => exact absurd rfl hl
  | python => exact isUnit_applied (l := .python) hword hinner
  | java => exact isUnit_applied (l := .java) hword hinner

theorem not_mem_of_quoteFree {value : String} (h : ∀ c ∈ value.toList, isQuote c = false) :
    '\'' ∉ value.toList := by
  intro hmem
  have := h _ hmem
  simp [isQuote] at this

theorem isUnit_inQuotes {values : List String}
    (hvalues : ∀ v ∈ values, ∀ c ∈ v.toList, isQuote c = false) :
    ∀ u ∈ values.map inQuotes, IsUnit u := by
  intro u hu
  obtain ⟨v, hv, rfl⟩ := List.mem_map.mp hu
  exact .inQuotes (not_mem_of_quoteFree (hvalues v hv))

theorem isUnit_alternatives (h : Expressible l t) : ∀ u ∈ alternatives l t, IsUnit u := by
  induction h with
  | string =>
    have hword : isIdentifier (stringWord l) = true := by cases l <;> decide
    simpa [alternatives, write] using IsUnit.of_isWordy (.of_isIdentifier hword)
  | @array item hitem ih =>
    suffices IsUnit (write l (.array item)) by simpa [alternatives] using this
    rw [write, enclosed]
    apply isUnit_arrayOf
    split
    · exact .inParens (isPart_write_of hitem ih)
    · next hparens =>
      have hunion : l = .typeScript → item.isUnion = false := by simpa using hparens
      simpa [alternatives_eq_single hitem hunion] using ih
  | @optional inner hinner ih =>
    rw [alternatives]
    split
    · have hnull : isIdentifier "null" = true := by decide
      refine List.forall_mem_append.mpr ⟨?_, by simpa using IsUnit.of_isWordy (.of_isIdentifier hnull)⟩
      split
      · simpa using IsUnit.inParens (isPart_write_of hinner ih)
      · exact ih
    · next hl =>
      have hl : l ≠ .typeScript := by simpa using hl
      have hsingle := alternatives_eq_single hinner fun h => absurd h hl
      have hunit : IsUnit (write l inner) := by simpa [hsingle] using ih
      simpa [write, enclosed, hl] using isUnit_optionalOf hl hunit
  | @named name args hname _ hargs ih =>
    suffices IsUnit (write l (.named name args)) by simpa [alternatives] using this
    rw [write, writeAll_eq_map]
    apply isUnit_applied hname
    intro u hu
    obtain ⟨t, ht, rfl⟩ := List.mem_map.mp hu
    exact isPart_write_of (hargs t ht) (ih t ht)
  | @literals values hl _ hvalues =>
    have hunits := isUnit_inQuotes hvalues
    obtain rfl | rfl := hl
    · simpa [alternatives] using hunits
    · have hword : isIdentifier "Literal" = true := by decide
      suffices IsUnit (applied .python "Literal" (values.map inQuotes)) by
        simpa [alternatives, write, literalsOf] using this
      exact isUnit_applied hword fun u hu => (hunits u hu).isPart rfl

theorem isPart_write (h : Expressible l t) : IsPart ',' (write l t) :=
  isPart_write_of h (isUnit_alternatives h)

theorem isUnit_write (h : Expressible l t) (hunion : l = .typeScript → t.isUnion = false) :
    IsUnit (write l t) := by
  simpa [alternatives_eq_single h hunion] using isUnit_alternatives h

end Concord.TypeExpr
