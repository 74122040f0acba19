import Concord.Proofs.JoinedText
import Concord.Proofs.ScalarTexts

/-! A value that is written as JSON, with double quotes and any blanks between its parts, is read
back as its shape: the members of an object in order, the first item of an array, and each scalar by
its kind. This holds at any depth and in every language, whatever stands inside the quotes. -/
namespace Concord

namespace Shape

mutual

/-- A shape without the places it was found at. -/
def unplaced : Shape → Shape
  | ⟨name, declaredName, typeName, kind, format, unit, range, enumValues, required, validated,
      children, items, _, confidence⟩ =>
    ⟨name, declaredName, typeName, kind, format, unit, range, enumValues, required, validated,
      unplacedMembers children, unplacedItem items, default, confidence⟩

def unplacedMembers : List Shape → List Shape
  | [] => []
  | c :: cs => c.unplaced :: unplacedMembers cs

def unplacedItem : Option Shape → Option Shape
  | none => none
  | some i => some i.unplaced

end

theorem unplacedItem_eq_map (i : Option Shape) : unplacedItem i = i.map unplaced := by cases i <;> rfl

theorem unplacedMembers_append (cs ds : List Shape) :
    unplacedMembers (cs ++ ds) = unplacedMembers cs ++ unplacedMembers ds := by
  induction cs with
  | nil => rfl
  | cons c cs ih => simp [unplacedMembers, ih]

def addMember (shape child : Shape) : Shape := { shape with children := shape.children ++ [child] }

theorem unplaced_addMember (shape child : Shape) :
    (shape.addMember child).unplaced = shape.unplaced.addMember child.unplaced := by
  cases shape
  simp [addMember, unplaced, unplacedMembers_append, unplacedMembers]

end Shape

namespace Literal

open Text Source

/-- A text that stands between double quotes as it is. -/
structure PlainText where
  chars : List Char
  plain : ∀ c ∈ chars, c ∉ ['"', '\\', '\n']

namespace PlainText

variable (t : PlainText)

def lexemes : List Lexeme := [.quoted t.chars]

theorem quote_not_mem : '"' ∉ t.chars := fun h => t.plain '"' h (by simp)

theorem isCore : IsCore t.lexemes where
  sound := by simpa [lexemes, Lexeme.Sound] using t.plain
  spaced := .singleton _
  trimmed := by
    intro _
    simpa [lexemes, Lexeme.chars] using isTrimmed_quoted t.chars
  level := level_quoted t.chars

end PlainText

theorem scalarShape_text (t : PlainText) (name : String) (origin : Origin) :
    scalarShape ('"' :: (t.chars ++ ['"'])) (Shape.plain name .unknown origin) =
      { Shape.plain name .string origin with enumValues := [String.ofList t.chars] } := by
  rw [scalarShape, quoted?_quoted t.quote_not_mem]
  rfl

/-- A character of a word: no quote, bracket, comma or blank and nothing that starts a comment. -/
def isInk (c : Char) : Bool := isFlat c && !isBlank c

structure IntegerText where
  sign : List Char
  digits : List Char
  isMark : IsMark ['-'] sign
  isDigits : IsDigits digits

structure DecimalText where
  sign : List Char
  whole : List Char
  fraction : List Char
  exponent : List Char
  isMark : IsMark ['-'] sign
  isWhole : IsDigits whole
  isFraction : IsDigits fraction
  isExponent : IsExponent exponent

inductive Word
  | integer (n : IntegerText)
  | decimal (n : DecimalText)
  | boolean (b : Bool)
  | null

namespace Word

def chars : Word → List Char
  | .integer n => n.sign ++ n.digits
  | .decimal n => n.sign ++ (n.whole ++ '.' :: (n.fraction ++ n.exponent))
  | .boolean true => ['t', 'r', 'u', 'e']
  | .boolean false => ['f', 'a', 'l', 's', 'e']
  | .null => ['n', 'u', 'l', 'l']

def lexemes (w : Word) : List Lexeme := signs w.chars

/-- The shape of a word: null says only that there may be no value. -/
def shape (name : String) (origin : Origin) : Word → Shape
  | .integer _ => Shape.plain name .integer origin
  | .decimal _ => Shape.plain name .number origin
  | .boolean _ => Shape.plain name .boolean origin
  | .null => { Shape.plain name .unknown origin with required := false, confidence := .inferred }

end Word

theorem isInk_of_isAsciiDigit {c : Char} (h : isAsciiDigit c = true) : isInk c = true := by
  have hrange := toNat_of_isAsciiDigit h
  have hmarks : ∀ d ∈ ['"', '\'', '`', '/', '#'] ++ ['(', '[', '{', ')', ']', '}', ','],
      isAsciiDigit d = false :=
    List.all_iff_forall_prop.mp (by decide)
  have hne : c ∉ ['"', '\'', '`', '/', '#'] ++ ['(', '[', '{', ')', ']', '}', ','] :=
    fun hc => by simp [hmarks c hc] at h
  rw [List.mem_append, not_or] at hne
  have hflat : isFlat c = true := isFlat_iff.mpr ⟨⟨by omega, hne.1⟩, hne.2⟩
  have hblank : isBlank c = false := by
    simp [isBlank]
    omega
  rw [isInk, hflat, hblank]
  rfl

theorem IsDigits.isInk {ds : List Char} (h : IsDigits ds) : ∀ c ∈ ds, isInk c = true :=
  fun c hc => isInk_of_isAsciiDigit (h.ascii c hc)

theorem IsMark.isInk {marks mark : List Char} (h : IsMark marks mark)
    (hmarks : ∀ c ∈ marks, isInk c = true) : ∀ c ∈ mark, Literal.isInk c = true :=
  fun c hc => hmarks c (h.mem c hc)

theorem isInk_sign {sign : List Char} (h : IsMark ['-'] sign) : ∀ c ∈ sign, isInk c = true :=
  h.isInk (List.all_iff_forall_prop.mp (by decide))

theorem IsExponent.isInk {t : List Char} (h : IsExponent t) : ∀ c ∈ t, isInk c = true := by
  cases h with
  | none => simp
  | @some e sign digits he hsign hdigits =>
    have hletters : ∀ c ∈ ['e', 'E'], Literal.isInk c = true :=
      List.all_iff_forall_prop.mp (by decide)
    refine List.forall_mem_cons.mpr ⟨hletters e he, List.forall_mem_append.mpr ⟨?_, hdigits.isInk⟩⟩
    exact hsign.isInk (List.all_iff_forall_prop.mp (by decide))

namespace Word

theorem chars_ne_nil (w : Word) : w.chars ≠ [] := by
  cases w with
  | integer n => simp [chars, n.isDigits.ne_nil]
  | decimal n => simp [chars]
  | boolean b => cases b <;> simp [chars]
  | null => simp [chars]

theorem isInk (w : Word) : ∀ c ∈ w.chars, Literal.isInk c = true := by
  cases w with
  | integer n => exact List.forall_mem_append.mpr ⟨isInk_sign n.isMark, n.isDigits.isInk⟩
  | decimal n =>
    refine List.forall_mem_append.mpr ⟨isInk_sign n.isMark,
      List.forall_mem_append.mpr ⟨n.isWhole.isInk, ?_⟩⟩
    refine List.forall_mem_cons.mpr ⟨by decide, ?_⟩
    exact List.forall_mem_append.mpr ⟨n.isFraction.isInk, n.isExponent.isInk⟩
  | boolean b => cases b <;> exact List.all_iff_forall_prop.mp (by decide)
  | null => exact List.all_iff_forall_prop.mp (by decide)

theorem isFlat (w : Word) : ∀ c ∈ w.chars, Source.isFlat c = true :=
  fun c hc => (Bool.and_eq_true_iff.mp (w.isInk c hc)).1

theorem isTrimmed (w : Word) : IsTrimmed w.chars where
  ne_nil := w.chars_ne_nil
  head c hc := by simpa using (Bool.and_eq_true_iff.mp (w.isInk c (List.mem_of_mem_head? hc))).2
  last c hc := by simpa using (Bool.and_eq_true_iff.mp (w.isInk c (List.mem_of_getLast? hc))).2

theorem isCore (w : Word) : IsCore w.lexemes where
  sound := sound_signs w.isFlat
  spaced := spaced_of_isSign (isSign_signs _)
  trimmed := by
    intro _
    rw [lexemes, spelling_signs]
    exact w.isTrimmed
  level := level_signs w.isFlat

theorem isQuote_eq_false (w : Word) : ∀ c ∈ w.chars, isQuote c = false := by
  intro c hc
  have hsound := (isFlat_iff.mp (w.isFlat c hc)).1.2
  simp only [List.mem_cons, List.not_mem_nil, or_false, not_or] at hsound
  simp [isQuote, hsound]

end Word

theorem scalarShape_word (w : Word) (name : String) (origin : Origin) :
    scalarShape w.chars (Shape.plain name .unknown origin) = w.shape name origin := by
  rw [scalarShape_unquoted w.isTrimmed w.isQuote_eq_false]
  have hinteger (c : Char) (hc : c ∈ w.chars) (hnot : isIntegerChar c = false) :
      integerLiteral.isIn w.chars ≠ true :=
    fun hin => by simp [isIntegerChar_of_isIn hin c hc] at hnot
  have hnumber (c : Char) (hc : c ∈ w.chars) (hnot : isNumberChar c = false) :
      numberLiteral.isIn w.chars ≠ true :=
    fun hin => by simp [isNumberChar_of_isIn hin c hc] at hnot
  cases w with
  | integer n =>
    rw [Word.chars, if_pos (isIn_integerLiteral n.isMark n.isDigits)]
    rfl
  | decimal n =>
    rw [if_neg (hinteger '.' (by simp [Word.chars]) (by decide)), Word.chars,
      if_pos (isIn_numberLiteral n.isMark n.isWhole n.isFraction n.isExponent)]
    rfl
  | boolean b =>
    cases b with
    | true =>
      rw [if_neg (hinteger 't' (by decide) (by decide)), if_neg (hnumber 't' (by decide) (by decide)),
        Word.chars, expressionShape, if_pos (by decide)]
      rfl
    | false =>
      rw [if_neg (hinteger 'a' (by decide) (by decide)), if_neg (hnumber 'a' (by decide) (by decide)),
        Word.chars, expressionShape, if_pos (by decide)]
      rfl
  | null =>
    rw [if_neg (hinteger 'n' (by decide) (by decide)), if_neg (hnumber 'n' (by decide) (by decide)),
      Word.chars, expressionShape, if_neg (by decide), if_pos (by decide)]
    rfl

/-- What stands before the value of a member: a key that is not empty, a colon and the blanks around
it. -/
structure Heading where
  key : PlainText
  key_ne_nil : key.chars ≠ []
  beforeColon : Blanks
  afterColon : Blanks

namespace Heading

def name (h : Heading) : String := String.ofList h.key.chars

def front (h : Heading) : List Lexeme := h.key.lexemes ++ h.beforeColon.lexemes

def lexemes (h : Heading) : List Lexeme := h.front ++ ([.sign ':'] ++ h.afterColon.lexemes)

def gap (h : Heading) : List Char := h.beforeColon.chars ++ ':' :: h.afterColon.chars

theorem lexemes_eq (h : Heading) : h.lexemes = h.key.lexemes ++ signs h.gap := by
  simp [lexemes, front, gap, signs, Blanks.lexemes]

theorem isFlat_gap (h : Heading) : ∀ c ∈ h.gap, isFlat c = true :=
  List.forall_mem_append.mpr ⟨h.beforeColon.isFlat,
    List.forall_mem_cons.mpr ⟨by decide, h.afterColon.isFlat⟩⟩

theorem spelling_front (h : Heading) :
    spelling h.front = '"' :: (h.key.chars ++ '"' :: h.beforeColon.chars) := by
  simp [front, PlainText.lexemes, Lexeme.chars]

theorem colon_not_mem_front (h : Heading) : ∀ b ∈ outline h.front, (b == Byte.colon) = false := by
  rw [front, outline_append]
  refine List.forall_mem_append.mpr ⟨fun b hb => ?_, fun b hb => ?_⟩
  · have hmarks : ∀ b ∈ [Byte.doubleQuote, Byte.newline, Byte.space], (b == Byte.colon) = false :=
      List.all_iff_forall_prop.mp (by decide)
    exact hmarks b (mem_outline_quoted hb)
  · have hmarks : ∀ c ∈ [' ', '\t', '\n', '\r'], (Byte.ofChar c == Byte.colon) = false :=
      List.all_iff_forall_prop.mp (by decide)
    rw [Blanks.lexemes, outline_signs] at hb
    obtain ⟨c, hc, rfl⟩ := List.mem_map.mp hb
    exact hmarks c (h.beforeColon.mem c hc)

end Heading

mutual

/-- A value as it is written, with the blanks between its parts. -/
inductive Written
  | text (t : PlainText)
  | word (w : Word)
  | array (items : Items)
  | object (members : Members)

/-- What stands in the brackets of an array. A comma may follow the last item. -/
inductive Items
  | blank (gap : Blanks)
  | last (before : Blanks) (item : Written) (after : Blanks)
  | more (before : Blanks) (item : Written) (after : Blanks) (rest : Items)

/-- What stands in the braces of an object. A comma may follow the last member. -/
inductive Members
  | blank (gap : Blanks)
  | last (before : Blanks) (heading : Heading) (value : Written) (after : Blanks)
  | more (before : Blanks) (heading : Heading) (value : Written) (after : Blanks) (rest : Members)

end

mutual

def Written.lexemes : Written → List Lexeme
  | .text t => t.lexemes
  | .word w => w.lexemes
  | .array items => .sign '[' :: (joined items.padded ++ [.sign ']'])
  | .object members => .sign '{' :: (joined members.padded ++ [.sign '}'])

def Items.padded : Items → List Padded
  | .blank gap => [⟨gap, [], .none⟩]
  | .last before item after => [⟨before, item.lexemes, after⟩]
  | .more before item after rest => ⟨before, item.lexemes, after⟩ :: rest.padded

def Members.padded : Members → List Padded
  | .blank gap => [⟨gap, [], .none⟩]
  | .last before heading value after => [⟨before, heading.lexemes ++ value.lexemes, after⟩]
  | .more before heading value after rest =>
    ⟨before, heading.lexemes ++ value.lexemes, after⟩ :: rest.padded

end

mutual

/-- The shape of a value under a name: an object has its members in order and an array the shape of its
first item. -/
def Written.shape (name : String) : Written → Shape
  | .text t => { Shape.plain name .string default with enumValues := [String.ofList t.chars] }
  | .word w => w.shape name default
  | .array items => { Shape.plain name .array default with items := items.shape? }
  | .object members => { Shape.plain name .object default with children := members.shapes }

def Items.shape? : Items → Option Shape
  | .blank _ => none
  | .last _ item _ => some (item.shape "[]")
  | .more _ item _ _ => some (item.shape "[]")

def Members.shapes : Members → List Shape
  | .blank _ => []
  | .last _ heading value _ => [value.shape heading.name]
  | .more _ heading value _ rest => value.shape heading.name :: rest.shapes

end

theorem Items.padded_ne_nil (items : Items) : items.padded ≠ [] := by
  cases items <;> simp [Items.padded]

theorem Members.padded_ne_nil (members : Members) : members.padded ≠ [] := by
  cases members <;> simp [Members.padded]

theorem Written.lexemes_ne_nil (v : Written) : v.lexemes ≠ [] := by
  cases v with
  | text t => simp [Written.lexemes, PlainText.lexemes]
  | word w => simp [Written.lexemes, Word.lexemes, signs, w.chars_ne_nil]
  | array items => simp [Written.lexemes]
  | object members => simp [Written.lexemes]

theorem Heading.isCore (heading : Heading) {v : Written} (h : IsCore v.lexemes) :
    IsCore (heading.lexemes ++ v.lexemes) := by
  have hgap : heading.gap ≠ [] := by simp [gap]
  rw [lexemes_eq, List.append_assoc]
  exact heading.key.isCore.append h
    (by simp [PlainText.lexemes]) v.lexemes_ne_nil heading.isFlat_gap hgap

mutual

theorem Written.isCore : (v : Written) → IsCore v.lexemes
  | .text t => t.isCore
  | .word w => w.isCore
  | .array items =>
    (isBody_joined items.isCore).isCore (by simp [Lexeme.Sound]) (by simp [Lexeme.Sound])
      (by decide) (by decide)
  | .object members =>
    (isBody_joined members.isCore).isCore (by simp [Lexeme.Sound]) (by simp [Lexeme.Sound])
      (by decide) (by decide)

theorem Items.isCore : (items : Items) → ∀ p ∈ items.padded, IsCore p.core
  | .blank gap => by simpa [Items.padded] using isCore_nil
  | .last before item after => by simpa [Items.padded] using item.isCore
  | .more before item after rest => by simpa [Items.padded] using ⟨item.isCore, rest.isCore⟩

theorem Members.isCore : (members : Members) → ∀ p ∈ members.padded, IsCore p.core
  | .blank gap => by simpa [Members.padded] using isCore_nil
  | .last before heading value after => by
    simpa [Members.padded] using heading.isCore value.isCore
  | .more before heading value after rest => by
    simpa [Members.padded] using ⟨heading.isCore value.isCore, rest.isCore⟩

end

theorem Written.isTrimmed (v : Written) : IsTrimmed (spelling v.lexemes) :=
  v.isCore.trimmed v.lexemes_ne_nil

variable {s : Source}

/-- The key and the value of a member: the first colon of its skeleton stands between them. -/
theorem entryAt_heading {heading : Heading} {ls : List Lexeme} {i : Nat}
    (h : Shows s i (heading.lexemes ++ ls)) :
    ∃ j, entryAt s ⟨i, i + extent (heading.lexemes ++ ls)⟩ =
        .member heading.name ⟨j, j + extent (heading.afterColon.lexemes ++ ls)⟩ ∧
      Shows s j (heading.afterColon.lexemes ++ ls) := by
  have hsplit : heading.lexemes ++ ls =
      heading.front ++ ([.sign ':'] ++ (heading.afterColon.lexemes ++ ls)) := by
    simp [Heading.lexemes]
  rw [hsplit] at h ⊢
  generalize heading.afterColon.lexemes ++ ls = rest at h ⊢
  have hextent : extent (heading.front ++ ([.sign ':'] ++ rest)) =
      extent heading.front + 1 + extent rest := by
    have hcolon : extent [.sign ':'] = 1 := by decide
    rw [extent_append, extent_append, hcolon]
    omega
  have hstart : startsWith "..." (spelling (heading.front ++ ([.sign ':'] ++ rest))) = false ∧
      startsWith "**" (spelling (heading.front ++ ([.sign ':'] ++ rest))) = false := by
    rw [spelling_append, heading.spelling_front]
    constructor <;> rfl
  have hindex : (outline (heading.front ++ ([.sign ':'] ++ rest))).findIdx? (· == Byte.colon) =
      some (extent heading.front) := by
    have hcolon : (outline ([.sign ':'] ++ rest)).findIdx? (· == Byte.colon) = some 0 := by
      rw [List.singleton_append, outline_cons, Lexeme.token, Token.skeleton, List.singleton_append,
        List.findIdx?_cons, if_pos (by decide)]
    rw [outline_append, List.findIdx?_append,
      List.findIdx?_eq_none_iff.mpr heading.colon_not_mem_front, hcolon,
      Option.none_or, Option.map_some, Nat.zero_add, length_outline h.left.sound]
  have hname : keyName? (s.slice i (i + extent heading.front)) = some heading.name := by
    rw [h.left.slice_eq, heading.spelling_front]
    exact keyName?_quoted heading.key_ne_nil heading.key.quote_not_mem heading.beforeColon.isBlank
  refine ⟨i + extent heading.front + 1, ?_, h.right.right⟩
  rw [entryAt, spanText, h.slice_eq, h.bare_eq, hindex]
  simp only [hstart, hname, hextent, Bool.or_self, Bool.false_eq_true, if_false]
  congr 2
  omega

section Kinds

variable {v : Written} {fuel i : Nat} {lead : Blanks} {name : String} {origin : Origin} {t : List Char}

theorem spanText_value (h : Shows s i (lead.lexemes ++ v.lexemes)) :
    s.spanText ⟨i, i + extent (lead.lexemes ++ v.lexemes)⟩ = lead.chars ++ spelling v.lexemes := by
  rw [← lead.spelling_lexemes, ← spelling_append]
  exact h.slice_eq

theorem takeWhile_value (lead : Blanks) (v : Written) :
    (lead.chars ++ spelling v.lexemes).takeWhile isBlank = lead.chars := by
  simpa using v.isTrimmed.takeWhile_eq lead.isBlank []

theorem valueShape_object (h : Shows s i (lead.lexemes ++ v.lexemes))
    (hv : spelling v.lexemes = '{' :: t) :
    valueShape s (fuel + 1) ⟨i, i + extent (lead.lexemes ++ v.lexemes)⟩ name origin =
      objectShape s fuel (i + byteSize lead.chars) name := by
  rw [valueShape]
  simp only [spanText_value h, v.isTrimmed.trim_append lead.isBlank, takeWhile_value]
  simp only [hv]

theorem valueShape_array (h : Shows s i (lead.lexemes ++ v.lexemes))
    (hv : spelling v.lexemes = '[' :: t) {close : Nat}
    (hclose : s.closing? (i + byteSize lead.chars) = some close) :
    valueShape s (fuel + 1) ⟨i, i + extent (lead.lexemes ++ v.lexemes)⟩ name origin =
      { Shape.plain name .array origin with
        items := (s.pieces (i + byteSize lead.chars + 1) close Byte.comma).head?.map fun item =>
          valueShape s fuel item "[]" origin } := by
  rw [valueShape]
  simp only [spanText_value h, v.isTrimmed.trim_append lead.isBlank, takeWhile_value]
  simp only [hv, hclose]
  cases s.pieces (i + byteSize lead.chars + 1) close Byte.comma <;> rfl

theorem valueShape_scalar (h : Shows s i (lead.lexemes ++ v.lexemes))
    (hv : ∀ c ∈ (spelling v.lexemes).head?, c ∉ ['{', '[']) :
    valueShape s (fuel + 1) ⟨i, i + extent (lead.lexemes ++ v.lexemes)⟩ name origin =
      scalarShape (spelling v.lexemes) (Shape.plain name .unknown origin) := by
  rw [valueShape]
  simp only [spanText_value h, v.isTrimmed.trim_append lead.isBlank]
  split
  · next t ht => simp [ht] at hv
  · next t ht => simp [ht] at hv
  · rfl

end Kinds

/-- A step of reading an object: one more entry. -/
def addEntry (s : Source) (fuel : Nat) (shape : Shape) (span : Span) : Shape :=
  let origin : Origin := ⟨s.place span.start, firstLine s span⟩
  match entryAt s span with
  | .spread => { shape with confidence := .inferred }
  | .keyless => shape
  | .shorthand key => { shape with children := shape.children ++ [Shape.obscure key origin] }
  | .member key value =>
    { shape with children := shape.children ++ [valueShape s fuel value key origin] }

theorem objectShape_closed {fuel opening close : Nat} (name : String)
    (hclose : s.closing? opening = some close) :
    objectShape s (fuel + 1) opening name =
      (s.pieces (opening + 1) close Byte.comma).foldl (addEntry s fuel)
        (Shape.plain name .object ⟨s.place opening, s.excerpt opening⟩) := by
  rw [objectShape, hclose]
  rfl

theorem foldl_addMember (shape : Shape) (cs : List Shape) :
    cs.foldl Shape.addMember shape = { shape with children := shape.children ++ cs } := by
  induction cs generalizing shape with
  | nil =>
    cases shape
    simp
  | cons c cs ih =>
    rw [List.foldl_cons, ih]
    simp [Shape.addMember]

/-- Wherever the value is written, its shape is read. -/
def Written.IsRead (s : Source) (fuel : Nat) (v : Written) : Prop :=
  ∀ (i : Nat) (lead : Blanks) (name : String) (origin : Origin),
    Shows s i (lead.lexemes ++ v.lexemes) →
    (valueShape s fuel ⟨i, i + extent (lead.lexemes ++ v.lexemes)⟩ name origin).unplaced = v.shape name

/-- Wherever the items are written, the shape of the first of them is read. -/
def Items.IsRead (s : Source) (fuel : Nat) (items : Items) : Prop :=
  ∀ (start : Nat) (origin : Origin), Shows s start (joined items.padded) →
    ((coreSpans start items.padded).head?.map fun span =>
      (valueShape s fuel span "[]" origin).unplaced) = items.shape?

/-- Wherever the members are written, their shapes are added in order. -/
def Members.IsRead (s : Source) (fuel : Nat) (members : Members) : Prop :=
  ∀ (start : Nat) (shape : Shape), Shows s start (joined members.padded) →
    ((coreSpans start members.padded).foldl (addEntry s fuel) shape).unplaced =
      members.shapes.foldl Shape.addMember shape.unplaced

section Steps

variable {fuel : Nat}

theorem isRead_text (t : PlainText) : (Written.text t).IsRead s (fuel + 1) := by
  intro i lead name origin h
  have htext : spelling (Written.text t).lexemes = '"' :: (t.chars ++ ['"']) := by
    simp [Written.lexemes, PlainText.lexemes, Lexeme.chars]
  rw [valueShape_scalar h (by simp [htext]), htext, scalarShape_text]
  rfl

theorem isRead_word (w : Word) : (Written.word w).IsRead s (fuel + 1) := by
  intro i lead name origin h
  have htext : spelling (Written.word w).lexemes = w.chars := spelling_signs _
  have hhead : ∀ c ∈ w.chars.head?, c ∉ ['{', '['] := by
    intro c hc hmem
    have hmarks : ∀ c ∈ ['{', '['], isFlat c = false :=
      List.all_iff_forall_prop.mp (by decide)
    simpa [hmarks c hmem] using w.isFlat c (List.mem_of_mem_head? hc)
  rw [valueShape_scalar h (by rwa [htext]), htext, scalarShape_word]
  cases w <;> rfl

theorem isRead_array {items : Items} (hitems : items.IsRead s fuel) :
    (Written.array items).IsRead s (fuel + 1) := by
  intro i lead name origin h
  have harray : Shows s (i + byteSize lead.chars)
      ([.sign '['] ++ (joined items.padded ++ [.sign ']'])) := by
    rw [← lead.extent_lexemes]
    exact h.right
  have hbody : Shows s (i + byteSize lead.chars + 1) (joined items.padded) := harray.right.left
  have hclose := harray.closing?_eq (by decide) (isBody_joined items.isCore).nested
  rw [valueShape_array h rfl hclose, pieces_joined items.padded_ne_nil hbody items.isCore]
  simp only [Shape.unplaced, Shape.plain, Written.shape, Shape.unplacedItem_eq_map, Option.map_map]
  rw [← hitems _ origin hbody]
  rfl

theorem unplaced_objectShape {members : Members} (hmembers : members.IsRead s fuel) {i : Nat}
    (name : String) (h : Shows s i (Written.object members).lexemes) :
    (objectShape s (fuel + 1) i name).unplaced = (Written.object members).shape name := by
  have hobject : Shows s i ([.sign '{'] ++ (joined members.padded ++ [.sign '}'])) := h
  have hbody : Shows s (i + 1) (joined members.padded) := hobject.right.left
  have hclose := hobject.closing?_eq (by decide) (isBody_joined members.isCore).nested
  rw [objectShape_closed name hclose, pieces_joined members.padded_ne_nil hbody members.isCore,
    hmembers _ _ hbody, foldl_addMember]
  rfl

theorem isRead_object {members : Members} (hmembers : members.IsRead s fuel) :
    (Written.object members).IsRead s (fuel + 2) := by
  intro i lead name origin h
  rw [valueShape_object h rfl]
  refine unplaced_objectShape hmembers name ?_
  rw [← lead.extent_lexemes]
  exact h.right

theorem isRead_item {item : Written} (hitem : item.IsRead s fuel) {before after : Blanks} {start : Nat}
    (origin : Origin) (h : Shows s start (Padded.lexemes ⟨before, item.lexemes, after⟩))
    (spans : List Span) :
    (((Padded.span? ⟨before, item.lexemes, after⟩ start).toList ++ spans).head?.map fun span =>
      (valueShape s fuel span "[]" origin).unplaced) = some (item.shape "[]") := by
  rw [Padded.span?_eq item.lexemes_ne_nil]
  exact congrArg some (hitem _ .none "[]" origin h.core)

theorem isRead_member {value : Written} (hvalue : value.IsRead s fuel) {before after : Blanks}
    {heading : Heading} {start : Nat} (shape : Shape)
    (h : Shows s start (Padded.lexemes ⟨before, heading.lexemes ++ value.lexemes, after⟩)) :
    ∃ span, Padded.span? ⟨before, heading.lexemes ++ value.lexemes, after⟩ start = some span ∧
      (addEntry s fuel shape span).unplaced = shape.unplaced.addMember (value.shape heading.name) := by
  refine ⟨_, Padded.span?_eq (by simp [value.lexemes_ne_nil]) start, ?_⟩
  obtain ⟨j, hentry, hshows⟩ := entryAt_heading h.core
  dsimp only
  rw [addEntry, hentry, ← hvalue _ _ _ _ hshows]
  exact Shape.unplaced_addMember _ _

end Steps

theorem extent_brackets (o c : Char) (ls : List Lexeme) :
    extent ls + 2 ≤ extent (.sign o :: (ls ++ [.sign c])) := by
  have := o.utf8Size_pos
  have := c.utf8Size_pos
  simp [Lexeme.chars]
  omega

theorem extent_core_le (before after : Blanks) (core : List Lexeme) :
    extent core ≤ extent (Padded.lexemes ⟨before, core, after⟩) := by
  simp [Padded.lexemes]
  omega

mutual

/-- The shape of a value is read if there is fuel for its depth, which is less than its extent. -/
theorem Written.isRead : (v : Written) → ∀ {fuel : Nat}, extent v.lexemes < fuel → v.IsRead s fuel
  | .text t, fuel + 1, _ => isRead_text t
  | .word w, fuel + 1, _ => isRead_word w
  | .array items, fuel + 1, hfuel => by
    have hextent : _ ≤ extent (Written.array items).lexemes :=
      extent_brackets '[' ']' (joined items.padded)
    exact isRead_array (items.isRead (by omega))
  | .object members, fuel, hfuel => by
    have hextent : _ ≤ extent (Written.object members).lexemes :=
      extent_brackets '{' '}' (joined members.padded)
    obtain ⟨fuel, rfl⟩ : ∃ n, fuel = n + 2 := ⟨fuel - 2, by omega⟩
    exact isRead_object (members.isRead (by omega))

theorem Items.isRead : (items : Items) → ∀ {fuel : Nat}, extent (joined items.padded) < fuel →
    items.IsRead s fuel
  | .blank gap, fuel, _ => fun _ _ _ => rfl
  | .last before item after, fuel, hfuel => by
    intro start origin h
    have hextent := extent_core_le before after item.lexemes
    exact isRead_item (item.isRead (Nat.lt_of_le_of_lt hextent hfuel)) origin h []
  | .more before item after rest, fuel, hfuel => by
    intro start origin h
    have hextent := extent_core_le before after item.lexemes
    rw [Items.padded, extent_joined_cons _ rest.padded_ne_nil] at hfuel
    rw [Items.padded, joined_cons _ rest.padded_ne_nil] at h
    exact isRead_item (item.isRead (by omega)) origin h.left _

theorem Members.isRead : (members : Members) → ∀ {fuel : Nat}, extent (joined members.padded) < fuel →
    members.IsRead s fuel
  | .blank gap, fuel, hfuel => fun _ _ _ => rfl
  | .last before heading value after, fuel, hfuel => by
    intro start shape h
    have hextent := extent_core_le before after (heading.lexemes ++ value.lexemes)
    rw [Members.padded, joined] at hfuel
    rw [extent_append] at hextent
    have hvalue : value.IsRead s fuel := value.isRead (by omega)
    obtain ⟨span, hspan, hadd⟩ := isRead_member hvalue shape h
    rw [Members.padded, coreSpans, hspan]
    exact hadd
  | .more before heading value after rest, fuel, hfuel => by
    intro start shape h
    have hextent := extent_core_le before after (heading.lexemes ++ value.lexemes)
    rw [Members.padded, extent_joined_cons _ rest.padded_ne_nil] at hfuel
    rw [extent_append] at hextent
    rw [Members.padded, joined_cons _ rest.padded_ne_nil] at h
    have hvalue : value.IsRead s fuel := value.isRead (by omega)
    obtain ⟨span, hspan, hadd⟩ := isRead_member hvalue shape h.left
    have hmembers : rest.IsRead s fuel := rest.isRead (by omega)
    have hrest := hmembers _ (addEntry s fuel shape span) h.right.right
    rw [hadd] at hrest
    rw [Members.padded, coreSpans, hspan]
    exact hrest

end

/-- A text that is an object written as JSON, with blanks around it, is read in every language, and the
literal at its opening brace has the shape of what is written. -/
theorem written_object_read_exactly (language : Language) (path name : String) (lead trail : Blanks)
    (members : Members) :
    ∃ s, Source.read language.lexis path
        (String.ofList (lead.chars ++ spelling (Written.object members).lexemes ++ trail.chars)) =
          .ok s ∧
      (object s (byteSize lead.chars) name).unplaced = (Written.object members).shape name := by
  have hbody : IsBody (joined [⟨lead, (Written.object members).lexemes, trail⟩]) :=
    isBody_joined (by simpa using (Written.object members).isCore)
  obtain ⟨s, hread, hshows, hsize⟩ := hbody.exists_read language path
  have htext : spelling (joined [⟨lead, (Written.object members).lexemes, trail⟩]) =
      lead.chars ++ spelling (Written.object members).lexemes ++ trail.chars := by
    simp [joined, Padded.lexemes]
  have hfuel : extent (joined members.padded) < s.text.size := by
    have hobject : _ ≤ extent (Written.object members).lexemes :=
      extent_brackets '{' '}' (joined members.padded)
    have hpadded := extent_core_le lead trail (Written.object members).lexemes
    rw [hsize, joined]
    omega
  have hstart : Shows s (byteSize lead.chars) (Written.object members).lexemes := by
    simpa using Shows.core hshows
  refine ⟨s, htext ▸ hread, ?_⟩
  exact unplaced_objectShape (members.isRead hfuel) name hstart

/-- A comma in a key, a negative item and null. -/
example :
    let space : Blanks := ⟨[' '], by simp⟩
    let minusOne : Written :=
      .word (.integer ⟨['-'], ['1'], ⟨by simp, by simp⟩, ⟨by simp, by simp; decide⟩⟩)
    let first : Heading := ⟨⟨['a', ','], by simp⟩, by simp, .none, space⟩
    let second : Heading := ⟨⟨['b'], by simp⟩, by simp, .none, .none⟩
    let members : Members := .more .none first (.array (.last .none minusOne .none)) .none
      (.last space second (.word .null) .none)
    spelling (Written.object members).lexemes = "\x7b\"a,\": [-1], \"b\":null\x7d".toList := by
  decide

end Literal

end Concord
