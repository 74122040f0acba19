import Mathlib.Data.Bool.AllAny
import Mathlib.Data.List.Chain
import Concord.Proofs.Nesting

/-! A text that is put together from texts in double quotes and from single signs is cut into just
these, in every language. Where lexemes stand in a source, its text and its brackets there are
known. -/
namespace Concord.Source

open Text

variable {c : Char}

inductive Lexeme
  /-- A text between double quotes. -/
  | quoted (t : List Char)
  /-- A character outside comments and literals. -/
  | sign (c : Char)

namespace Lexeme

def chars : Lexeme → List Char
  | .quoted t => '"' :: (t ++ ['"'])
  | .sign c => [c]

def token : Lexeme → Token
  | .quoted t => .literal [Byte.doubleQuote] (encode t) [Byte.doubleQuote]
  | .sign c => .plain (Byte.ofChar c)

def isSign : Lexeme → Bool
  | .quoted _ => false
  | .sign _ => true

/-- Nothing ends or changes a quoted text before its closing quote, and a sign starts no literal and no
comment. -/
def Sound : Lexeme → Prop
  | .quoted t => ∀ c ∈ t, c ∉ ['"', '\\', '\n']
  | .sign c => c.toNat < 0x80 ∧ c ∉ ['"', '\'', '`', '/', '#']

end Lexeme

def spelling (ls : List Lexeme) : List Char := ls.flatMap Lexeme.chars

def outline (ls : List Lexeme) : List UInt8 := ls.flatMap fun l => l.token.skeleton

def extent (ls : List Lexeme) : Nat := byteSize (spelling ls)

section Simp

variable (l : Lexeme) (ls ms : List Lexeme)

@[simp] theorem spelling_nil : spelling [] = [] := rfl

@[simp] theorem spelling_cons : spelling (l :: ls) = l.chars ++ spelling ls := rfl

@[simp] theorem spelling_append : spelling (ls ++ ms) = spelling ls ++ spelling ms :=
  List.flatMap_append

@[simp] theorem outline_nil : outline [] = [] := rfl

@[simp] theorem outline_cons : outline (l :: ls) = l.token.skeleton ++ outline ls := rfl

@[simp] theorem outline_append : outline (ls ++ ms) = outline ls ++ outline ms := List.flatMap_append

@[simp] theorem extent_nil : extent [] = 0 := rfl

@[simp] theorem extent_cons : extent (l :: ls) = byteSize l.chars + extent ls := by simp [extent]

@[simp] theorem extent_append : extent (ls ++ ms) = extent ls + extent ms := by simp [extent]

end Simp

theorem encodeChar_of_ascii (h : c.toNat < 0x80) : String.utf8EncodeChar c = [Byte.ofChar c] := by
  have hval : c.val.toNat ≤ 0x7f := Nat.le_of_lt_succ h
  unfold String.utf8EncodeChar
  dsimp only
  rw [if_pos hval]
  rfl

theorem ofChar_inj {c d : Char} (hc : c.toNat < 0x80) (hd : d.toNat < 0x80)
    (h : Byte.ofChar c = Byte.ofChar d) : c = d := by
  have hsame : [c] = [d] := by
    rw [← decode_encode [c], ← decode_encode [d], encode_cons, encode_cons, encodeChar_of_ascii hc,
      encodeChar_of_ascii hd, h]
  exact (List.cons.inj hsame).1

theorem ofChar_not_mem_map {marks : List Char} (hmarks : ∀ d ∈ marks, d.toNat < 0x80)
    (hc : c.toNat < 0x80) (h : c ∉ marks) : Byte.ofChar c ∉ marks.map Byte.ofChar := by
  intro hmem
  obtain ⟨d, hd, hsame⟩ := List.mem_map.mp hmem
  exact h (ofChar_inj (hmarks d hd) hc hsame ▸ hd)

theorem not_mem_map_of_mem_encode {marks t : List Char} (hmarks : ∀ d ∈ marks, d.toNat < 0x80)
    (h : ∀ c ∈ t, c ∉ marks) : ∀ b ∈ encode t, b ∉ marks.map Byte.ofChar := by
  intro b hb hmem
  obtain ⟨d, hd, rfl⟩ := List.mem_map.mp hmem
  have hnat : (Byte.ofChar d).toNat = d.toNat :=
    toNat_ofNat_of_lt (Nat.lt_trans (hmarks d hd) (by decide))
  obtain ⟨before, after, hsplit⟩ := List.append_of_mem hb
  obtain ⟨t₁, t₂, rfl, -, -⟩ := encode_split_ascii (hnat ▸ hmarks d hd) hsplit
  exact h d (by simp [hnat]) hd

namespace Lexeme.Sound

variable {l : Lexeme}

theorem text_token (h : l.Sound) : l.token.text = encode l.chars := by
  cases l with
  | quoted t =>
    rw [chars, encode_cons, encode_append]
    rfl
  | sign c =>
    rw [chars, encode_cons, encodeChar_of_ascii h.1]
    rfl

theorem code_token (h : l.Sound) : l.token.code = encode l.chars := by
  rw [← h.text_token]
  cases l <;> rfl

theorem length_skeleton (h : l.Sound) : l.token.skeleton.length = byteSize l.chars := by
  rw [← length_encode, ← h.code_token]
  exact l.token.skeleton_masks.length_eq

theorem ofChar_not_mem (h : (sign c).Sound) :
    Byte.ofChar c ∉ [Byte.doubleQuote, Byte.singleQuote, Byte.backquote, Byte.slash, Byte.hash] :=
  ofChar_not_mem_map (List.all_iff_forall_prop.mp (by decide)) h.1 h.2

end Lexeme.Sound

theorem encode_spelling {ls : List Lexeme} (h : ∀ l ∈ ls, l.Sound) :
    encode (spelling ls) = ls.flatMap fun l => l.token.code := by
  induction ls with
  | nil => rfl
  | cons l ls ih =>
    obtain ⟨hl, hls⟩ := List.forall_mem_cons.mp h
    rw [spelling_cons, encode_append, ih hls, List.flatMap_cons, hl.code_token]

theorem length_outline {ls : List Lexeme} (h : ∀ l ∈ ls, l.Sound) :
    (outline ls).length = extent ls := by
  induction ls with
  | nil => rfl
  | cons l ls ih =>
    obtain ⟨hl, hls⟩ := List.forall_mem_cons.mp h
    rw [outline_cons, List.length_append, hl.length_skeleton, ih hls, extent_cons]

/-- Between two quoted texts stands a sign. -/
def Spaced (ls : List Lexeme) : Prop := ls.IsChain fun a b => a.isSign = true ∨ b.isSign = true

theorem Spaced.append {ls ms : List Lexeme} (hls : Spaced ls) (hms : Spaced ms)
    (h : (∀ l ∈ ls, l.isSign = true) ∨ ∀ l ∈ ms.head?, l.isSign = true) : Spaced (ls ++ ms) := by
  refine List.isChain_append.mpr ⟨hls, hms, fun l hl m hm => ?_⟩
  exact h.imp (fun h => h l (List.mem_of_getLast? hl)) (fun h => h m hm)

theorem spaced_of_isSign {ls : List Lexeme} (h : ∀ l ∈ ls, l.isSign = true) : Spaced ls := by
  induction ls with
  | nil => exact .nil
  | cons l ls ih =>
    obtain ⟨hl, hls⟩ := List.forall_mem_cons.mp h
    exact List.isChain_cons.mpr ⟨fun _ _ => .inl hl, ih hls⟩

/-- Conventions under which double quotes enclose a literal and what else starts a literal or a comment
is a quote, a slash or a hash. -/
structure QuotesDouble (lx : Lexis) : Prop where
  double : Byte.doubleQuote ∈ lx.quotes
  quotes : ∀ q ∈ lx.quotes, q ∈ [Byte.doubleQuote, Byte.singleQuote, Byte.backquote]
  line : ∀ b ∈ lx.lineComment.head?, b ∈ [Byte.slash, Byte.hash]
  block : ∀ m ∈ lx.blockComment, m.1.head? = some Byte.slash

theorem quotesDouble_lexis (language : Language) : QuotesDouble language.lexis := by
  cases language <;> constructor <;> decide +kernel

namespace QuotesDouble

variable {lx : Lexis}

theorem commentAt_eq_none (hlx : QuotesDouble lx) {b : UInt8} (hb : b ∉ [Byte.slash, Byte.hash])
    (rest : List UInt8) : commentAt lx (b :: rest) = none := by
  have hline : (!lx.lineComment.isEmpty && lx.lineComment.isPrefixOf (b :: rest)) = false := by
    have := hlx.line
    cases hlc : lx.lineComment with
    | nil => rfl
    | cons a mark =>
      have ha : a ≠ b := fun h => hb (h ▸ this a (by simp [hlc]))
      simp [List.isPrefixOf, ha]
  rw [commentAt]
  simp only [hline, Bool.false_eq_true, if_false]
  cases hblock : lx.blockComment with
  | none => rfl
  | some m =>
    obtain ⟨mark, close⟩ := m
    have hhead : mark.head? = some Byte.slash := hlx.block (mark, close) hblock
    obtain ⟨more, rfl⟩ : ∃ more, mark = Byte.slash :: more := by
      cases mark with
      | nil => simp at hhead
      | cons a more => exact ⟨more, by simpa using hhead⟩
    have hb' : Byte.slash ≠ b := fun h => hb (by simp [← h])
    simp [List.isPrefixOf, hb']

theorem tripleQuote?_eq_none {b : UInt8} {rest : List UInt8}
    (h : b ∉ [Byte.doubleQuote, Byte.singleQuote] ∨ ∃ c ∈ rest.take 2, c ≠ b) :
    tripleQuote? lx (b :: rest) = none := by
  match rest with
  | [] => rfl
  | [_] => rfl
  | c :: d :: rest =>
    rw [tripleQuote?, if_neg]
    grind

theorem tokenAt_sign (hlx : QuotesDouble lx) (hc : (Lexeme.sign c).Sound) (last : Option UInt8)
    (rest : List UInt8) : tokenAt lx last (Byte.ofChar c) rest = .ok (Lexeme.sign c).token := by
  have hb := hc.ofChar_not_mem
  have hquotes : Byte.ofChar c ∉ lx.quotes := by
    intro hmem
    have := hlx.quotes _ hmem
    grind
  have hslash : (Byte.ofChar c == Byte.slash) = false := by grind
  have htriple : tripleQuote? lx (Byte.ofChar c :: rest) = none :=
    tripleQuote?_eq_none (.inl (by grind))
  rw [tokenAt, hlx.commentAt_eq_none (by grind)]
  simp [literalAt, htriple, hslash, hquotes, Lexeme.token]

/-- A body of bytes that do not end it, up to its closing quote. -/
theorem quotedBody?_append {q : UInt8} {raw multiline : Bool} {body : List UInt8} (rest : List UInt8)
    (hq : q ≠ Byte.backslash) (hbody : ∀ b ∈ body, b ∉ [q, Byte.backslash, Byte.newline]) :
    quotedBody? q raw multiline (body ++ q :: rest) = some body := by
  induction body with
  | nil =>
    unfold quotedBody?
    simp [hq]
  | cons b body ih =>
    obtain ⟨hb, hbody⟩ := List.forall_mem_cons.mp hbody
    simp only [List.mem_cons, List.not_mem_nil, or_false, not_or] at hb
    unfold quotedBody?
    simp [hb, ih hbody]

theorem tokenAt_quoted (hlx : QuotesDouble lx) {t : List Char} (ht : (Lexeme.quoted t).Sound)
    (last : Option UInt8) {rest : List UInt8} (hrest : ∀ b ∈ rest.head?, b ≠ Byte.doubleQuote) :
    tokenAt lx last Byte.doubleQuote (encode t ++ Byte.doubleQuote :: rest) =
      .ok (Lexeme.quoted t).token := by
  have hbody : ∀ b ∈ encode t, b ∉ [Byte.doubleQuote, Byte.backslash, Byte.newline] :=
    not_mem_map_of_mem_encode (List.all_iff_forall_prop.mp (by decide)) ht
  have htriple : tripleQuote? lx (Byte.doubleQuote :: (encode t ++ Byte.doubleQuote :: rest)) =
      none := by
    cases hbytes : encode t with
    | nil =>
      cases rest with
      | nil => rfl
      | cons b rest => exact tripleQuote?_eq_none (.inr ⟨b, by simp, hrest b rfl⟩)
    | cons b bytes =>
      have hb := hbody b (by simp [hbytes])
      exact tripleQuote?_eq_none (.inr ⟨b, by simp, by grind⟩)
  have hslash : (Byte.doubleQuote == Byte.slash) = false := by decide
  have hquoted (raw multiline : Bool) :
      quotedBody? Byte.doubleQuote raw multiline (encode t ++ Byte.doubleQuote :: rest) =
        some (encode t) :=
    quotedBody?_append rest (by decide) hbody
  rw [tokenAt, hlx.commentAt_eq_none (by decide)]
  simp [literalAt, htriple, hslash, hlx.double, hquoted, Lexeme.token]

/-- What stands first in a text that is written from lexemes is the first of them. -/
theorem tokenAt_spelling (hlx : QuotesDouble lx) {l : Lexeme} {ls : List Lexeme}
    (hsound : ∀ m ∈ l :: ls, m.Sound) (hnext : ∀ m ∈ ls.head?, l.isSign = true ∨ m.isSign = true)
    (last : Option UInt8) :
    ∃ b rest, l.token.text ++ encode (spelling ls) = b :: rest ∧ tokenAt lx last b rest = .ok l.token := by
  obtain ⟨hl, hls⟩ := List.forall_mem_cons.mp hsound
  cases l with
  | sign c => exact ⟨_, _, rfl, hlx.tokenAt_sign hl last _⟩
  | quoted t =>
    refine ⟨Byte.doubleQuote, encode t ++ Byte.doubleQuote :: encode (spelling ls), ?_, ?_⟩
    · simp [Lexeme.token, Token.text]
    · refine hlx.tokenAt_quoted hl last ?_
      -- a quote right after the closing one would make three of them
      cases ls with
      | nil => simp
      | cons m ls =>
        obtain ⟨hm, -⟩ := List.forall_mem_cons.mp hls
        cases m with
        | quoted u => simp [Lexeme.isSign] at hnext
        | sign c =>
          have hc := hm.ofChar_not_mem
          rw [spelling_cons, encode_append, ← hm.text_token]
          simp only [Lexeme.token, Token.text]
          grind

theorem tokens_spelling (hlx : QuotesDouble lx) (hmarks : AsciiMarks lx) {ls : List Lexeme}
    (hsound : ∀ l ∈ ls, l.Sound) (hspaced : Spaced ls) (last : Option UInt8) :
    tokens lx last (encode (spelling ls)) = (ls.map Lexeme.token, none) := by
  induction ls generalizing last with
  | nil => simp [tokens]
  | cons l ls ih =>
    obtain ⟨hl, hls⟩ := List.forall_mem_cons.mp hsound
    obtain ⟨hnext, hspaced⟩ := List.isChain_cons.mp hspaced
    obtain ⟨b, rest, hbytes, htoken⟩ := hlx.tokenAt_spelling hsound hnext last
    rw [spelling_cons, encode_append, ← hl.text_token, hbytes]
    obtain ⟨after, last', hcut, -, hrun⟩ := tokens_of_tokenAt hmarks htoken
    obtain rfl : encode (spelling ls) = after := List.append_cancel_left (hbytes.trans hcut)
    rw [hrun, ih hls hspaced]
    rfl

end QuotesDouble

theorem extract_split {l a b : List UInt8} {i m n : Nat} (h : l.extract i (i + (m + n)) = a ++ b)
    (ha : a.length = m) : l.extract i (i + m) = a ∧ l.extract (i + m) (i + m + n) = b := by
  rw [List.extract_eq_take_drop, Nat.add_sub_cancel_left] at h
  subst ha
  constructor
  · have htake := congrArg (List.take a.length) h
    rw [List.take_take, List.take_left, Nat.min_eq_left (Nat.le_add_right _ _)] at htake
    rw [List.extract_eq_take_drop, Nat.add_sub_cancel_left, htake]
  · have hdrop := congrArg (List.drop a.length) h
    rw [List.drop_take, List.drop_drop, List.drop_left, Nat.add_sub_cancel_left] at hdrop
    rw [List.extract_eq_take_drop, Nat.add_sub_cancel_left, hdrop]

/-- Lexemes that stand in a source from an offset on. -/
structure Shows (s : Source) (i : Nat) (ls : List Lexeme) : Prop where
  sound : ∀ l ∈ ls, l.Sound
  code : s.code.toList.extract i (i + extent ls) = encode (spelling ls)
  skeleton : s.skeleton.toList.extract i (i + extent ls) = outline ls

namespace Shows

variable {s : Source} {i : Nat} {ls ms : List Lexeme}

theorem append (h : Shows s i (ls ++ ms)) : Shows s i ls ∧ Shows s (i + extent ls) ms := by
  obtain ⟨hls, hms⟩ := List.forall_mem_append.mp h.sound
  have hcode := h.code
  have hskeleton := h.skeleton
  rw [extent_append, spelling_append, encode_append] at hcode
  rw [extent_append, outline_append] at hskeleton
  obtain ⟨hcode, hcode'⟩ := extract_split hcode (length_encode _)
  obtain ⟨hskeleton, hskeleton'⟩ := extract_split hskeleton (length_outline hls)
  exact ⟨⟨hls, hcode, hskeleton⟩, ⟨hms, hcode', hskeleton'⟩⟩

theorem left (h : Shows s i (ls ++ ms)) : Shows s i ls := h.append.1

theorem right (h : Shows s i (ls ++ ms)) : Shows s (i + extent ls) ms := h.append.2

theorem slice_eq (h : Shows s i ls) : s.slice i (i + extent ls) = spelling ls := by
  rw [slice, Array.toList_extract, h.code, decode_encode]

theorem bare_eq (h : Shows s i ls) : s.bare i (i + extent ls) = outline ls := by
  rw [bare_eq_extract, h.skeleton]

theorem closing?_eq {o c : Char} (h : Shows s i (.sign o :: (ls ++ [.sign c])))
    (hoc : Byte.closerOf? (Byte.ofChar o) = some (Byte.ofChar c)) (hls : Nested (outline ls)) :
    s.closing? i = some (i + 1 + extent ls) := by
  have hsound : ∀ l ∈ ls, l.Sound := fun l hl => h.sound l (by simp [hl])
  have hview : s.skeleton.toList.extract i (i + extent (.sign o :: (ls ++ [.sign c]))) =
      Byte.ofChar o :: (outline ls ++ [Byte.ofChar c]) := by
    rw [h.skeleton]
    simp [Lexeme.token, Token.skeleton]
  generalize i + extent (.sign o :: (ls ++ [.sign c])) = j at hview
  rw [List.extract_eq_take_drop] at hview
  have hi : i ≤ s.skeleton.toList.length := by
    have hlen := congrArg List.length hview
    simp only [List.length_take, List.length_drop, List.length_cons] at hlen
    omega
  refine Encloses.closing? ⟨s.skeleton.toList.take i, Byte.ofChar o, outline ls, Byte.ofChar c,
    (s.skeleton.toList.drop i).drop (j - i), ?_, hoc, hls, ?_, ?_⟩
  · calc s.skeleton.toList
        = s.skeleton.toList.take i ++ ((s.skeleton.toList.drop i).take (j - i) ++
            (s.skeleton.toList.drop i).drop (j - i)) := by
          rw [List.take_append_drop, List.take_append_drop]
      _ = _ := by simp [hview]
  · rw [List.length_take, Nat.min_eq_left hi]
  · rw [length_outline hsound]
    omega

end Shows

/-- Lexemes that can be read: with a sign between two quoted texts and nested brackets. -/
structure IsBody (ls : List Lexeme) : Prop where
  sound : ∀ l ∈ ls, l.Sound
  spaced : Spaced ls
  nested : Nested (outline ls)

theorem IsBody.exists_read {ls : List Lexeme} (h : IsBody ls) (language : Language) (path : String) :
    ∃ s, read language.lexis path (String.ofList (spelling ls)) = .ok s ∧ Shows s 0 ls ∧
      s.text.size = extent ls := by
  have htokens := (quotesDouble_lexis language).tokens_spelling (asciiMarks_lexis language) h.sound
    h.spaced none
  have hskeleton : (ls.map Lexeme.token).flatMap Token.skeleton = outline ls := List.flatMap_map ..
  have hcode : (ls.map Lexeme.token).flatMap Token.code = encode (spelling ls) := by
    rw [encode_spelling h.sound, List.flatMap_map]
  cases hread : read language.lexis path (String.ofList (spelling ls)) with
  | error e =>
    have hnest := nestTokens_of_tokens htokens 0 []
    rw [hskeleton, nest_eq_ok h.nested] at hnest
    simp [read, htokens, hnest] at hread
  | ok s =>
    obtain ⟨ts, hts, -, rfl⟩ := read_eq_ok hread
    rw [String.toList_ofList, htokens] at hts
    obtain rfl : ls.map Lexeme.token = ts := (Prod.mk.inj hts).1
    refine ⟨_, rfl, ⟨h.sound, ?_, ?_⟩, ?_⟩
    · simp [hcode, extent, ← length_encode]
    · simp [hskeleton, ← length_outline h.sound]
    · simp [extent]

end Concord.Source
