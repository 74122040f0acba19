import Mathlib.Data.List.TakeWhile
import Concord.Proofs.Greedy
import Concord.Proofs.Lexemes

/-! Lexemes without a comma outside brackets are joined by commas, with blanks around each. The
pieces between the commas are then what was joined. -/
namespace Concord.Source

open Text

variable {depth : Int} {ps : List Padded} {t : List Char} {s : Source}

/-- A character that is a sign and neither a bracket nor a comma. -/
def isFlat (c : Char) : Bool :=
  c.toNat < 0x80 && !(['"', '\'', '`', '/', '#'].contains c) &&
    !(['(', '[', '{', ')', ']', '}', ','].contains c)

theorem isFlat_iff {c : Char} :
    isFlat c = true ↔ (Lexeme.sign c).Sound ∧ c ∉ ['(', '[', '{', ')', ']', '}', ','] := by
  rw [isFlat, Bool.and_eq_true, Bool.and_eq_true, decide_eq_true_iff, Bool.not_eq_true',
    Bool.not_eq_true', ← Bool.not_eq_true, ← Bool.not_eq_true, List.contains_iff_mem,
    List.contains_iff_mem]
  rfl

def signs (t : List Char) : List Lexeme := t.map .sign

@[simp] theorem spelling_signs (t : List Char) : spelling (signs t) = t := by
  induction t with
  | nil => rfl
  | cons c t ih => exact congrArg (c :: ·) ih

@[simp] theorem extent_signs (t : List Char) : extent (signs t) = byteSize t := by simp [extent]

theorem outline_signs (t : List Char) : outline (signs t) = t.map Byte.ofChar := by
  induction t with
  | nil => rfl
  | cons c t ih => exact congrArg (Byte.ofChar c :: ·) ih

theorem sound_signs (h : ∀ c ∈ t, isFlat c = true) : ∀ l ∈ signs t, l.Sound := by
  intro l hl
  obtain ⟨c, hc, rfl⟩ := List.mem_map.mp hl
  exact (isFlat_iff.mp (h c hc)).1

theorem isSign_signs (t : List Char) : ∀ l ∈ signs t, l.isSign = true := by simp [signs, Lexeme.isSign]

/-- Nested bytes with no `sep` outside brackets. -/
inductive Level (sep : UInt8) : List UInt8 → Prop
  | nil : Level sep []
  | plain {b : UInt8} {w : List UInt8} (ho : Byte.isOpener b = false) (hc : Byte.isCloser b = false)
      (hb : b ≠ sep) (hw : Level sep w) : Level sep (b :: w)
  | pair {o c : UInt8} {inner w : List UInt8} (hoc : Byte.closerOf? o = some c) (hi : Nested inner)
      (hw : Level sep w) : Level sep (o :: (inner ++ c :: w))

namespace Level

variable {sep : UInt8} {v w : List UInt8}

theorem nested (h : Level sep w) : Nested w := by
  induction h with
  | nil => exact .nil
  | plain ho hc hb hw ih => exact .plain ho hc ih
  | pair hoc hi hw ih => exact .pair hoc hi ih

theorem append (hv : Level sep v) (hw : Level sep w) : Level sep (v ++ w) := by
  induction hv with
  | nil => exact hw
  | plain ho hc hb hv ih => exact .plain ho hc hb ih
  | @pair o c inner v hoc hi hv ih =>
    have h : Level sep (o :: (inner ++ c :: (v ++ w))) := .pair hoc hi ih
    simpa using h

end Level

/-- The brackets and the comma. -/
def steps : List UInt8 :=
  [Byte.openParen, Byte.openBracket, Byte.openBrace, Byte.closeParen, Byte.closeBracket,
    Byte.closeBrace, Byte.comma]

theorem level_of_not_mem_steps {w : List UInt8} (h : ∀ b ∈ w, b ∉ steps) : Level Byte.comma w := by
  induction w with
  | nil => exact .nil
  | cons b w ih =>
    obtain ⟨hb, hw⟩ := List.forall_mem_cons.mp h
    simp only [steps, List.mem_cons, List.not_mem_nil, or_false, not_or] at hb
    exact .plain (by simp [Byte.isOpener, hb]) (by simp [Byte.isCloser, hb]) hb.2.2.2.2.2.2 (ih hw)

theorem level_signs (h : ∀ c ∈ t, isFlat c = true) : Level Byte.comma (outline (signs t)) := by
  rw [outline_signs]
  refine level_of_not_mem_steps fun b hb => ?_
  obtain ⟨c, hc, rfl⟩ := List.mem_map.mp hb
  obtain ⟨hsound, hmem⟩ := isFlat_iff.mp (h c hc)
  exact ofChar_not_mem_map (List.all_iff_forall_prop.mp (by decide)) hsound.1 hmem

theorem mem_outline_quoted {b : UInt8} (h : b ∈ outline [.quoted t]) :
    b ∈ [Byte.doubleQuote, Byte.newline, Byte.space] := by
  have hhide (a : UInt8) : Byte.hide a = Byte.newline ∨ Byte.hide a = Byte.space := by
    unfold Byte.hide
    grind
  simp only [outline_cons, outline_nil, Lexeme.token, Token.skeleton, List.append_nil, List.mem_append,
    List.mem_map] at h
  grind

theorem level_quoted (t : List Char) : Level Byte.comma (outline [.quoted t]) := by
  have hmarks : ∀ b ∈ [Byte.doubleQuote, Byte.newline, Byte.space], b ∉ steps :=
    List.all_iff_forall_prop.mp (by decide)
  exact level_of_not_mem_steps fun b hb => hmarks b (mem_outline_quoted hb)

section Cuts

variable {sep : UInt8} (rest : List UInt8) (offset : Nat)

theorem topLevelCuts_cons_plain {b : UInt8} (ho : Byte.isOpener b = false)
    (hc : Byte.isCloser b = false) (hb : b ≠ sep ∨ depth ≠ 0) :
    topLevelCuts sep (b :: rest) offset depth = topLevelCuts sep rest (offset + 1) depth := by
  have hsep : ¬(b = sep ∧ depth = 0) := by
    rintro ⟨hb', hdepth⟩
    exact hb.elim (· hb') (· hdepth)
  simp [topLevelCuts, ho, hc, hsep]

theorem topLevelCuts_cons_opener {b : UInt8} (ho : Byte.isOpener b = true) :
    topLevelCuts sep (b :: rest) offset depth = topLevelCuts sep rest (offset + 1) (depth + 1) := by
  simp [topLevelCuts, ho]

theorem topLevelCuts_cons_closer {b : UInt8} (hc : Byte.isCloser b = true) :
    topLevelCuts sep (b :: rest) offset depth = topLevelCuts sep rest (offset + 1) (depth - 1) := by
  have hb : Byte.isOpener b ≠ true := fun h => opener_ne_closer h hc rfl
  simp [topLevelCuts, hb, hc]

theorem topLevelCuts_nested {w : List UInt8} (hw : Nested w) (hdepth : 0 < depth) :
    topLevelCuts sep (w ++ rest) offset depth = topLevelCuts sep rest (offset + w.length) depth := by
  induction hw generalizing rest offset depth with
  | nil => rfl
  | @plain b w ho hc hw ih =>
    rw [List.cons_append, topLevelCuts_cons_plain _ _ ho hc (.inr (by omega)), ih _ _ hdepth,
      List.length_cons]
    congr 1
    omega
  | @pair o c inner w hoc hi hw ihi ihw =>
    rw [List.cons_append, List.append_assoc, topLevelCuts_cons_opener _ _ (isOpener_of_closerOf? hoc),
      ihi _ _ (by omega), List.cons_append, topLevelCuts_cons_closer _ _ (isCloser_of_closerOf? hoc),
      Int.add_sub_cancel, ihw _ _ hdepth]
    congr 1
    simp only [List.length_cons, List.length_append]
    omega

theorem topLevelCuts_level {w : List UInt8} (hw : Level sep w) :
    topLevelCuts sep (w ++ rest) offset 0 = topLevelCuts sep rest (offset + w.length) 0 := by
  induction hw generalizing rest offset with
  | nil => rfl
  | @plain b w ho hc hb hw ih =>
    rw [List.cons_append, topLevelCuts_cons_plain _ _ ho hc (.inl hb), ih, List.length_cons]
    congr 1
    omega
  | @pair o c inner w hoc hi hw ih =>
    rw [List.cons_append, List.append_assoc, topLevelCuts_cons_opener _ _ (isOpener_of_closerOf? hoc),
      topLevelCuts_nested _ _ hi (by omega), List.cons_append,
      topLevelCuts_cons_closer _ _ (isCloser_of_closerOf? hoc), Int.add_sub_cancel, ih]
    congr 1
    simp only [List.length_cons, List.length_append]
    omega

end Cuts

structure Blanks where
  chars : List Char
  mem : ∀ c ∈ chars, c ∈ [' ', '\t', '\n', '\r']

namespace Blanks

def none : Blanks := ⟨[], by simp⟩

variable (b : Blanks)

def lexemes : List Lexeme := signs b.chars

theorem isBlank : ∀ c ∈ b.chars, Text.isBlank c = true := by
  have hmarks : ∀ c ∈ [' ', '\t', '\n', '\r'], Text.isBlank c = true :=
    List.all_iff_forall_prop.mp (by decide)
  exact fun c hc => hmarks c (b.mem c hc)

theorem isFlat : ∀ c ∈ b.chars, Source.isFlat c = true := by
  have hmarks : ∀ c ∈ [' ', '\t', '\n', '\r'], Source.isFlat c = true :=
    List.all_iff_forall_prop.mp (by decide)
  exact fun c hc => hmarks c (b.mem c hc)

@[simp] theorem spelling_lexemes : spelling b.lexemes = b.chars := spelling_signs _

@[simp] theorem extent_lexemes : extent b.lexemes = byteSize b.chars := extent_signs _

theorem sound : ∀ l ∈ b.lexemes, l.Sound := sound_signs b.isFlat

theorem level : Level Byte.comma (outline b.lexemes) := level_signs b.isFlat

theorem isSign : ∀ l ∈ b.lexemes, l.isSign = true := isSign_signs _

theorem spaced : Spaced b.lexemes := spaced_of_isSign b.isSign

end Blanks

/-- Lexemes that can stand between two commas: with no blank at their ends and no comma outside
brackets. -/
structure IsCore (ls : List Lexeme) : Prop where
  sound : ∀ l ∈ ls, l.Sound
  spaced : Spaced ls
  trimmed : ls ≠ [] → IsTrimmed (spelling ls)
  level : Level Byte.comma (outline ls)

theorem isCore_nil : IsCore [] where
  sound := by simp
  spaced := .nil
  trimmed := absurd rfl
  level := .nil

theorem IsCore.append {ls ms : List Lexeme} (hls : IsCore ls) (hms : IsCore ms) (hls' : ls ≠ [])
    (hms' : ms ≠ []) {gap : List Char} (hgap : ∀ c ∈ gap, isFlat c = true) (hgap' : gap ≠ []) :
    IsCore (ls ++ (signs gap ++ ms)) where
  sound := List.forall_mem_append.mpr ⟨hls.sound,
    List.forall_mem_append.mpr ⟨sound_signs hgap, hms.sound⟩⟩
  spaced := by
    have hsigns := isSign_signs gap
    obtain ⟨c, gap, rfl⟩ := List.exists_cons_of_ne_nil hgap'
    exact hls.spaced.append ((spaced_of_isSign hsigns).append hms.spaced (.inl hsigns))
      (.inr (by simp [signs, Lexeme.isSign]))
  trimmed := by
    intro _
    rw [spelling_append, spelling_append, spelling_signs]
    exact (hls.trimmed hls').append (hms.trimmed hms') gap
  level := by
    rw [outline_append, outline_append]
    exact hls.level.append ((level_signs hgap).append hms.level)

/-- What stands between two commas: a core, if there is one, with blanks around it. -/
structure Padded where
  before : Blanks
  core : List Lexeme
  after : Blanks

namespace Padded

def lexemes (p : Padded) : List Lexeme := p.before.lexemes ++ (p.core ++ p.after.lexemes)

/-- The span of the core where a padded piece starts at an offset. -/
def span? (p : Padded) (start : Nat) : Option Span :=
  if p.core.isEmpty then none
  else some ⟨start + byteSize p.before.chars, start + byteSize p.before.chars + extent p.core⟩

variable {p : Padded}

theorem span?_eq (h : p.core ≠ []) (start : Nat) : p.span? start =
    some ⟨start + byteSize p.before.chars, start + byteSize p.before.chars + extent p.core⟩ := by
  rw [span?, if_neg (by simpa using h)]

theorem sound (h : IsCore p.core) : ∀ l ∈ p.lexemes, l.Sound :=
  List.forall_mem_append.mpr ⟨p.before.sound, List.forall_mem_append.mpr ⟨h.sound, p.after.sound⟩⟩

theorem spaced (h : IsCore p.core) : Spaced p.lexemes :=
  have hafter := fun l hl => p.after.isSign l (List.mem_of_mem_head? hl)
  p.before.spaced.append (h.spaced.append p.after.spaced (.inr hafter)) (.inl p.before.isSign)

theorem level (h : IsCore p.core) : Level Byte.comma (outline p.lexemes) := by
  rw [lexemes, outline_append, outline_append]
  exact p.before.level.append (h.level.append p.after.level)

end Padded

theorem Shows.core {start : Nat} {p : Padded} (h : Shows s start p.lexemes) :
    Shows s (start + byteSize p.before.chars) p.core := by
  have hcore := h.right.left
  rwa [Blanks.extent_lexemes] at hcore

def joined : List Padded → List Lexeme
  | [] => []
  | [p] => p.lexemes
  | p :: q :: ps => p.lexemes ++ .sign ',' :: joined (q :: ps)

theorem joined_cons (p : Padded) (hps : ps ≠ []) :
    joined (p :: ps) = p.lexemes ++ ([.sign ','] ++ joined ps) := by
  obtain ⟨q, ps, rfl⟩ := List.exists_cons_of_ne_nil hps
  rfl

theorem extent_joined_cons (p : Padded) (hps : ps ≠ []) :
    extent (joined (p :: ps)) = extent p.lexemes + 1 + extent (joined ps) := by
  have hcomma : extent [.sign ','] = 1 := by decide
  rw [joined_cons p hps, extent_append, extent_append, hcomma]
  omega

theorem isBody_joined (h : ∀ p ∈ ps, IsCore p.core) : IsBody (joined ps) := by
  induction ps with
  | nil => exact ⟨by simp [joined], .nil, .nil⟩
  | cons p ps ih =>
    obtain ⟨hp, hps⟩ := List.forall_mem_cons.mp h
    by_cases hne : ps = []
    · subst hne
      exact ⟨Padded.sound hp, Padded.spaced hp, (Padded.level hp).nested⟩
    · have hcomma : ∀ l ∈ [Lexeme.sign ','], l.isSign = true := by simp [Lexeme.isSign]
      have hrest := ih hps
      rw [joined_cons p hne]
      constructor
      · refine List.forall_mem_append.mpr ⟨Padded.sound hp,
          List.forall_mem_append.mpr ⟨?_, hrest.sound⟩⟩
        simp [Lexeme.Sound]
      · refine (Padded.spaced hp).append ?_ (.inr (by simp [Lexeme.isSign]))
        exact (spaced_of_isSign hcomma).append hrest.spaced (.inl hcomma)
      · rw [outline_append, outline_append]
        exact (Padded.level hp).nested.append (.plain (by decide) (by decide) hrest.nested)

theorem IsBody.isCore {ls : List Lexeme} (h : IsBody ls) {o c : Char} (ho : (Lexeme.sign o).Sound)
    (hc : (Lexeme.sign c).Sound) (hblank : isBlank o = false ∧ isBlank c = false)
    (hoc : Byte.closerOf? (Byte.ofChar o) = some (Byte.ofChar c)) :
    IsCore (.sign o :: (ls ++ [.sign c])) where
  sound := by
    refine List.forall_mem_cons.mpr ⟨ho, List.forall_mem_append.mpr ⟨h.sound, ?_⟩⟩
    simpa using hc
  spaced := by
    refine List.isChain_cons.mpr ⟨fun _ _ => .inl rfl, ?_⟩
    exact h.spaced.append (.singleton _) (.inr (by simp [Lexeme.isSign]))
  trimmed := by
    intro _
    refine ⟨by simp [Lexeme.chars], ?_, ?_⟩
    · simpa [Lexeme.chars] using hblank.1
    · simpa [Lexeme.chars, List.getLast?_cons, List.getLast?_append] using hblank.2
  level := by
    rw [outline_cons, outline_append]
    exact .pair hoc h.nested .nil

def coreSpans (start : Nat) : List Padded → List Span
  | [] => []
  | p :: ps => (p.span? start).toList ++ coreSpans (start + extent p.lexemes + 1) ps

theorem coreSpans_cons (start : Nat) (p : Padded) (ps : List Padded) :
    coreSpans start (p :: ps) =
      (p.span? start).toList ++ coreSpans (start + extent p.lexemes + 1) ps := rfl

theorem Shows.trimSpan?_eq {i : Nat} {p : Padded} (h : Shows s i p.lexemes) (hp : IsCore p.core) :
    s.trimSpan? ⟨i, i + extent p.lexemes⟩ = p.span? i := by
  have htext : s.spanText ⟨i, i + extent p.lexemes⟩ =
      p.before.chars ++ (spelling p.core ++ p.after.chars) := by
    rw [spanText, h.slice_eq]
    simp [Padded.lexemes]
  have hextent : extent p.lexemes =
      byteSize p.before.chars + (extent p.core + byteSize p.after.chars) := by
    simp [Padded.lexemes]
  unfold trimSpan? Padded.span?
  dsimp only
  rw [htext, hextent]
  cases hcore : p.core with
  | nil =>
    -- the blanks are counted from either end
    have hall : ∀ c ∈ p.before.chars ++ p.after.chars, isBlank c = true :=
      List.forall_mem_append.mpr ⟨p.before.isBlank, p.after.isBlank⟩
    have hback : ∀ c ∈ (p.before.chars ++ p.after.chars).reverse, isBlank c = true :=
      fun c hc => hall c (List.mem_reverse.mp hc)
    rw [spelling_nil, List.nil_append, List.takeWhile_eq_self_iff.mpr hall,
      List.takeWhile_eq_self_iff.mpr hback]
    rw [if_neg, List.isEmpty_nil, if_pos rfl]
    simp
  | cons l ls =>
    have htrim := hp.trimmed (by simp [hcore])
    have hpos : 0 < extent (l :: ls) := by
      rw [← hcore, extent]
      obtain ⟨c, t, ht⟩ := List.exists_cons_of_ne_nil htrim.ne_nil
      rw [ht, byteSize_cons]
      have := c.utf8Size_pos
      omega
    rw [← hcore, htrim.takeWhile_eq p.before.isBlank, htrim.takeWhile_reverse_eq p.after.isBlank,
      hcore, byteSize_reverse, if_pos (by omega), List.isEmpty_cons, if_neg (by decide)]
    congr 2
    omega

theorem pieces_joined {start : Nat} (hne : ps ≠ []) (h : Shows s start (joined ps))
    (hcores : ∀ p ∈ ps, IsCore p.core) :
    s.pieces start (start + extent (joined ps)) Byte.comma = coreSpans start ps := by
  induction ps generalizing start with
  | nil => exact absurd rfl hne
  | cons p ps ih =>
    obtain ⟨hp, hps⟩ := List.forall_mem_cons.mp hcores
    rw [pieces, h.bare_eq, List.filterMap_eq_flatMap_toList, coreSpans_cons]
    by_cases hlast : ps = []
    · subst hlast
      have hcuts := topLevelCuts_level [] start (Padded.level hp)
      rw [List.append_nil] at hcuts
      rw [joined, hcuts, topLevelCuts, spansBetween, List.flatMap_cons, h.trimSpan?_eq hp]
      rfl
    · have hextent := extent_joined_cons p hlast
      rw [joined_cons p hlast] at h hextent ⊢
      have hrest : Shows s (start + extent p.lexemes + 1) (joined ps) := h.right.right
      have hstop : start + extent (p.lexemes ++ ([.sign ','] ++ joined ps)) =
          start + extent p.lexemes + 1 + extent (joined ps) := by
        omega
      have hcuts :
          topLevelCuts Byte.comma (outline (p.lexemes ++ ([.sign ','] ++ joined ps))) start 0 =
            (start + extent p.lexemes) ::
              topLevelCuts Byte.comma (outline (joined ps)) (start + extent p.lexemes + 1) 0 := by
        rw [outline_append, topLevelCuts_level _ _ (Padded.level hp), length_outline h.left.sound]
        rfl
      have hlater := ih hlast hrest hps
      rw [pieces, hrest.bare_eq, List.filterMap_eq_flatMap_toList] at hlater
      rw [hcuts, spansBetween, List.flatMap_cons, h.left.trimSpan?_eq hp, hstop, hlater]

end Concord.Source
