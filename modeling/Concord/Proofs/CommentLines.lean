import Mathlib.Data.List.DropRight
import Concord.Proofs.Alignment

/-! Of a comment only its first line and its trimmed text are kept. The line below it is found again
from the number of lines of that text, so it is found just if trimming took away no line break. -/
namespace Concord.Text

/-- The line breaks among the blanks at the ends of a text. -/
def outerBreaks (t : List Char) : Nat :=
  (t.takeWhile isBlank).count '\n' + ((trimStart t).rtakeWhile isBlank).count '\n'

theorem count_trim (t : List Char) : t.count '\n' = (trim t).count '\n' + outerBreaks t := by
  have hstart := congrArg (List.count '\n') (List.takeWhile_append_dropWhile (p := isBlank) (l := t))
  have hend := congrArg (List.count '\n')
    (List.rdropWhile_append_rtakeWhile (p := isBlank) (l := trimStart t))
  rw [List.count_append] at hstart hend
  have htrim : trim t = (trimStart t).rdropWhile isBlank := rfl
  rw [htrim, outerBreaks]
  rw [← trimStart] at hstart
  omega

/-- A trimmed text has a line for each of its line breaks and one more, unless it is empty. -/
theorem length_lines_trim (t : List Char) : max (lines (trim t)).length 1 = (trim t).count '\n' + 1 := by
  have hcount : (split '\n' (trim t)).length = (trim t).count '\n' + 1 := length_splitWhere _ _
  unfold lines
  dsimp only
  rw [List.length_append, List.length_map, List.length_dropLast, hcount]
  by_cases hlast : (split '\n' (trim t)).getLastD [] = []
  · rcases eq_concat_of_last_empty hlast with hnil | ⟨u, c, hend, hc⟩
    · rw [hnil]
      rfl
    · -- a line break at the end would have been trimmed
      obtain rfl : c = '\n' := by simpa using hc
      have hne : (trimStart t).rdropWhile isBlank ≠ [] := by
        change trim t ≠ []
        simp [hend]
      have hnot := List.rdropWhile_last_not isBlank (trimStart t) hne
      have hget : ((trimStart t).rdropWhile isBlank).getLast hne = '\n' := by
        change (trim t).getLast hne = '\n'
        simp [hend]
      rw [hget] at hnot
      exact absurd (by decide) hnot
  · rw [if_neg (by simpa using hlast)]
    simp

end Concord.Text

namespace Concord.Source

open Text

variable {language : Language} {ts : List Token} {content path : String} {s : Source}

/-- A comment where it stands in a text: the offset of its first byte, and its parts. -/
structure Placed where
  offset : Nat
  opening : List UInt8
  body : List UInt8
  closing : List UInt8

def placedFrom : List Token → (offset : Nat) → List Placed
  | [], _ => []
  | t :: ts, offset =>
    let rest := placedFrom ts (offset + t.size)
    match t with
    | .comment o b c => ⟨offset, o, b, c⟩ :: rest
    | _ => rest

def placed (lx : Lexis) (content : String) : List Placed :=
  placedFrom (tokens lx none (encode content.toList)).1 0

namespace Placed

def text (c : Placed) : List UInt8 := c.opening ++ c.body ++ c.closing

def firstLine (content : String) (c : Placed) : Nat := lineAt (encode content.toList) c.offset

def lastLine (content : String) (c : Placed) : Nat :=
  lineAt (encode content.toList) (c.offset + (c.text.length - 1))

def comment (content : String) (c : Placed) : Comment :=
  ⟨c.firstLine content, String.ofList (trim (decode c.body))⟩

end Placed

/-- A comment on one line, or one between marks without line breaks. -/
structure IsComment (o b c : List UInt8) : Prop where
  ne_nil : o ≠ []
  marks : Byte.newline ∉ o ++ c
  line : c = [] → Byte.newline ∉ b
  utf8 : IsUtf8 b

theorem commentAt_eq {lx : Lexis} {bytes o b c : List UInt8}
    (h : commentAt lx bytes = some (.ok (.comment o b c))) :
    (o = lx.lineComment ∧ c = [] ∧ Byte.newline ∉ b) ∨ lx.blockComment = some (o, c) := by
  unfold commentAt at h
  dsimp only at h
  split at h
  · left
    obtain ⟨rfl, rfl, rfl⟩ : lx.lineComment = o ∧
        (bytes.drop lx.lineComment.length).takeWhile (· != Byte.newline) = b ∧ [] = c := by
      simpa using h
    refine ⟨rfl, rfl, fun hmem => ?_⟩
    simpa using List.mem_takeWhile_imp hmem
  · right
    split at h
    · next hblock =>
      split at h
      · split at h
        · obtain ⟨rfl, -, rfl⟩ := Token.comment.inj (Except.ok.inj (Option.some.inj h))
          exact hblock
        · simp at h
      · simp at h
    · simp at h

theorem newline_not_mem_marks (language : Language) :
    Byte.newline ∉ language.lexis.lineComment ∧
      ∀ m ∈ language.lexis.blockComment, Byte.newline ∉ m.1 ++ m.2 := by
  cases language <;> decide +kernel

theorem isComment_of_commentAt {before bytes after o b c : List UInt8}
    (h : commentAt language.lexis bytes = some (.ok (.comment o b c)))
    (hcut : bytes = o ++ b ++ c ++ after) (hvalid : IsUtf8 (before ++ bytes)) : IsComment o b c := by
  have hlx := asciiMarks_lexis language
  obtain ⟨hline, hblock⟩ := newline_not_mem_marks language
  rcases commentAt_sound h with ⟨body, rest, hne, ht, hrest, hend⟩ | ⟨o', body, c', rest, hmarks, ht, -⟩
  · obtain ⟨rfl, rfl, rfl⟩ := Token.comment.inj ht
    obtain rfl : after = rest := List.append_cancel_left (hcut.symm.trans hrest)
    have hbody : Byte.newline ∉ b := by
      rcases commentAt_eq h with ⟨-, -, hbody⟩ | hblock
      · exact hbody
      · exact absurd rfl (hlx.block _ hblock).2.1
    have hmark : IsUtf8 (before ++ language.lexis.lineComment ++ (b ++ after)) := by
      simpa [hcut] using hvalid
    have hafter : IsUtf8 (b ++ after) := isUtf8_after_mark hne hlx.line hmark
    refine ⟨hne, by simpa using hline, fun _ => hbody, ?_⟩
    cases after with
    | nil => simpa using hafter
    | cons a after =>
      obtain rfl : a = Byte.newline := hend a (by simp)
      exact hafter.before_ascii (by decide)
  · obtain ⟨rfl, rfl, rfl⟩ := Token.comment.inj ht
    obtain ⟨ho, hc, hascii⟩ := hlx.block _ hmarks
    have hmark : IsUtf8 (before ++ o ++ (b ++ c ++ after)) := by simpa [hcut] using hvalid
    have hafter : IsUtf8 (b ++ c ++ after) :=
      isUtf8_after_mark ho (fun a ha => hascii a (by simp [ha])) hmark
    exact ⟨ho, hblock _ hmarks, fun hnil => absurd hnil hc,
      isUtf8_before_mark hc (fun a ha => hascii a (by simp [ha])) hafter⟩

theorem isComment_of_mem {last : Option UInt8} {bytes : List UInt8}
    (h : tokens language.lexis last bytes = (ts, none)) (hvalid : IsUtf8 bytes) {o b c : List UInt8}
    (hmem : .comment o b c ∈ ts) : IsComment o b c := by
  suffices hrun : ∀ before, IsUtf8 (before ++ bytes) → .comment o b c ∈ ts → IsComment o b c from
    hrun [] hvalid hmem
  refine tokens_induction
    (P := fun bytes ts => ∀ before, IsUtf8 (before ++ bytes) → .comment o b c ∈ ts → IsComment o b c)
    (asciiMarks_lexis language) (by simp) ?_ h
  intro last a rest t us after ht hcut ih before hbefore hmem
  rcases List.mem_cons.mp hmem with rfl | hmem
  · rcases tokenAt_cases ht with hcomment | hliteral | hplain
    · exact isComment_of_commentAt hcomment hcut (hcut ▸ hbefore)
    · obtain ⟨_, _, -, hliteral, -⟩ := literalAt_sound hliteral
      cases hliteral
    · cases hplain
  · exact ih (before ++ t.text) (by rwa [List.append_assoc]) hmem

/-- The comments that are kept are those that stand in the text. -/
theorem commentsOf_eq {before : List UInt8}
    (h : encode content.toList = before ++ ts.flatMap Token.text) :
    commentsOf ts (before.count Byte.newline + 1) =
      (placedFrom ts before.length).map (Placed.comment content) := by
  induction ts generalizing before with
  | nil => rfl
  | cons t ts ih =>
    rw [List.flatMap_cons, ← List.append_assoc] at h
    have hrest : commentsOf ts (before.count Byte.newline + 1 + t.text.count Byte.newline) =
        (placedFrom ts (before.length + t.size)).map (Placed.comment content) := by
      have := ih h
      rw [List.count_append, List.length_append] at this
      rw [Nat.add_right_comm, Token.size, this]
    cases t with
    | comment o b c =>
      have hline : lineAt (encode content.toList) before.length = before.count Byte.newline + 1 := by
        rw [h, List.append_assoc, lineAt_eq, List.take_left]
      simp only [commentsOf, placedFrom, hrest, List.map_cons, Placed.comment, Placed.firstLine, hline]
    | literal o b c => simp only [commentsOf, placedFrom, hrest]
    | plain b => simp only [commentsOf, placedFrom, hrest]

theorem exists_of_mem_placedFrom {offset : Nat} {c : Placed} (h : c ∈ placedFrom ts offset) :
    ∃ us vs, ts = us ++ .comment c.opening c.body c.closing :: vs ∧
      c.offset = offset + (us.flatMap Token.text).length := by
  induction ts generalizing offset with
  | nil => simp [placedFrom] at h
  | cons t ts ih =>
    have hlater (h : c ∈ placedFrom ts (offset + t.size)) :
        ∃ us vs, t :: ts = us ++ .comment c.opening c.body c.closing :: vs ∧
          c.offset = offset + (us.flatMap Token.text).length := by
      obtain ⟨us, vs, rfl, hoffset⟩ := ih h
      refine ⟨t :: us, vs, rfl, ?_⟩
      rw [hoffset, List.flatMap_cons, List.length_append, Token.size]
      omega
    cases t with
    | comment o b d =>
      rcases List.mem_cons.mp h with rfl | h
      · exact ⟨[], ts, rfl, rfl⟩
      · exact hlater h
    | literal o b d => exact hlater h
    | plain b => exact hlater h

namespace IsComment

variable {o b c : List UInt8}

theorem count_newline (h : IsComment o b c) :
    (o ++ b ++ c).count Byte.newline = (decode b).count '\n' := by
  obtain ⟨t, rfl⟩ := h.utf8
  obtain ⟨ho, hc⟩ : Byte.newline ∉ o ∧ Byte.newline ∉ c := by simpa using h.marks
  rw [List.count_append, List.count_append, List.count_eq_zero.mpr ho, List.count_eq_zero.mpr hc,
    count_newline_encode, decode_encode]
  omega

theorem count_dropLast (h : IsComment o b c) :
    (o ++ b ++ c).dropLast.count Byte.newline = (decode b).count '\n' := by
  have hne : o ++ b ++ c ≠ [] := by simp [h.ne_nil]
  have hlast : (o ++ b ++ c).getLast hne ≠ Byte.newline := by
    obtain ⟨ho, hc⟩ : Byte.newline ∉ o ∧ Byte.newline ∉ c := by simpa using h.marks
    by_cases hnil : c = []
    · have hb := h.line hnil
      have hmem := List.getLast_mem hne
      intro heq
      rw [heq] at hmem
      simp [hnil, ho, hb] at hmem
    · intro heq
      rw [List.getLast_append_of_ne_nil hne hnil] at heq
      exact hc (heq ▸ List.getLast_mem hnil)
  have hcount := h.count_newline
  rw [← List.dropLast_concat_getLast hne, List.count_append, List.count_singleton,
    if_neg (by simpa using hlast)] at hcount
  exact hcount

end IsComment

namespace Placed

/-- A comment ends as many lines below its first one as its body has line breaks. -/
theorem lastLine_eq {c : Placed} {before after : List UInt8}
    (h : encode content.toList = before ++ (c.text ++ after)) (hoffset : c.offset = before.length)
    (hc : IsComment c.opening c.body c.closing) :
    c.lastLine content = c.firstLine content + (decode c.body).count '\n' := by
  have htake : (before ++ (c.text ++ after)).take (before.length + (c.text.length - 1)) =
      before ++ c.text.dropLast := by
    rw [List.take_length_add_append, List.take_append_of_le_length (Nat.sub_le _ _),
      List.dropLast_eq_take]
  rw [lastLine, firstLine, hoffset, h, lineAt_eq, lineAt_eq, htake, List.take_left, List.count_append, text,
    hc.count_dropLast]
  omega

theorem lastLine_of_mem (h : read language.lexis path content = .ok s) {c : Placed}
    (hc : c ∈ placed language.lexis content) :
    c.lastLine content = c.firstLine content + (decode c.body).count '\n' := by
  obtain ⟨ts, hts, -, -⟩ := read_eq_ok h
  rw [placed, hts] at hc
  obtain ⟨us, vs, rfl, hoffset⟩ := exists_of_mem_placedFrom hc
  have hbytes : encode content.toList =
      us.flatMap Token.text ++ (c.text ++ vs.flatMap Token.text) := by
    simp [← flatMap_text_tokens (asciiMarks_lexis language) hts, text, Token.text]
  exact lastLine_eq hbytes (by omega) (isComment_of_mem hts (isUtf8_encode _) (by simp))

end Placed

theorem comments_of_read (h : read language.lexis path content = .ok s) :
    s.comments = (placed language.lexis content).map (Placed.comment content) := by
  obtain ⟨ts, hts, -, rfl⟩ := read_eq_ok h
  have hbytes : encode content.toList = [] ++ ts.flatMap Token.text :=
    (flatMap_text_tokens (asciiMarks_lexis language) hts).symm
  rw [placed, hts]
  exact commentsOf_eq hbytes

end Concord.Source

namespace Concord.Note

open Text Pattern Source

variable {language : Language} {content path : String} {s : Source}

/-- What the texts of comments tell about a field; of several the last counts. -/
def told (texts : List (List Char)) : FieldNote :=
  let last := fun (p : Pattern) => (texts.filterMap p.find?).getLast?
  let bound := fun (word : String) => (last (boundNote word)).bind fun m => Binary64.ofText? (m.text 1)
  { unit := (last unitNote).map (·.string 1)
    format := (last formatNote).map (·.string 1)
    range := Range.proper? ⟨bound "min", bound "max"⟩ }

theorem fieldNote_eq_told (h : read language.lexis path content = .ok s) (line : Nat) :
    fieldNote s line =
      told (((placed language.lexis content).filter fun c => isBeside (c.comment content) line).map
        fun c => trim (decode c.body)) := by
  have hbeside : (s.comments.filter (isBeside · line)).map (·.text.toList) =
      ((placed language.lexis content).filter fun c => isBeside (c.comment content) line).map
        fun c => trim (decode c.body) := by
    rw [comments_of_read h, List.filter_map, List.map_map]
    refine List.map_congr_left fun c _ => ?_
    simp [Placed.comment]
  rw [← hbeside]
  rfl

/-- Trimming moves the line below a comment up by the line breaks that it takes away. -/
theorem isBeside_iff (h : read language.lexis path content = .ok s) {c : Placed}
    (hc : c ∈ placed language.lexis content) (line : Nat) :
    isBeside (c.comment content) line = true ↔
      c.firstLine content = line ∨ c.lastLine content + 1 = line + outerBreaks (decode c.body) := by
  have hlast := Placed.lastLine_of_mem h hc
  have hcount := count_trim (decode c.body)
  have hlines : max (lines (c.comment content).text.toList).length 1 =
      (trim (decode c.body)).count '\n' + 1 := by
    rw [Placed.comment, String.toList_ofList, length_lines_trim]
  rw [isBeside, hlines, Bool.or_eq_true, beq_iff_eq, beq_iff_eq]
  have hfirst : (c.comment content).line = c.firstLine content := rfl
  rw [hfirst]
  omega

/-- The notes on a line are those of the comments that start on it, and of those that end right above it
once the line breaks at the ends of their bodies are left out. So they are those of the comments that
start on the line or end right above it just if no body has line breaks at its ends. -/
theorem notes_below_iff {language : Language} {path content : String} {s : Source}
    (h : read language.lexis path content = .ok s) :
    (∀ line, fieldNote s line =
      told (((placed language.lexis content).filter fun c => isBeside (c.comment content) line).map
        fun c => trim (decode c.body))) ∧
    (∀ c ∈ placed language.lexis content, ∀ line, isBeside (c.comment content) line = true ↔
      c.firstLine content = line ∨ c.lastLine content + 1 = line + outerBreaks (decode c.body)) ∧
    ((∀ c ∈ placed language.lexis content, ∀ line, isBeside (c.comment content) line = true ↔
        c.firstLine content = line ∨ c.lastLine content + 1 = line) ↔
      ∀ c ∈ placed language.lexis content, outerBreaks (decode c.body) = 0) := by
  refine ⟨fieldNote_eq_told h, fun c hc => isBeside_iff h hc, ?_⟩
  constructor
  · intro hbelow c hc
    have hnext := (hbelow c hc (c.lastLine content + 1)).mpr (.inr rfl)
    have hlast := Placed.lastLine_of_mem h hc
    rw [isBeside_iff h hc] at hnext
    omega
  · intro hflush c hc line
    simp [isBeside_iff h hc, hflush c hc]

def twoUnits : String := "/* unit: g */\nw\n/*\nunit: kg\n*/\nv"

/-- The second comment ends on the fifth line, but is not found from the sixth. -/
theorem kilograms_unread :
    ∃ s, read Language.typeScript.lexis "a.ts" twoUnits = .ok s ∧
      (fieldNote s 2).unit = some "g" ∧ (fieldNote s 6).unit = none ∧
      ¬∀ c ∈ placed Language.typeScript.lexis twoUnits, ∀ line,
        isBeside (c.comment twoUnits) line = true ↔
          c.firstLine twoUnits = line ∨ c.lastLine twoUnits + 1 = line := by
  have hview : (read Language.typeScript.lexis "a.ts" twoUnits).map
      (fun s => ((fieldNote s 2).unit, (fieldNote s 6).unit)) = .ok (some "g", none) := by
    decide +kernel
  cases hread : read Language.typeScript.lexis "a.ts" twoUnits with
  | error e => simp [hread, Except.map] at hview
  | ok s =>
    obtain ⟨hgrams, hkilograms⟩ : (fieldNote s 2).unit = some "g" ∧ (fieldNote s 6).unit = none := by
      simpa [hread, Except.map] using hview
    refine ⟨s, rfl, hgrams, hkilograms, fun hbelow => ?_⟩
    have hflush := (notes_below_iff hread).2.2.mp hbelow
    revert hflush
    decide +kernel

end Concord.Note
