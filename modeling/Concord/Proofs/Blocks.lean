import Concord.Proofs.LineStarts
import Concord.Proofs.Views

/-! Line starts ascend, so an offset is on or after a line exactly if it is not before the line's
start. The end of an indented block is thereby a statement about lines: a place is beyond the block
of a header exactly if a line up to it, past the header's open brackets, is not indented deeper. -/
namespace Concord.Source

variable {s : Source}

theorem Aligned.lineStarts_pairwise (h : Aligned s) : s.lineStarts.toList.Pairwise (· < ·) := by
  rw [h.lineStarts_eq]
  exact lineStartsOf_pairwise _

theorem Aligned.lineOf_eq_countP (h : Aligned s) (offset : Nat) :
    s.lineOf offset = s.lineStarts.toList.countP (· ≤ offset) := by
  rw [lineOf, h.lineStarts_eq, lineStartsOf, lineIndex_eq (lineStartsOf_pairwise _)]

/-- The lines of a source are those of its text. -/
theorem Aligned.lineOf_eq_lineAt (h : Aligned s) (offset : Nat) :
    s.lineOf offset = lineAt s.text.toList offset := by
  rw [lineOf, h.lineStarts_eq, lineAt]

/-- A line starts at an end of the text or after a newline. -/
theorem Aligned.lineStart_cases (h : Aligned s) (line : Nat) :
    s.lineStart line = s.text.size ∨ s.lineStart line = 0 ∨
      ∃ n, s.lineStart line = n + 1 ∧ s.text.toList[n]? = some Byte.newline := by
  rw [lineStart]
  cases hline : s.lineStarts[line - 1]? with
  | none => exact .inl rfl
  | some start =>
    rw [← Array.getElem?_toList, h.lineStarts_eq] at hline
    rcases List.mem_cons.mp (List.mem_of_getElem? hline) with rfl | hmem
    · exact .inr (.inl rfl)
    · obtain ⟨n, rfl, hn⟩ := mem_startsAfter hmem
      exact .inr (.inr ⟨n, by simp, hn⟩)

theorem getElem_le_iff_lt_countP {l : List Nat} (h : l.Pairwise (· < ·)) (x : Nat) {i : Nat}
    (hi : i < l.length) : l[i] ≤ x ↔ i < l.countP (· ≤ x) := by
  induction l generalizing i with
  | nil => simp at hi
  | cons a l ih =>
    obtain ⟨hal, hl⟩ := List.pairwise_cons.mp h
    by_cases ha : a ≤ x
    · cases i with
      | zero => simp [ha]
      | succ i => simpa [ha] using ih hl (by simpa using hi)
    · have hnone : l.countP (· ≤ x) = 0 := by
        refine List.countP_eq_zero.mpr fun b hb => ?_
        have := hal b hb
        simp only [decide_eq_true_eq]
        omega
      cases i with
      | zero => simp [ha, hnone]
      | succ i =>
        have := hal _ (List.getElem_mem (by simpa using hi))
        simp [ha, hnone]
        omega

/-- An offset is on a line or after it exactly if it is not before the line's start. -/
theorem Aligned.lineStart_le_iff (h : Aligned s) {line : Nat} (hpos : 0 < line)
    (hline : line ≤ s.lineStarts.size) (offset : Nat) :
    s.lineStart line ≤ offset ↔ line ≤ s.lineOf offset := by
  have hi : line - 1 < s.lineStarts.size := by omega
  have hcount := getElem_le_iff_lt_countP h.lineStarts_pairwise offset (i := line - 1)
    (by simpa using hi)
  rw [lineStart, Array.getElem?_eq_getElem hi, Option.getD_some, h.lineOf_eq_countP]
  rw [Array.getElem_toList] at hcount
  rw [hcount]
  omega

theorem Aligned.lineOf_le (h : Aligned s) (offset : Nat) : s.lineOf offset ≤ s.lineStarts.size := by
  simpa [h.lineOf_eq_countP] using s.lineStarts.toList.countP_le_length (p := (· ≤ offset))

theorem Aligned.lineOf_mono (h : Aligned s) {a b : Nat} (hab : a ≤ b) : s.lineOf a ≤ s.lineOf b := by
  rw [h.lineOf_eq_countP, h.lineOf_eq_countP]
  refine List.countP_mono_left fun start _ hstart => ?_
  simp only [decide_eq_true_eq] at hstart ⊢
  omega

theorem lineOf_pos (s : Source) (offset : Nat) : 0 < s.lineOf offset := Nat.succ_pos _

theorem Aligned.lineStart_lineOf_le (h : Aligned s) (offset : Nat) :
    s.lineStart (s.lineOf offset) ≤ offset :=
  (h.lineStart_le_iff (s.lineOf_pos offset) (h.lineOf_le offset) offset).mpr (Nat.le_refl _)

theorem Aligned.lineOf_lineStart (h : Aligned s) (offset : Nat) :
    s.lineOf (s.lineStart (s.lineOf offset)) = s.lineOf offset :=
  Nat.le_antisymm (h.lineOf_mono (h.lineStart_lineOf_le offset))
    ((h.lineStart_le_iff (s.lineOf_pos offset) (h.lineOf_le offset) _).mp (Nat.le_refl _))

/-- The depth of brackets that the text from `start` on has reached at the start of a line. -/
def depthAtLine (s : Source) (start line : Nat) : Int :=
  Byte.total Byte.depthStep (s.bare start (s.lineStart line))

/-- A line that is not blank and indented by at most `base`. -/
def Outdented (s : Source) (base line : Nat) : Prop :=
  (Text.trim (s.codeLine line)).isEmpty = false ∧ indentWidth (s.codeLine line) ≤ base

theorem firstClosedLine_spec (s : Source) (start count line : Nat) :
    line ≤ firstClosedLine s start count line ∧
      firstClosedLine s start count line ≤ line + count ∧
      (∀ l, line ≤ l → l < firstClosedLine s start count line → 0 < s.depthAtLine start l) ∧
      (firstClosedLine s start count line < line + count →
        s.depthAtLine start (firstClosedLine s start count line) ≤ 0) := by
  induction count generalizing line with
  | zero =>
    rw [firstClosedLine]
    exact ⟨Nat.le_refl _, Nat.le_refl _, by omega, by omega⟩
  | succ count ih =>
    rw [firstClosedLine, ← depthAtLine]
    by_cases hopen : 0 < s.depthAtLine start line
    · obtain ⟨hle, hub, hbefore, hat⟩ := ih (line + 1)
      rw [if_pos hopen]
      refine ⟨by omega, by omega, fun l hl hlt => ?_, fun hlt => hat (by omega)⟩
      rcases Nat.eq_or_lt_of_le hl with rfl | hl
      · exact hopen
      · exact hbefore l hl hlt
    · rw [if_neg hopen]
      exact ⟨Nat.le_refl _, by omega, by omega, fun _ => by omega⟩

/-- A block's search passes `line` exactly if the brackets are closed at some line up to it. -/
theorem firstClosedLine_le_iff {start count line l : Nat} (hl : l < line + count) :
    firstClosedLine s start count line ≤ l ↔ ∃ k, line ≤ k ∧ k ≤ l ∧ s.depthAtLine start k ≤ 0 := by
  obtain ⟨hle, hub, hbefore, hat⟩ := firstClosedLine_spec s start count line
  constructor
  · intro h
    exact ⟨_, hle, h, hat (by omega)⟩
  · rintro ⟨k, hk, hkl, hdepth⟩
    by_contra hgt
    have := hbefore k hk (by omega)
    omega

/-- The search for an outdented line from `line` on to the last ends up to an offset exactly if there
is one up to the line of the offset. -/
theorem Aligned.firstOutdent?_le_iff (h : Aligned s) {base count line offset : Nat}
    (hpos : 0 < line) (hlast : line + count = s.lineStarts.size + 1)
    (hoffset : offset < s.text.size) :
    (firstOutdent? s base count line).getD s.text.size ≤ offset ↔
      ∃ l, line ≤ l ∧ l ≤ s.lineOf offset ∧ Outdented s base l := by
  have hub := h.lineOf_le offset
  induction count generalizing line with
  | zero =>
    rw [firstOutdent?, Option.getD_none]
    constructor
    · omega
    · rintro ⟨l, hl, hlo, -⟩
      omega
  | succ count ih =>
    have hstart := h.lineStart_le_iff hpos (by omega) offset
    rw [firstOutdent?]
    split
    · next hout =>
      have hline : Outdented s base line := by simpa [Outdented] using hout
      rw [Option.getD_some, hstart]
      exact ⟨fun hle => ⟨line, Nat.le_refl _, hle, hline⟩, fun ⟨l, hl, hlo, _⟩ => by omega⟩
    · next hin =>
      have hline : ¬Outdented s base line := by simpa [Outdented] using hin
      have hpos' : 0 < line + 1 := by omega
      refine (ih hpos' (by omega)).trans ⟨?_, ?_⟩
      · rintro ⟨l, hl, hlo, hout⟩
        exact ⟨l, by omega, hlo, hout⟩
      · rintro ⟨l, hl, hlo, hout⟩
        have hne : line ≠ l := fun heq => hline (heq ▸ hout)
        exact ⟨l, by omega, hlo, hout⟩

/-- The block that the line of `header` opens is over at `offset`: after the header's line the
brackets are closed at the start of some line, and that line or a later one, up to the line of
`offset`, is not blank and not indented deeper than the header's. -/
def BlockOver (s : Source) (header offset : Nat) : Prop :=
  ∃ closed line, s.lineOf header < closed ∧ closed ≤ line ∧ line ≤ s.lineOf offset ∧
    s.depthAtLine (s.lineStart (s.lineOf header)) closed ≤ 0 ∧
    Outdented s (indentWidth (s.codeLine (s.lineOf header))) line

/-- A block ends up to an offset exactly if it is over there. -/
theorem Aligned.blockEnd_le_iff (h : Aligned s) {header offset : Nat}
    (hoffset : offset < s.text.size) :
    s.blockEnd header ≤ offset ↔ BlockOver s header offset := by
  have hheader := h.lineOf_le header
  have hline := h.lineOf_le offset
  set body := firstClosedLine s (s.lineStart (s.lineOf header))
    (s.lineStarts.size - s.lineOf header) (s.lineOf header + 1) with hbody
  obtain ⟨hle, hub, -⟩ := firstClosedLine_spec s (s.lineStart (s.lineOf header))
    (s.lineStarts.size - s.lineOf header) (s.lineOf header + 1)
  rw [← hbody] at hle hub
  change (firstOutdent? s _ (s.lineStarts.size + 1 - body) body).getD s.text.size ≤ offset ↔ _
  rw [h.firstOutdent?_le_iff (by omega) (by omega) hoffset]
  constructor
  · rintro ⟨line, hl, hlo, hout⟩
    obtain ⟨closed, hc, hcl, hdepth⟩ := (firstClosedLine_le_iff (by omega)).mp hl
    exact ⟨closed, line, hc, hcl, hlo, hdepth, hout⟩
  · rintro ⟨closed, line, hc, hcl, hlo, hdepth, hout⟩
    exact ⟨line, (firstClosedLine_le_iff (by omega)).mpr ⟨closed, hc, hcl, hdepth⟩, hlo, hout⟩

end Concord.Source
