import Concord.Proofs.SpilledLines

/-! A block ends at the first line that is not blank and not indented deeper than its header. The
lines of literals and those inside brackets count as well, once the header itself is closed, so a
block may end inside a literal or between brackets. -/
namespace Concord.Source

open Text

variable {s : Source}

/-- A place of the text on a line that is not blank. -/
structure OnTextLine (s : Source) (x : Nat) : Prop where
  lt_size : x < s.text.size
  shown : (trim (s.codeLine (s.lineOf x))).isEmpty = false

/-- The line of an offset starts outside all brackets. -/
def OutsideBrackets (s : Source) (x : Nat) : Prop :=
  Byte.total Byte.depthStep (s.bare 0 (s.lineStart (s.lineOf x))) = 0

/-- The block of `header` ends after `i` and up to `k`. -/
def EndsBetween (s : Source) (header i k : Nat) : Prop :=
  ¬BlockOver s header i ∧ BlockOver s header k

namespace Aligned

variable {header : Nat}

theorem endsBetween_iff (h : Aligned s) {i k : Nat} (hi : i < s.text.size) (hk : k < s.text.size) :
    EndsBetween s header i k ↔ i < s.blockEnd header ∧ s.blockEnd header ≤ k := by
  rw [EndsBetween, ← h.blockEnd_le_iff hi, ← h.blockEnd_le_iff hk, Nat.not_le]

theorem blockEnd_le_size (h : Aligned s) (header : Nat) : s.blockEnd header ≤ s.text.size :=
  h.code_size ▸ (h.boundary_blockEnd header).2

theorem lt_blockEnd (h : Aligned s) (hheader : header < s.text.size) : header < s.blockEnd header := by
  refine Nat.lt_of_not_le fun hle => ?_
  obtain ⟨closed, line, hclosed, hline, hlast, -⟩ := (h.blockEnd_le_iff hheader).mp hle
  omega

/-- A block that ends before the text does ends where an outdented line starts. -/
theorem exists_outdented (h : Aligned s) (hend : s.blockEnd header < s.text.size) :
    ∃ closed line, s.lineOf header < closed ∧ closed ≤ line ∧ s.lineStart line = s.blockEnd header ∧
      line ≤ s.lineOf (s.blockEnd header) ∧
      s.depthAtLine (s.lineStart (s.lineOf header)) closed ≤ 0 ∧
      Outdented s (indentWidth (s.codeLine (s.lineOf header))) line := by
  obtain ⟨closed, line, hclosed, hcl, hline, hover⟩ := (h.blockEnd_le_iff hend).mp (Nat.le_refl _)
  have hstart := h.lineStart_le_iff (Nat.lt_of_lt_of_le (Nat.zero_lt_of_lt hclosed) hcl)
    (Nat.le_trans hline (h.lineOf_le _))
  have hle := (hstart _).mpr hline
  have hlast := (h.blockEnd_le_iff (Nat.lt_of_le_of_lt hle hend)).mpr
    ⟨closed, line, hclosed, hcl, (hstart _).mp (Nat.le_refl _), hover⟩
  exact ⟨closed, line, hclosed, hcl, Nat.le_antisymm hle hlast, hline, hover⟩

end Aligned

theorem LiteralBetween.within {path content : String} {l r : Nat} (hl : LiteralBetween content l r)
    (h : read Language.python.lexis path content = .ok s) : l < r ∧ r ≤ s.text.size := by
  obtain ⟨ts, hts, -, rfl⟩ := read_eq_ok h
  obtain ⟨us, o, b, c, vs, hcut, rfl, rfl⟩ := hl
  rw [hts] at hcut
  obtain rfl : ts = us ++ .literal o b c :: vs := hcut
  have hne := (quotes_of_literal hts (by simp : Token.literal o b c ∈ _)).1
  have hlen := congrArg List.length (flatMap_text_tokens (asciiMarks_lexis .python) hts)
  have hpos := List.length_pos_of_ne_nil hne
  simp [Token.text] at hlen ⊢
  omega

/-- The brackets of a block are balanced unless it ends between the brackets of a pair. -/
theorem nested_block_iff (hs : Aligned s) (hn : Nested s.skeleton.toList) {header : Nat}
    (hheader : header < s.text.size) (hout : OutsideBrackets s header) :
    Nested (s.bare (s.lineStart (s.lineOf header)) (s.blockEnd header)) ↔
      ∀ i k, s.closing? i = some k → s.lineStart (s.lineOf header) ≤ i → ¬EndsBetween s header i k := by
  have hstart := hs.lineStart_lineOf_le header
  have hend := hs.lt_blockEnd hheader
  have hsize := hs.blockEnd_le_size header
  rw [← hs.skeleton_size] at hsize
  have hcut (j : Nat) (hj : j ≤ s.skeleton.size) :
      s.skeleton.toList = s.bare 0 j ++ s.bare j s.skeleton.size := by
    rw [← s.bare_append (Nat.zero_le j) hj]
    simp [bare]
  have hends {i k : Nat} (hpair : Encloses s.skeleton.toList i k) :
      EndsBetween s header i k ↔ i < s.blockEnd header ∧ s.blockEnd header ≤ k := by
    have hlt := hpair.lt
    obtain ⟨o, c, -, hc, -⟩ := hpair.closingFrom?
    obtain ⟨hk, -⟩ := List.getElem?_eq_some_iff.mp hc
    rw [Array.length_toList, hs.skeleton_size] at hk
    exact hs.endsBetween_iff (Nat.lt_trans hlt hk) hk
  constructor
  · intro hblock i k hclose hi hbetween
    have hpair := (closing?_eq_some_iff hn).mp hclose
    obtain ⟨hie, hek⟩ := (hends hpair).mp hbetween
    rw [hcut _ hsize] at hpair hn
    have hpos := hpair.total_pos hn (by rw [length_bare hsize]; omega) (by rw [length_bare hsize]; omega)
    rw [s.bare_append (Nat.zero_le _) (Nat.le_of_lt (Nat.lt_of_le_of_lt hstart hend)), total_append,
      show Byte.total _ _ = 0 from hout, hblock.total_eq_zero cancels_depthStep] at hpos
    omega
  · intro hpairs
    have hline := hcut (s.lineStart (s.lineOf header)) (by omega)
    have hrest := (hline ▸ hn).of_append hout |>.2
    have hsplit := s.bare_append (i := s.lineStart (s.lineOf header)) (by omega) hsize
    rcases hrest.append_cases hsplit with ⟨hblock, -⟩ | ⟨i, k, hpair, hi, hk⟩
    · exact hblock
    · have hwhole := hpair.append_left (s.bare 0 (s.lineStart (s.lineOf header)))
      rw [← hline, length_bare (by omega), Nat.sub_zero] at hwhole
      rw [length_bare hsize] at hi hk
      refine absurd ((hends hwhole).mpr ⟨by omega, by omega⟩)
        (hpairs _ _ ((closing?_eq_some_iff hn).mpr hwhole) (Nat.le_add_right _ _))

/-- Blocks are disjoint or nested if the outer one does not end between brackets. -/
theorem blockEnd_le_of_nested (hs : Aligned s) {header inner : Nat} (hinner : OnTextLine s inner)
    (hlt : header < inner) (hout : OutsideBrackets s header) (hout' : OutsideBrackets s inner)
    (hblock : Nested (s.bare (s.lineStart (s.lineOf header)) (s.blockEnd header))) :
    s.blockEnd header ≤ inner ∨ s.blockEnd inner ≤ s.blockEnd header := by
  refine (Nat.lt_or_ge inner (s.blockEnd header)).symm.imp_right fun hin => ?_
  rcases Nat.eq_or_lt_of_le (hs.blockEnd_le_size header) with hall | hend
  · exact hall ▸ hs.blockEnd_le_size inner
  rcases Nat.eq_or_lt_of_le (hs.lineOf_mono (Nat.le_of_lt hlt)) with hsame | hbelow
  · simp [blockEnd, hsame]
  have hnot : ¬BlockOver s header inner := by
    rw [← hs.blockEnd_le_iff hinner.lt_size]
    omega
  have hstart := hs.lineStart_lineOf_le inner
  have hstarts : s.lineStart (s.lineOf header) ≤ s.lineStart (s.lineOf inner) := by
    rw [hs.lineStart_le_iff (s.lineOf_pos _) (hs.lineOf_le _), hs.lineOf_lineStart]
    exact Nat.le_of_lt hbelow
  have hbetween : s.depthAtLine (s.lineStart (s.lineOf header)) (s.lineOf inner) = 0 := by
    rw [OutsideBrackets, s.bare_append (Nat.zero_le _) hstarts, total_append,
      show Byte.total _ _ = 0 from hout] at hout'
    simpa [depthAtLine] using hout'
  -- the inner header is indented deeper, so what ends the outer block ends the inner one as well
  have hdeeper : indentWidth (s.codeLine (s.lineOf header)) < indentWidth (s.codeLine (s.lineOf inner)) := by
    refine Nat.lt_of_not_le fun hle => hnot ?_
    exact ⟨_, _, hbelow, Nat.le_refl _, Nat.le_refl _, Int.le_of_eq hbetween, hinner.shown, hle⟩
  obtain ⟨closed, line, hclosed, hcl, hfrom, hline, hdepth, hshown, hindent⟩ := hs.exists_outdented hend
  have hafter : s.lineOf inner < line :=
    Nat.lt_of_not_le fun hle => hnot ⟨closed, line, hclosed, hcl, hle, hdepth, hshown, hindent⟩
  have hinside : s.depthAtLine (s.lineStart (s.lineOf inner)) line = 0 := by
    have htotal := hblock.total_eq_zero cancels_depthStep
    rw [s.bare_append hstarts (by omega), total_append, ← depthAtLine, hbetween, ← hfrom] at htotal
    simpa [depthAtLine] using htotal
  exact (hs.blockEnd_le_iff hend).mpr ⟨line, line, hafter, Nat.le_refl _, hline, Int.le_of_eq hinside,
    hshown, by omega⟩

/-- The block of a header ends strictly inside a literal exactly if it is over at the last byte of the
literal and not at the first. If the header's line starts outside brackets, the brackets from there to
the end of the block are balanced exactly if it does not end between the brackets of a pair, and then
a block that starts inside ends inside. -/
theorem block_end_cuts_iff {path content : String} {s : Source}
    (h : read Language.python.lexis path content = .ok s) {header : Nat} (hheader : OnTextLine s header) :
    (∀ l r, LiteralBetween content l r →
      (l < s.blockEnd header ∧ s.blockEnd header < r ↔ EndsBetween s header l (r - 1))) ∧
    (OutsideBrackets s header →
      (Nested (s.bare (s.lineStart (s.lineOf header)) (s.blockEnd header)) ↔
        ∀ i k, s.closing? i = some k → s.lineStart (s.lineOf header) ≤ i → ¬EndsBetween s header i k) ∧
      (Nested (s.bare (s.lineStart (s.lineOf header)) (s.blockEnd header)) → ∀ inner, header < inner →
        OnTextLine s inner → OutsideBrackets s inner →
          s.blockEnd header ≤ inner ∨ s.blockEnd inner ≤ s.blockEnd header)) := by
  have hs := aligned_of_read h
  refine ⟨fun l r hl => ?_, fun hout =>
    ⟨nested_block_iff hs (nested_of_read h) hheader.lt_size hout,
      fun hblock inner hlt hinner hout' => blockEnd_le_of_nested hs hinner hlt hout hout' hblock⟩⟩
  obtain ⟨hlr, hr⟩ := hl.within h
  rw [hs.endsBetween_iff (by omega) (by omega)]
  omega

/-- A function with a literal whose second line is not indented. -/
def banner : String := "def f():\n a = \"\"\"\nb\n\"\"\"\n return a\n"

theorem literalBetween_banner : LiteralBetween banner 14 23 := by
  let ts := (tokens Language.python.lexis none (encode banner.toList)).1
  let quotes := List.replicate 3 Byte.doubleQuote
  refine ⟨ts.take 14, quotes, encode "\nb\n".toList, quotes, ts.drop 15, ?_, ?_, ?_⟩ <;> decide +kernel

/-- The function ends where the second line of the literal starts. -/
theorem banner_ends_in_literal :
    ∃ s, read Language.python.lexis "m.py" banner = .ok s ∧ OnTextLine s 0 ∧ LiteralBetween banner 14 23 ∧
      s.blockEnd 0 = 18 ∧ EndsBetween s 0 14 22 := by
  have hview : (read Language.python.lexis "m.py" banner).map (fun s =>
      (decide (0 < s.text.size), (trim (s.codeLine (s.lineOf 0))).isEmpty, s.blockEnd 0)) =
      .ok (true, false, 18) := by decide +kernel
  cases hread : read Language.python.lexis "m.py" banner with
  | error e => simp [hread, Except.map] at hview
  | ok s =>
    rw [hread] at hview
    obtain ⟨hsize, hview⟩ := Prod.mk.inj (Except.ok.inj hview)
    obtain ⟨hshown, hend⟩ := Prod.mk.inj hview
    have hheader : OnTextLine s 0 := ⟨of_decide_eq_true hsize, hshown⟩
    have hends := ((block_end_cuts_iff hread hheader).1 14 23 literalBetween_banner).mp
      (by rw [hend]; decide)
    exact ⟨s, rfl, hheader, literalBetween_banner, hend, hends⟩

end Concord.Source
