import Concord.Proofs.Alignment
import Concord.Proofs.Greedy
import Concord.Proofs.Headers
import Concord.Proofs.PieceStarts
import Concord.Proofs.Rereading

/-! The body of a class is cut at line breaks, and those inside a literal count as well. A line of a
literal becomes a member exactly if the literal stands outside the brackets of the body and the line
starts at the column of the body's first line. -/
namespace Concord.Source

open Text

variable {s : Source}

/-- A literal of the text takes up the bytes from `l` up to `r`. -/
def LiteralBetween (content : String) (l r : Nat) : Prop :=
  ∃ us o b c vs, (tokens Language.python.lexis none (encode content.toList)).1 =
      us ++ .literal o b c :: vs ∧
    l = (us.flatMap Token.text).length ∧ r = l + (o ++ b ++ c).length

def IsQuote (b : UInt8) : Prop := b = Byte.doubleQuote ∨ b = Byte.singleQuote

theorem IsQuote.visible {b : UInt8} (h : IsQuote b) : Visible b := by
  rcases h with rfl | rfl <;> decide

theorem IsQuote.spec {b : UInt8} (h : IsQuote b) :
    b.toNat < 0x80 ∧ b ≠ Byte.space ∧ b ≠ Byte.colon ∧ Byte.isOpener b = false ∧
      Byte.isCloser b = false ∧ isBlank (Char.ofNat b.toNat) = false := by
  rcases h with rfl | rfl <;> decide

theorem quotes_of_literal {last : Option UInt8} {bytes : List UInt8} {ts : List Token}
    (h : tokens Language.python.lexis last bytes = (ts, none)) {o b c : List UInt8}
    (ht : .literal o b c ∈ ts) : o ≠ [] ∧ ∀ x ∈ o ++ c, IsQuote x := by
  refine tokens_induction (P := fun _ ts => ∀ o b c, Token.literal o b c ∈ ts →
    o ≠ [] ∧ ∀ x ∈ o ++ c, IsQuote x) (asciiMarks_lexis .python) (by simp) ?_ h o b c ht
  intro last b rest t us after htoken hcut ih o body c hmem
  rcases List.mem_cons.mp hmem with rfl | hmem
  · rcases tokenAt_cases htoken with hcomment | hliteral | hplain
    · rcases commentAt_sound hcomment with ⟨_, _, -, heq, -⟩ | ⟨_, _, _, _, -, heq, -⟩ <;> cases heq
    · rcases (rereadable_lexis (by decide)).literalAt_cases hliteral with
        ⟨q, _, hq, -, heq⟩ | ⟨_, -, hquote, -, heq⟩
      · cases heq
        obtain ⟨-, hq, -⟩ := tripleQuote?_eq_some_iff.mp hq
        rcases hq with rfl | rfl <;> simp [IsQuote]
      · cases heq
        have hb : IsQuote b := by
          simpa [Language.lexis, Lexis.python, IsQuote] using hquote
        simp [hb]
    · cases hplain
  · exact ih o body c hmem

/-- A literal as the skeleton shows it: it starts with a quote, and all of it is quotes, spaces and
line breaks. -/
structure Quoted (s : Source) (l r : Nat) : Prop where
  quote : ∃ b, s.skeleton[l]? = some b ∧ IsQuote b
  shown : ∀ n, l ≤ n → n < r → ∃ b, s.skeleton[n]? = some b ∧ (IsQuote b ∨ ¬Visible b)

theorem quoted_of_literal {path content : String}
    (h : read Language.python.lexis path content = .ok s) {l r : Nat}
    (hl : LiteralBetween content l r) : Quoted s l r := by
  obtain ⟨ts, hts, -, rfl⟩ := read_eq_ok h
  obtain ⟨us, o, b, c, vs, hcut, rfl, rfl⟩ := hl
  rw [hts] at hcut
  obtain rfl : ts = us ++ .literal o b c :: vs := hcut
  obtain ⟨hne, hquotes⟩ := quotes_of_literal hts (by simp : Token.literal o b c ∈ _)
  have hlen : (us.flatMap Token.text).length = (us.flatMap Token.skeleton).length := by
    have hskeleton := masks_flatMap us fun t _ => t.skeleton_masks
    have hcode := masks_flatMap us fun t _ => t.code_masks
    rw [hskeleton.length_eq, hcode.length_eq]
  have hshown (k : Nat) (hk : k < (o ++ b ++ c).length) :
      ((us ++ .literal o b c :: vs).flatMap Token.skeleton).toArray[(us.flatMap Token.text).length + k]? =
        (o ++ b.map Byte.hide ++ c)[k]? := by
    rw [List.getElem?_toArray, List.flatMap_append, List.flatMap_cons, hlen,
      List.getElem?_append_right (by omega), Nat.add_sub_cancel_left,
      List.getElem?_append_left (by simpa [Token.skeleton] using hk)]
    rfl
  constructor
  · obtain ⟨q, o, rfl⟩ := List.exists_cons_of_ne_nil hne
    refine ⟨q, ?_, hquotes q (by simp)⟩
    simpa using hshown 0 (by simp)
  · intro n hn hlt
    obtain ⟨k, rfl⟩ := Nat.exists_eq_add_of_le hn
    have hk : k < (o ++ b ++ c).length := by omega
    have hk' : k < (o ++ b.map Byte.hide ++ c).length := by simpa using hk
    refine ⟨_, (hshown k hk).trans (List.getElem?_eq_getElem hk'), ?_⟩
    have hmem := List.getElem_mem hk'
    rcases List.mem_append.mp hmem with hmem | hmem
    · rcases List.mem_append.mp hmem with hmem | hmem
      · exact .inl (hquotes _ (List.mem_append_left _ hmem))
      · obtain ⟨x, -, hx⟩ := List.mem_map.mp hmem
        right
        rw [← hx]
        intro hvisible
        exact absurd (hide_eq x) (not_or.mpr hvisible)
    · exact .inl (hquotes _ (List.mem_append_right _ hmem))

namespace Quoted

variable {l r : Nat}

theorem shown_spec (h : Quoted s l r) {n : Nat} (hl : l ≤ n) (hr : n < r) :
    ∃ b, s.skeleton[n]? = some b ∧ b ≠ Byte.colon ∧ Byte.depthStep b = 0 := by
  obtain ⟨b, hb, hcases⟩ := h.shown n hl hr
  refine ⟨b, hb, ?_⟩
  rcases hcases with hquote | hhidden
  · obtain ⟨-, -, hcolon, ho, hc, -⟩ := hquote.spec
    exact ⟨hcolon, depthStep_eq_zero ho hc⟩
  · have hcases : b = Byte.space ∨ b = Byte.newline := by
      by_contra hnot
      exact hhidden (not_or.mp hnot)
    rcases hcases with rfl | rfl <;> decide

theorem depth_eq (h : Quoted s l r) {start n : Nat} (hstart : start ≤ l) (hl : l ≤ n) (hr : n ≤ r) :
    Byte.total Byte.depthStep (s.bare start n) = Byte.total Byte.depthStep (s.bare start l) := by
  induction n, hl using Nat.le_induction with
  | base => rfl
  | succ n hl ih =>
    obtain ⟨b, hb, -, hzero⟩ := h.shown_spec hl hr
    rw [s.bare_append (Nat.le_trans hstart hl) (Nat.le_succ n), bare_singleton hb, total_append,
      ih (Nat.le_of_succ_le hr)]
    simp [hzero]

theorem le_of_colon (h : Quoted s l r) {colon : Nat} (hcolon : s.skeleton[colon]? = some Byte.colon)
    (hr : colon < r) : colon + 1 ≤ l := by
  by_contra hlt
  obtain ⟨b, hb, hne, -⟩ := h.shown_spec (by omega) hr
  exact hne (Option.some.inj (hb.symm.trans hcolon))

/-- A range that starts before a literal has its first character no later than the quote. -/
theorem firstAt_le (h : Quoted s l r) (hs : Aligned s) {a stop i : Nat} (ha : Whole s ⟨a, stop⟩)
    (hal : a ≤ l) (hfirst : FirstAt s a stop i) : i ≤ l := by
  by_contra hlt
  obtain ⟨b, hb, hquote⟩ := h.quote
  obtain ⟨hascii, hspace, -, -, -, hblank⟩ := hquote.spec
  have hcode := hs.code_of_skeleton hb hspace
  have hat := hs.boundary_at_ascii hcode hascii
  have hstop : l < stop := by
    have := hfirst.2
    omega
  obtain ⟨hbefore, hafter⟩ := ha.split hal (Nat.le_of_lt hstop) hat
  have hself := (hs.firstAt_self_iff hcode hascii hafter hstop).mpr hblank
  have := (hfirst.drop_start hbefore hafter (by omega)).unique hself
  omega

/-- A place inside a literal starts a logical line exactly if it is the first character after one of
the line breaks of the literal and the literal stands outside brackets. -/
theorem exists_line_iff (h : Quoted s l r) (hs : Aligned s) {start stop i : Nat}
    (hrange : Whole s ⟨start, stop⟩) (hstart : start ≤ l) (hl : l < i) (hr : i < r) :
    (∃ q ∈ s.pieces start stop Byte.newline, q.start = i) ↔
      Byte.total Byte.depthStep (s.bare start l) = 0 ∧
      ∃ n, l < n ∧ s.skeleton[n]? = some Byte.newline ∧ FirstAt s (n + 1) stop i := by
  rw [hs.exists_line_iff hrange]
  constructor
  · rintro ⟨a, ha, hfirst⟩
    have hla : l < a := by
      by_contra hle
      have := h.firstAt_le hs (hs.whole_from hrange ha).2 (Nat.le_of_not_lt hle) hfirst
      omega
    have hai := hfirst.start_le
    rcases ha with rfl | ⟨n, rfl, -, -, hnewline, hdepth⟩
    · omega
    · have hne : n ≠ l := by
        rintro rfl
        obtain ⟨b, hb, hquote⟩ := h.quote
        exact hquote.visible.2 (Option.some.inj (hb.symm.trans hnewline))
      rw [h.depth_eq hstart (by omega) (by omega)] at hdepth
      exact ⟨hdepth, n, by omega, hnewline, hfirst⟩
  · rintro ⟨hdepth, n, hln, hnewline, hfirst⟩
    have hni := hfirst.start_le
    have hstop := hfirst.2
    rw [← h.depth_eq hstart (Nat.le_of_lt hln) (by omega)] at hdepth
    exact ⟨n + 1, .inr ⟨n, rfl, by omega, by omega, hnewline, hdepth⟩, hfirst⟩

end Quoted

namespace Aligned

theorem boundary_size (h : Aligned s) : Boundary s s.text.size := by
  rw [Boundary, ← h.code_size, List.take_of_length_le (by simp)]
  exact h.code_utf8

theorem boundary_lineStart (h : Aligned s) (line : Nat) :
    Boundary s (s.lineStart line) ∧ s.lineStart line ≤ s.code.size := by
  rcases h.lineStart_cases line with hlast | hfirst | ⟨n, hn, hnewline⟩
  · rw [hlast]
    exact ⟨h.boundary_size, Nat.le_of_eq h.code_size.symm⟩
  · rw [hfirst]
    exact ⟨isUtf8_nil, Nat.zero_le _⟩
  · have hcode : s.code[n]? = some Byte.newline := by
      rw [← Array.getElem?_toList]
      exact h.code_masks.newline_iff.mpr hnewline
    obtain ⟨hlt, -⟩ := Array.getElem?_eq_some_iff.mp hcode
    rw [hn]
    exact ⟨h.boundary_after_ascii hcode (by decide), hlt⟩

theorem boundary_blockEnd (h : Aligned s) (header : Nat) :
    Boundary s (s.blockEnd header) ∧ s.blockEnd header ≤ s.code.size := by
  have hline {base count line stop : Nat} (hstop : firstOutdent? s base count line = some stop) :
      ∃ k, stop = s.lineStart k := by
    induction count generalizing line with
    | zero => simp [firstOutdent?] at hstop
    | succ count ih =>
      rw [firstOutdent?] at hstop
      split at hstop
      · exact ⟨line, (Option.some.inj hstop).symm⟩
      · exact ih hstop
  unfold blockEnd
  dsimp only
  generalize hout : firstOutdent? s _ _ _ = out
  cases out with
  | none => exact ⟨h.boundary_size, Nat.le_of_eq h.code_size.symm⟩
  | some stop =>
    obtain ⟨k, rfl⟩ := hline hout
    exact h.boundary_lineStart k

end Aligned

end Concord.Source

namespace Concord.Python

open Source Text Pattern

variable {s : Source}

theorem whole_body (hs : Aligned s) {header colon : Nat} (hcolon : headerColon? s header = some colon)
    (hle : colon + 1 ≤ s.blockEnd header) : Whole s ⟨colon + 1, s.blockEnd header⟩ := by
  obtain ⟨hboundary, hsize⟩ := hs.boundary_blockEnd header
  have hcode := hs.code_of_skeleton (headerColon?_eq_some hcolon) (by decide)
  exact ⟨hle, hsize, hs.boundary_after_ascii hcode (by decide), hboundary⟩

theorem exists_member_iff (hs : Aligned s) {start stop i : Nat} (h : Whole s ⟨start, stop⟩) :
    (∃ q ∈ blockMembers s start stop, q.start = i) ↔
      (∃ q ∈ s.pieces start stop Byte.newline, q.start = i) ∧
      ∃ j, FirstAt s start stop j ∧ (s.place i).column = (s.place j).column := by
  unfold blockMembers
  cases hlines : s.pieces start stop Byte.newline with
  | nil => simp
  | cons p ps =>
    have hfirst := hs.first_line h hlines
    simp only [List.mem_filter, beq_iff_eq]
    constructor
    · rintro ⟨q, ⟨hq, hcolumn⟩, rfl⟩
      exact ⟨⟨q, hq, rfl⟩, p.start, hfirst, hcolumn⟩
    · rintro ⟨⟨q, hq, rfl⟩, j, hj, hcolumn⟩
      rw [hj.unique hfirst] at hcolumn
      exact ⟨q, ⟨hq, hcolumn⟩, rfl⟩

theorem blockMembers_of_lt {start stop : Nat} (h : stop < start) : blockMembers s start stop = [] := by
  have hbare : s.bare start stop = [] := by
    simp [Source.bare]
    omega
  have hpieces : s.pieces start stop Byte.newline = [] := by
    have htrim : s.trimSpan? ⟨start, stop⟩ = none := by
      rw [trimSpan?]
      simp
      omega
    simp [Source.pieces, hbare, topLevelCuts, spansBetween, htrim]
  rw [blockMembers, hpieces]

/-- A line of a literal that is taken for a member: the literal stands in the body outside its
brackets, and the first character after one of its line breaks is at the column of the body's first
character. -/
structure Spills (s : Source) (start stop l i : Nat) : Prop where
  start_le : start ≤ l
  outside : Byte.total Byte.depthStep (s.bare start l) = 0
  line : ∃ n, l < n ∧ s.text[n]? = some Byte.newline ∧ FirstAt s (n + 1) stop i
  column : ∃ j, FirstAt s start stop j ∧ (s.place i).column = (s.place j).column

theorem exists_member_iff_spills {path content : String}
    (h : read Language.python.lexis path content = .ok s) {header colon : Nat}
    (hcolon : headerColon? s header = some colon) {l r i : Nat} (hl : LiteralBetween content l r)
    (hli : l < i) (hir : i < r) :
    (∃ q ∈ blockMembers s (colon + 1) (s.blockEnd header), q.start = i) ↔
      Spills s (colon + 1) (s.blockEnd header) l i := by
  have hs := aligned_of_read h
  have hquoted := quoted_of_literal h hl
  have hnewline := (laidOut_of_read h).skeleton_newline
  by_cases hle : colon + 1 ≤ s.blockEnd header
  · have hbody := whole_body hs hcolon hle
    rw [exists_member_iff hs hbody]
    constructor
    · rintro ⟨hline, hcolumn⟩
      obtain ⟨q, hq, hqi⟩ := hline
      have hafter := ((hs.layout_lines hbody).within q hq).1
      have hstart := hquoted.le_of_colon (headerColon?_eq_some hcolon) (by omega)
      obtain ⟨hdepth, n, hn, htext, hfirst⟩ :=
        (hquoted.exists_line_iff hs hbody hstart hli hir).mp ⟨q, hq, hqi⟩
      exact ⟨hstart, hdepth, ⟨n, hn, (hnewline n).mp htext, hfirst⟩, hcolumn⟩
    · rintro ⟨hstart, hdepth, ⟨n, hn, htext, hfirst⟩, hcolumn⟩
      exact ⟨(hquoted.exists_line_iff hs hbody hstart hli hir).mpr
        ⟨hdepth, n, hn, (hnewline n).mpr htext, hfirst⟩, hcolumn⟩
  · rw [blockMembers_of_lt (Nat.lt_of_not_le hle)]
    constructor
    · simp
    · intro hspills
      obtain ⟨j, hj, -⟩ := hspills.column
      have := hj.start_le
      have := hj.2
      omega

/-- A member that starts with the quote of a literal declares neither a field nor a value. -/
theorem declares_nothing (hs : Aligned s) {start stop : Nat} (h : Whole s ⟨start, stop⟩) {q : Span}
    (hq : q ∈ blockMembers s start stop) {r : Nat} (hquoted : Quoted s q.start r) :
    (∀ typedDict total, memberField? s typedDict total q = none) ∧
      enumValue? (s.spanText q) = none := by
  obtain ⟨b, hb, hquote⟩ := hquoted.quote
  obtain ⟨hascii, hspace, -, -, -, -⟩ := hquote.spec
  have hline : q ∈ s.pieces start stop Byte.newline := by
    unfold blockMembers at hq
    split at hq
    · simp at hq
    · next hlines => rw [hlines]; exact List.mem_of_mem_filter hq
  have hlayout := hs.layout_spansBetween h hs.cutsOf_lines
  obtain ⟨p, hp, hpq⟩ := List.mem_filterMap.mp hline
  obtain ⟨hwhole, -, hlt, -⟩ := (hlayout.whole p hp).trimSpan?_sound hpq
  obtain ⟨before, after, htext, hbefore⟩ :=
    hwhole.split_at (Nat.le_refl _) hlt (hs.code_of_skeleton hb hspace) hascii
  have hempty : before = [] := by
    cases before with
    | nil => rfl
    | cons c before =>
      have := c.utf8Size_pos
      rw [byteSize_cons] at hbefore
      omega
  rw [hempty, List.nil_append] at htext
  have hmember : member.find? (s.spanText q) = none := by
    rw [htext]
    refine find?_eq_none_of_head rfl ?_ after
    rcases hquote with rfl | rfl <;> decide +kernel
  have henum : enumMember.find? (s.spanText q) = none := by
    rw [htext]
    refine find?_eq_none_of_head rfl ?_ after
    rcases hquote with rfl | rfl <;> decide +kernel
  constructor
  · intro typedDict total
    rw [memberField?, hmember]
    rfl
  · rw [enumValue?, henum]
    rfl

/-- A member of a class starts inside a literal exactly where a line of the literal spills, so members
are made of code alone exactly if no literal of the body does. A member that starts with a literal
declares nothing. -/
theorem members_outside_literals_iff {path content : String} {s : Source}
    (h : read Language.python.lexis path content = .ok s) {header colon : Nat}
    (hcolon : headerColon? s header = some colon) :
    (∀ l r i, LiteralBetween content l r → l < i → i < r →
      ((∃ q ∈ blockMembers s (colon + 1) (s.blockEnd header), q.start = i) ↔
        Spills s (colon + 1) (s.blockEnd header) l i)) ∧
    ((∀ q ∈ blockMembers s (colon + 1) (s.blockEnd header), ∀ l r, LiteralBetween content l r →
        ¬(l < q.start ∧ q.start < r)) ↔
      ∀ l r i, LiteralBetween content l r → l < i → i < r →
        ¬Spills s (colon + 1) (s.blockEnd header) l i) ∧
    ∀ q ∈ blockMembers s (colon + 1) (s.blockEnd header), ∀ r, LiteralBetween content q.start r →
      (∀ typedDict total, memberField? s typedDict total q = none) ∧
        enumValue? (s.spanText q) = none := by
  have hexact := fun l r i (hl : LiteralBetween content l r) hli hir =>
    exists_member_iff_spills (i := i) h hcolon hl hli hir
  refine ⟨hexact, ⟨?_, ?_⟩, ?_⟩
  · intro hclear l r i hl hli hir hspills
    obtain ⟨q, hq, rfl⟩ := (hexact l r i hl hli hir).mpr hspills
    exact hclear q hq l r hl ⟨hli, hir⟩
  · rintro hnone q hq l r hl ⟨hlq, hqr⟩
    exact hnone l r q.start hl hlq hqr ((hexact l r q.start hl hlq hqr).mp ⟨q, hq, rfl⟩)
  · intro q hq r hl
    have hs := aligned_of_read h
    have hle : colon + 1 ≤ s.blockEnd header := by
      by_contra hlt
      rw [blockMembers_of_lt (Nat.lt_of_not_le hlt)] at hq
      simp at hq
    exact declares_nothing hs (whole_body hs hcolon hle) hq (quoted_of_literal h hl)

def parcel : String := "class Parcel:\n \"\"\"A parcel.\n note: with box\n \"\"\"\n weight: int\n"

theorem literalBetween_parcel : LiteralBetween parcel 15 48 := by
  let ts := (tokens Language.python.lexis none (encode parcel.toList)).1
  let quotes := List.replicate 3 Byte.doubleQuote
  refine ⟨ts.take 15, quotes, encode "A parcel.\n note: with box\n ".toList, quotes, ts.drop 16,
    ?_, ?_, ?_⟩ <;> decide +kernel

/-- The second line of the docstring spills, and it is a field of the class beside the real one. -/
theorem parcel_note_spills :
    ∃ s, read Language.python.lexis "m.py" parcel = .ok s ∧ headerColon? s 6 = some 12 ∧
      LiteralBetween parcel 15 48 ∧ Spills s 13 (s.blockEnd 6) 15 29 ∧
      ((blockMembers s 13 (s.blockEnd 6)).filterMap (memberField? s false true)).map (·.name) =
        ["note", "weight"] := by
  have hview : (read Language.python.lexis "m.py" parcel).map (fun s =>
      (headerColon? s 6, (blockMembers s 13 (s.blockEnd 6)).map (·.start),
        ((blockMembers s 13 (s.blockEnd 6)).filterMap (memberField? s false true)).map (·.name))) =
      .ok (some 12, [15, 29, 45, 50], ["note", "weight"]) := by decide +kernel
  cases hread : read Language.python.lexis "m.py" parcel with
  | error e => simp [hread, Except.map] at hview
  | ok s =>
    rw [hread] at hview
    obtain ⟨hcolon, hview⟩ := Prod.mk.inj (Except.ok.inj hview)
    obtain ⟨hstarts, hfields⟩ := Prod.mk.inj hview
    have hmember : ∃ q ∈ blockMembers s 13 (s.blockEnd 6), q.start = 29 :=
      List.mem_map.mp (by rw [hstarts]; decide)
    have hspills := ((members_outside_literals_iff hread hcolon).1 15 48 29 literalBetween_parcel
      (by decide) (by decide)).mp hmember
    exact ⟨s, rfl, hcolon, literalBetween_parcel, hspills, hfields⟩

end Concord.Python
