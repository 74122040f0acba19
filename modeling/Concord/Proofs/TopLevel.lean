import Concord.Proofs.Alignment
import Concord.Proofs.PieceStarts
import Concord.Proofs.Rereading

/-! Cutting a range at the separators at bracket depth zero and trimming the pieces loses no byte
but blanks and those separators. Cuts are found in the skeleton and blanks in the code; a character
that is not blank is the same in the code and in the text, so the pieces end between characters of
the text. -/
namespace Concord.Source

open Text

variable {s : Source} {c : Char}

theorem append_inj_of_byteSize {a b a' b' : List Char} (h : a ++ b = a' ++ b')
    (hsize : byteSize a = byteSize a') : a = a' ∧ b = b' := by
  have hencode := congrArg encode h
  rw [encode_append, encode_append] at hencode
  have hlen : (encode a).length = (encode a').length := by simpa using hsize
  obtain ⟨ha, hb⟩ := List.append_inj hencode hlen
  exact ⟨by simpa using congrArg decode ha, by simpa using congrArg decode hb⟩

/-- A character with a byte in the middle part of a text stands in that part. -/
theorem split_within {u v w before after : List Char} {x : Nat}
    (h : before ++ c :: after = u ++ (v ++ w)) (hu : byteSize u ≤ x)
    (hv : x < byteSize u + byteSize v) (hbefore : byteSize before ≤ x)
    (hc : x < byteSize before + c.utf8Size) :
    ∃ b a, v = b ++ c :: a ∧ byteSize before = byteSize u + byteSize b := by
  rcases List.append_eq_append_iff.mp h with ⟨mid, rfl, hmid⟩ | ⟨mid, rfl, hmid⟩
  · cases mid with
    | nil =>
      cases v with
      | nil => simp at hu hv; omega
      | cons d v =>
        obtain ⟨rfl, -⟩ := List.cons.inj hmid
        exact ⟨[], v, rfl, by simp⟩
    | cons d mid =>
      obtain ⟨rfl, -⟩ := List.cons.inj hmid
      simp at hu
      omega
  · rcases List.append_eq_append_iff.mp hmid with ⟨more, rfl, -⟩ | ⟨more, rfl, hmore⟩
    · simp at hbefore hv
      omega
    · cases more with
      | nil => simp at hbefore hv; omega
      | cons d more =>
        obtain ⟨rfl, -⟩ := List.cons.inj hmore
        exact ⟨mid, more, rfl, by simp⟩

theorem Whole.spanText_ne_nil {p : Span} (h : Whole s p) (hlt : p.start < p.stop) :
    s.spanText p ≠ [] := by
  intro hnil
  have := h.byteSize_spanText
  simp [hnil] at this
  omega

/-- What is trimmed off is blank, and what is left starts and ends with a character that is not. -/
theorem Whole.trimSpan?_text {p q : Span} (h : Whole s p) (hq : s.trimSpan? p = some q) :
    (∀ c ∈ s.slice p.start q.start, isBlank c = true) ∧
      (∀ c ∈ s.slice q.stop p.stop, isBlank c = true) ∧
      (∀ c ∈ (s.spanText q).head?, isBlank c = false) ∧
      ∀ c ∈ (s.spanText q).getLast?, isBlank c = false := by
  obtain ⟨hwhole, hstart, hlt, hstop⟩ := h.trimSpan?_sound hq
  have hne := hwhole.spanText_ne_nil hlt
  obtain ⟨hqs, hqe⟩ := trimSpan?_eq_some hq
  obtain ⟨hlead, hafter⟩ := h.split hstart (by omega) hwhole.start_boundary
  obtain ⟨hbefore, htrail⟩ := h.split (by omega) hstop hwhole.stop_boundary
  have hfront := (slice_append hlead hafter).symm.trans
    (List.takeWhile_append_dropWhile (p := isBlank) (l := s.spanText p)).symm
  have hback := (slice_append hbefore htrail).symm.trans (dropEndWhile_append isBlank (s.spanText p)).symm
  have hleadSize : p.start + byteSize (s.slice p.start q.start) = q.start := hlead.byteSize_spanText
  have hbeforeSize : p.start + byteSize (s.slice p.start q.stop) = q.stop := hbefore.byteSize_spanText
  have hsize := h.byteSize_spanText
  have hdrop := congrArg byteSize (dropEndWhile_append isBlank (s.spanText p))
  rw [byteSize_append, byteSize_reverse] at hdrop
  obtain ⟨hleadEq, hafterEq⟩ := append_inj_of_byteSize hfront (by omega)
  obtain ⟨hbeforeEq, htrailEq⟩ := append_inj_of_byteSize hback (by omega)
  have hnot {t : List Char} {c : Char} (hc : c ∈ (t.dropWhile isBlank).head?) : isBlank c = false := by
    have := List.head?_dropWhile_not isBlank t
    rwa [Option.mem_def.mp hc] at this
  refine ⟨fun c hc => ?_, fun c hc => ?_, fun c hc => hnot (t := s.spanText p) ?_,
    fun c hc => hnot (t := (s.spanText p).reverse) ?_⟩
  · exact List.all_eq_true.mp List.all_takeWhile c (hleadEq ▸ hc)
  · exact List.all_eq_true.mp List.all_takeWhile c (List.mem_reverse.mp (htrailEq ▸ hc))
  · rw [← hafterEq, slice_append hwhole htrail, ← spanText, List.head?_append_of_ne_nil _ hne]
    exact hc
  · rw [← List.getLast?_reverse, ← dropEndWhile, ← hbeforeEq, slice_append hlead hwhole, ← spanText,
      List.getLast?_append_of_ne_nil _ hne]
    exact hc

theorem visible_of_mem_encodeChar (hc : isBlank c = false) {b : UInt8}
    (hb : b ∈ String.utf8EncodeChar c) : Visible b := by
  rcases encodeChar_cases c with ⟨hascii, heq⟩ | hhigh
  · obtain rfl : b = UInt8.ofNat c.toNat := by simpa [heq] using hb
    have hblank {n : Nat} (hn : n < 0x80) (h : isBlank (Char.ofNat n) = true) :
        UInt8.ofNat c.toNat ≠ UInt8.ofNat n := by
      intro heq
      have hnat := congrArg UInt8.toNat heq
      rw [toNat_ofNat_of_lt (by omega), toNat_ofNat_of_lt (by omega)] at hnat
      rw [← hnat, Char.ofNat_toNat, hc] at h
      cases h
    exact ⟨hblank (n := 0x20) (by decide) (by decide), hblank (n := 0x0A) (by decide) (by decide)⟩
  · have := hhigh b hb
    constructor <;> rintro rfl <;> exact absurd this (by decide)

/-- A character of the code that is not blank is the same in the text. -/
theorem Aligned.between_text (hs : Aligned s) (htext : IsUtf8 s.text.toList) {p : Span}
    (h : Whole s p) {before after : List Char} (ht : s.spanText p = before ++ c :: after)
    (hc : isBlank c = false) : Between s.text.toList (p.start + byteSize before) ∧
      Between s.text.toList (p.start + byteSize before + c.utf8Size) := by
  set i := p.start + byteSize before with hi
  have hcode : String.utf8EncodeChar c <+: s.code.toList.drop i := by
    have hlen : (s.code.toList.take p.start ++ encode before).length = i := by
      rw [List.length_append, h.length_take, length_encode]
    have hsplit := h.code_eq
    rw [ht, encode_append, encode_cons] at hsplit
    rw [hsplit, ← List.append_assoc, List.append_assoc _ _ (s.code.toList.drop p.stop),
      List.drop_left' hlen, List.append_assoc]
    exact List.prefix_append _ _
  obtain ⟨rest, hrest⟩ := Masks.starts (List.forall₂_drop i hs.code_masks)
    (fun b hb => visible_of_mem_encodeChar hc hb) hcode
  have hchar : (String.utf8EncodeChar c).length = c.utf8Size := by simp
  have hlength := congrArg List.length hrest
  rw [List.length_append, List.length_drop, hchar] at hlength
  have hpos := c.utf8Size_pos
  have hat : Between s.text.toList i := by
    refine htext.between_iff.mpr ⟨by omega, fun b hb => ?_⟩
    rw [← List.head?_drop, ← hrest] at hb
    obtain ⟨lead, tails, hlead, hnot, -⟩ := encodeChar_eq_cons c
    rw [hlead] at hb
    obtain rfl : lead = b := by simpa using hb
    exact hnot
  have hbefore : IsUtf8 (s.text.toList.take (i + c.utf8Size)) := by
    rw [List.take_add, ← hrest, List.take_left' hchar]
    exact hat.before.append ⟨[c], by simp [encode]⟩
  refine ⟨hat, by omega, hbefore, hbefore.of_append ?_⟩
  rwa [List.take_append_drop]

/-- Blank code has no brackets. -/
theorem Aligned.total_blank (hs : Aligned s) {a b : Nat} (h : Whole s ⟨a, b⟩)
    (hblank : ∀ c ∈ s.slice a b, isBlank c = true) : Byte.total Byte.depthStep (s.bare a b) = 0 := by
  have hzero : ∀ d ∈ s.bare a b, Byte.depthStep d = 0 := by
    intro d hd
    by_contra hne
    have hbracket : Byte.isOpener d = true ∨ Byte.isCloser d = true := by
      by_contra hno
      exact hne (depthStep_eq_zero (by simp_all) (by simp_all))
    obtain ⟨hascii, hspace, hnot⟩ := bracket_ascii hbracket
    obtain ⟨n, hn⟩ := List.mem_iff_getElem?.mp hd
    obtain ⟨hlt, hskeleton⟩ := getElem?_bare_eq_some hn
    obtain ⟨before, after, htext, -⟩ := h.split_at (Nat.le_add_right a n) hlt
      (hs.code_of_skeleton hskeleton hspace) hascii
    have hmem : Char.ofNat d.toNat ∈ s.slice a b := by
      change _ ∈ s.spanText ⟨a, b⟩
      simp [htext]
    exact absurd (hblank _ hmem) (by simp [hnot])
  generalize s.bare a b = bs at hzero
  induction bs with
  | nil => rfl
  | cons d bs ih => simp_all

/-- An ASCII byte that is no bracket and no space. -/
structure Separates (sep : UInt8) : Prop where
  ascii : sep.toNat < 0x80
  not_opener : Byte.isOpener sep = false
  not_closer : Byte.isCloser sep = false
  not_space : sep ≠ Byte.space

/-- A separator before which the brackets from `start` on are closed. -/
def SeparatorAt (s : Source) (start : Nat) (sep : UInt8) (x : Nat) : Prop :=
  s.skeleton[x]? = some sep ∧ Byte.total Byte.depthStep (s.bare start x) = 0

section Separator

variable {start stop : Nat} {sep : UInt8}

theorem Aligned.layout_cuts (hs : Aligned s) (hwhole : Whole s ⟨start, stop⟩) (hsep : Separates sep) :
    Layout s start stop (spansBetween start stop (topLevelCuts sep (s.bare start stop) start 0)) :=
  hs.layout_spansBetween hwhole
    (hs.cutsOf_topLevelCuts hsep.not_opener hsep.not_closer hsep.ascii hsep.not_space)

/-- A piece with the span it is trimmed from, which ends outside the brackets on both sides. -/
structure PieceOf (s : Source) (start stop : Nat) (sep : UInt8) (p q : Span) : Prop where
  whole : Whole s p
  start_le : start ≤ p.start
  le_stop : p.stop ≤ stop
  trim_eq : s.trimSpan? p = some q
  start_depth : Byte.total Byte.depthStep (s.bare start p.start) = 0
  stop_depth : p.stop = stop ∨ Byte.total Byte.depthStep (s.bare start p.stop) = 0
  uncut : ∀ x, p.start ≤ x → x < p.stop → ¬SeparatorAt s start sep x

theorem Aligned.exists_pieceOf (hs : Aligned s) (hwhole : Whole s ⟨start, stop⟩)
    (hsep : Separates sep) {q : Span} (hq : q ∈ s.pieces start stop sep) :
    ∃ p, PieceOf s start stop sep p q := by
  have hlayout := hs.layout_cuts hwhole hsep
  obtain ⟨p, hp, hpq⟩ := List.mem_filterMap.mp hq
  obtain ⟨hstart, hstop⟩ := hlayout.within p hp
  have hcut {n : Nat} : n ∈ topLevelCuts sep (s.bare start stop) start 0 ↔
      start ≤ n ∧ n < stop ∧ SeparatorAt s start sep n :=
    mem_cuts_iff hsep.not_opener hsep.not_closer
  refine ⟨p, hlayout.whole p hp, hstart, hstop, hpq, ?_,
    (stop_of_mem_spansBetween hp).imp_right fun hstop => (hcut.mp hstop).2.2.2, fun x hx hx' hat => ?_⟩
  · rcases start_of_mem_spansBetween hp with hstart | ⟨n, hn, hstart⟩
    · simp [hstart, bare]
    · obtain ⟨hle, -, hbyte, hdepth⟩ := hcut.mp hn
      rw [hstart, s.bare_append hle (Nat.le_succ n), total_append, hdepth, bare_singleton hbyte]
      simp [depthStep_eq_zero hsep.not_opener hsep.not_closer]
  · have := cut_outside_span (topLevelCuts_pairwise hsep.not_opener hsep.not_closer _ _ _) hp
      (hcut.mpr ⟨Nat.le_trans hstart hx, Nat.lt_of_lt_of_le hx' hstop, hat⟩)
    omega

/-- A character that is not blank and no separator outside brackets is in a piece. -/
theorem Aligned.exists_piece (hs : Aligned s) (hwhole : Whole s ⟨start, stop⟩) (hsep : Separates sep)
    {before after : List Char} {x : Nat} (ht : s.slice start stop = before ++ c :: after)
    (hblank : isBlank c = false) (hx : start + byteSize before ≤ x)
    (hx' : x < start + byteSize before + c.utf8Size) (hat : ¬SeparatorAt s start sep x) :
    ∃ q ∈ s.pieces start stop sep, q.start ≤ x ∧ x < q.stop := by
  have hlayout := hs.layout_cuts hwhole hsep
  have hsize : start + byteSize (s.slice start stop) = stop := hwhole.byteSize_spanText
  rw [ht, byteSize_append, byteSize_cons] at hsize
  have hcuts : ∀ n ∈ topLevelCuts sep (s.bare start stop) start 0, n < x ∨ x < n := by
    intro n hn
    have hne : n ≠ x := by
      rintro rfl
      exact hat ((mem_cuts_iff hsep.not_opener hsep.not_closer).mp hn).2.2
    omega
  have hstart : start ≤ x := by omega
  have hstop : x < stop := by omega
  obtain ⟨p, hp, hpx, hxp⟩ := spansBetween_covers hstart hstop hcuts
  have hspan := hlayout.whole p hp
  obtain ⟨hstart, hstop⟩ := hlayout.within p hp
  obtain ⟨hlead, hrest⟩ := hwhole.split hstart (Nat.le_trans hspan.le hstop) hspan.start_boundary
  have htail := (hwhole.split (Nat.le_trans hstart hspan.le) hstop hspan.stop_boundary).2
  have hleadSize : start + byteSize (s.slice start p.start) = p.start := hlead.byteSize_spanText
  have hspanSize := hspan.byteSize_spanText
  rw [slice_append hlead hrest, slice_append hspan htail] at ht
  obtain ⟨b, a, hsplit, hbefore⟩ := split_within (x := x - start) ht.symm (by omega)
    (by rw [← spanText]; omega) (by omega) (by omega)
  obtain ⟨q, hq, hqx, hxq⟩ := hspan.trimSpan?_of_split hsplit hblank
  exact ⟨q, List.mem_filterMap.mpr ⟨p, hp, hq⟩, by omega, by omega⟩

/-- A piece starts and ends at characters of the text, since it starts and ends with no blank. -/
theorem PieceOf.between {p q : Span} (h : PieceOf s start stop sep p q) (hs : Aligned s)
    (htext : IsUtf8 s.text.toList) :
    Between s.text.toList q.start ∧ Between s.text.toList q.stop := by
  obtain ⟨hwhole, -, hlt, -⟩ := h.whole.trimSpan?_sound h.trim_eq
  obtain ⟨-, -, hhead, hlast⟩ := h.whole.trimSpan?_text h.trim_eq
  have hsize := hwhole.byteSize_spanText
  have hne := hwhole.spanText_ne_nil hlt
  constructor
  · obtain ⟨c, rest, ht⟩ := List.exists_cons_of_ne_nil hne
    have hfirst : s.spanText q = [] ++ c :: rest := ht
    simpa using (hs.between_text htext hwhole hfirst (hhead c (by simp [ht]))).1
  · obtain ⟨rest, c, ht⟩ := (List.eq_nil_or_concat _).resolve_left hne
    rw [List.concat_eq_append] at ht
    rw [ht, byteSize_append, byteSize_cons, byteSize_nil, Nat.add_zero, ← Nat.add_assoc] at hsize
    exact hsize ▸ (hs.between_text htext hwhole ht (hlast c (by simp [ht]))).2

/-- Only blanks are trimmed off, so a piece of nested text is nested too. -/
theorem PieceOf.nested {p q : Span} (h : PieceOf s start stop sep p q) (hs : Aligned s)
    (hn : Nested (s.bare start stop)) : Nested (s.bare q.start q.stop) ∧
      ∀ x, q.start ≤ x → x < q.stop → ¬SeparatorAt s q.start sep x := by
  have hstart := h.start_le
  have hstop := h.le_stop
  obtain ⟨hinner, hpstart, hlt, hpstop⟩ := h.whole.trimSpan?_sound h.trim_eq
  obtain ⟨hlead, htrail, -⟩ := h.whole.trimSpan?_text h.trim_eq
  have hqstart : Byte.total Byte.depthStep (s.bare start q.start) = 0 := by
    rw [s.bare_append hstart hpstart, total_append, h.start_depth,
      hs.total_blank (h.whole.split hpstart (by omega) hinner.start_boundary).1 hlead]
    rfl
  have hqstop : Byte.total Byte.depthStep (s.bare start q.stop) = 0 := by
    have hclosed : Byte.total Byte.depthStep (s.bare start p.stop) = 0 := by
      rcases h.stop_depth with heq | hzero
      · rw [heq]
        exact hn.total_eq_zero cancels_depthStep
      · exact hzero
    rw [s.bare_append (m := q.stop) (by omega) hpstop, total_append,
      hs.total_blank (h.whole.split (by omega) hpstop hinner.stop_boundary).2 htrail] at hclosed
    omega
  refine ⟨nested_bare_inside hn (by omega) (by omega) (by omega) hqstart hqstop, fun x hx hx' hat => ?_⟩
  refine h.uncut x (by omega) (by omega) ⟨hat.1, ?_⟩
  rw [s.bare_append (by omega) hx, total_append, hqstart, hat.2]
  rfl

end Separator

/-- Spans that are apart, hold all of a range but blanks and separators outside brackets, and are
nested where the range is the inside of a pair of brackets. -/
structure Partition (s : Source) (start stop : Nat) (sep : UInt8) (spans : List Span) : Prop where
  ordered : spans.Pairwise fun p q => p.stop ≤ q.start
  within : ∀ q ∈ spans, start ≤ q.start ∧ q.start < q.stop ∧ q.stop ≤ stop
  between : ∀ q ∈ spans, Between s.text.toList q.start ∧ Between s.text.toList q.stop
  trimmed : ∀ q ∈ spans, (∀ c ∈ (s.spanText q).head?, isBlank c = false) ∧
    ∀ c ∈ (s.spanText q).getLast?, isBlank c = false
  uncut : ∀ q ∈ spans, ∀ x, q.start ≤ x → x < q.stop → ¬SeparatorAt s start sep x
  covers : ∀ before c after x, s.slice start stop = before ++ c :: after → isBlank c = false →
    start + byteSize before ≤ x → x < start + byteSize before + c.utf8Size →
      ¬SeparatorAt s start sep x → ∃! q, q ∈ spans ∧ q.start ≤ x ∧ x < q.stop
  nested : ∀ opening, s.closing? opening = some stop → start = opening + 1 → ∀ q ∈ spans,
    Nested (s.bare q.start q.stop) ∧ ∀ x, q.start ≤ x → x < q.stop → ¬SeparatorAt s q.start sep x

theorem pieces_partition {language : Language} {path content : String} {s : Source}
    (h : read language.lexis path content = .ok s) {start stop : Nat} (hle : start ≤ stop)
    (hstart : Between s.text.toList start) (hstop : Between s.text.toList stop) {sep : UInt8}
    (hsep : Separates sep) : Partition s start stop sep (s.pieces start stop sep) := by
  have hs := aligned_of_read h
  have hlaid := laidOut_of_read h
  have hend := hlaid.code_between stop hstop
  have hwhole : Whole s ⟨start, stop⟩ :=
    ⟨hle, by simpa using hend.le, (hlaid.code_between start hstart).before, hend.before⟩
  have hlayout : Layout s start stop (s.pieces start stop sep) := (hs.layout_cuts hwhole hsep).trim
  have hpiece {q : Span} (hq : q ∈ s.pieces start stop sep) : ∃ p, PieceOf s start stop sep p q :=
    hs.exists_pieceOf hwhole hsep hq
  refine ⟨hlayout.ordered, fun q hq => ?_, fun q hq => ?_, fun q hq => ?_, fun q hq x hx hx' => ?_,
    fun before c after x ht hblank hx hx' hat => ?_, fun opening hclose hopen q hq => ?_⟩
  · obtain ⟨p, hp⟩ := hpiece hq
    obtain ⟨-, -, hlt, -⟩ := hp.whole.trimSpan?_sound hp.trim_eq
    exact ⟨(hlayout.within q hq).1, hlt, (hlayout.within q hq).2⟩
  · obtain ⟨p, hp⟩ := hpiece hq
    exact hp.between hs (text_utf8_of_read h)
  · obtain ⟨p, hp⟩ := hpiece hq
    exact (hp.whole.trimSpan?_text hp.trim_eq).2.2
  · obtain ⟨p, hp⟩ := hpiece hq
    obtain ⟨-, hps, -, hpe⟩ := hp.whole.trimSpan?_sound hp.trim_eq
    exact hp.uncut x (Nat.le_trans hps hx) (Nat.lt_of_lt_of_le hx' hpe)
  · obtain ⟨q, hq, hqx⟩ := hs.exists_piece hwhole hsep ht hblank hx hx' hat
    refine ⟨q, ⟨hq, hqx⟩, fun r hr => ?_⟩
    by_contra hne
    have := hlayout.apart hr.1 hq hne
    omega
  · obtain ⟨p, hp⟩ := hpiece hq
    have hpair := (closing?_eq_some_iff (nested_of_read h)).mp hclose
    refine hp.nested hs ?_
    rw [hopen, bare_eq_extract]
    exact hpair.inner_nested

/-- A comma in a literal or inside brackets is no separator. -/
theorem pieces_partition_call :
    ∃ s, read Language.go.lexis "a.go" "f( a, \"é,\", g(x, y) )" = .ok s ∧ s.closing? 1 = some 21 ∧
      s.pieces 2 21 Byte.comma = [⟨3, 4⟩, ⟨6, 11⟩, ⟨13, 20⟩] ∧
      Partition s 2 21 Byte.comma (s.pieces 2 21 Byte.comma) := by
  have hview : (read Language.go.lexis "a.go" "f( a, \"é,\", g(x, y) )").map
      (fun s => (s.text[2]?, s.text[21]?, s.closing? 1, s.pieces 2 21 Byte.comma)) =
        .ok (some Byte.space, some Byte.closeParen, some 21, [⟨3, 4⟩, ⟨6, 11⟩, ⟨13, 20⟩]) := by
    decide +kernel
  cases hread : read Language.go.lexis "a.go" "f( a, \"é,\", g(x, y) )" with
  | error e => simp [hread, Except.map] at hview
  | ok s =>
    obtain ⟨hfirst, hlast, hclose, hpieces⟩ : s.text[2]? = some Byte.space ∧
        s.text[21]? = some Byte.closeParen ∧ s.closing? 1 = some 21 ∧
        s.pieces 2 21 Byte.comma = [⟨3, 4⟩, ⟨6, 11⟩, ⟨13, 20⟩] := by
      simpa [hread, Except.map] using hview
    have htext := text_utf8_of_read hread
    have hstart := between_of_getElem? htext hfirst (by decide)
    have hstop := between_of_getElem? htext hlast (by decide)
    exact ⟨s, rfl, hclose, hpieces, pieces_partition hread (by decide) hstart hstop
      ⟨by decide, by decide, by decide, by decide⟩⟩

end Concord.Source
