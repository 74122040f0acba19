import Concord.Proofs.Nesting
import Concord.Proofs.Pieces

/-! A range is cut at the separators at bracket depth zero. A piece starts at the first character
that is not blank after the start of the range or after such a separator, wherever the range ends.
-/
namespace Concord.Source

open Text

variable {s : Source} {a b c i n : Nat} {p : Span} {cuts : List Nat}

section Cuts

variable {sep : UInt8}

theorem topLevelCuts_cons (ho : Byte.isOpener sep = false) (hc : Byte.isCloser sep = false) (b : UInt8)
    (rest : List UInt8) (offset : Nat) (depth : Int) :
    topLevelCuts sep (b :: rest) offset depth = (if b = sep ∧ depth = 0 then [offset] else []) ++
      topLevelCuts sep rest (offset + 1) (depth + Byte.depthStep b) := by
  by_cases hb : b = sep
  · subst hb
    by_cases hdepth : depth = 0 <;> simp [topLevelCuts, ho, hc, hdepth, depthStep_eq_zero ho hc]
  · have hcut : ¬(b = sep ∧ depth = 0) := fun h => hb h.1
    rw [if_neg hcut, List.nil_append, topLevelCuts, Byte.depthStep]
    by_cases hbo : Byte.isOpener b = true
    · simp [hbo]
    · by_cases hbc : Byte.isCloser b = true
      · simp [hbo, hbc, Int.sub_eq_add_neg]
      · simp [hbo, hbc, hb]

/-- A separator is a cut exactly if the brackets before it are closed. -/
theorem mem_topLevelCuts_iff (ho : Byte.isOpener sep = false) (hc : Byte.isCloser sep = false)
    {bs : List UInt8} {offset : Nat} {depth : Int} :
    c ∈ topLevelCuts sep bs offset depth ↔ ∃ n, c = offset + n ∧ bs[n]? = some sep ∧
      depth + Byte.total Byte.depthStep (bs.take n) = 0 := by
  induction bs generalizing offset depth with
  | nil => simp [topLevelCuts]
  | cons b rest ih =>
    rw [topLevelCuts_cons ho hc, List.mem_append, ih]
    constructor
    · rintro (hfirst | ⟨n, rfl, hn, hdepth⟩)
      · by_cases hcut : b = sep ∧ depth = 0
        · rw [if_pos hcut, List.mem_singleton] at hfirst
          exact ⟨0, hfirst, by simp [hcut.1], by simp [hcut.2]⟩
        · simp [hcut] at hfirst
      · refine ⟨n + 1, by omega, by simpa using hn, ?_⟩
        rw [List.take_succ_cons, total_cons]
        omega
    · rintro ⟨n, rfl, hn, hdepth⟩
      cases n with
      | zero =>
        left
        simp_all
      | succ n =>
        right
        refine ⟨n, by omega, by simpa using hn, ?_⟩
        rw [List.take_succ_cons, total_cons] at hdepth
        omega

theorem topLevelCuts_pairwise (ho : Byte.isOpener sep = false) (hc : Byte.isCloser sep = false)
    (bs : List UInt8) (offset : Nat) (depth : Int) :
    (topLevelCuts sep bs offset depth).Pairwise (· < ·) := by
  induction bs generalizing offset depth with
  | nil => exact .nil
  | cons b rest ih =>
    rw [topLevelCuts_cons ho hc]
    by_cases hcut : b = sep ∧ depth = 0
    · rw [if_pos hcut, List.singleton_append]
      refine List.pairwise_cons.mpr ⟨fun c hlater => ?_, ih _ _⟩
      obtain ⟨n, rfl, -⟩ := (mem_topLevelCuts_iff ho hc).mp hlater
      omega
    · rw [if_neg hcut, List.nil_append]
      exact ih _ _

end Cuts

theorem start_of_mem_spansBetween {start stop : Nat} (hp : p ∈ spansBetween start stop cuts) :
    p.start = start ∨ ∃ c ∈ cuts, p.start = c + 1 := by
  induction cuts generalizing start with
  | nil =>
    obtain rfl : p = ⟨start, stop⟩ := by simpa [spansBetween] using hp
    exact .inl rfl
  | cons c cuts ih =>
    rw [spansBetween] at hp
    rcases List.mem_cons.mp hp with rfl | hp
    · exact .inl rfl
    · right
      rcases ih hp with hstart | ⟨d, hd, hstart⟩
      · exact ⟨c, List.mem_cons_self, hstart⟩
      · exact ⟨d, List.mem_cons_of_mem c hd, hstart⟩

theorem stop_of_mem_spansBetween {start stop : Nat} (hp : p ∈ spansBetween start stop cuts) :
    p.stop = stop ∨ p.stop ∈ cuts := by
  induction cuts generalizing start with
  | nil =>
    obtain rfl : p = ⟨start, stop⟩ := by simpa [spansBetween] using hp
    exact .inl rfl
  | cons c cuts ih =>
    rw [spansBetween] at hp
    rcases List.mem_cons.mp hp with rfl | hp
    · exact .inr List.mem_cons_self
    · exact (ih hp).imp_right (List.mem_cons_of_mem c)

theorem cut_outside_span {start stop : Nat} (hordered : cuts.Pairwise (· < ·))
    (hp : p ∈ spansBetween start stop cuts) (hc : c ∈ cuts) : c < p.start ∨ p.stop ≤ c := by
  induction cuts generalizing start with
  | nil => simp at hc
  | cons d cuts ih =>
    obtain ⟨hlater, hordered⟩ := List.pairwise_cons.mp hordered
    rw [spansBetween] at hp
    rcases List.mem_cons.mp hp with rfl | hp
    · right
      rcases List.mem_cons.mp hc with rfl | hc
      · exact Nat.le_refl _
      · exact Nat.le_of_lt (hlater c hc)
    · rcases List.mem_cons.mp hc with rfl | hc
      · left
        rcases start_of_mem_spansBetween hp with hstart | ⟨e, he, hstart⟩
        · omega
        · have := hlater e he
          omega
      · exact ih hordered hp hc

/-- The first character of the code between two offsets that is not blank is at `i`. -/
def FirstAt (s : Source) (start stop i : Nat) : Prop :=
  i = start + byteSize ((s.slice start stop).takeWhile isBlank) ∧ i < stop

theorem FirstAt.start_le {start stop i : Nat} (h : FirstAt s start stop i) : start ≤ i := by
  rw [h.1]
  omega

theorem FirstAt.unique {start stop i j : Nat} (hi : FirstAt s start stop i)
    (hj : FirstAt s start stop j) : i = j := by
  rw [hi.1, hj.1]

theorem byteSize_takeWhile_lt_iff {t : List Char} :
    byteSize (t.takeWhile isBlank) < byteSize t ↔ ¬∀ c ∈ t, isBlank c = true := by
  induction t with
  | nil => simp
  | cons c t ih =>
    have hpos := c.utf8Size_pos
    by_cases hc : isBlank c = true
    · simpa [hc] using ih
    · simp [hc]
      omega

theorem slice_append (hab : Whole s ⟨a, b⟩) (hbc : Whole s ⟨b, c⟩) :
    s.slice a c = s.slice a b ++ s.slice b c := by
  have hac : Whole s ⟨a, c⟩ :=
    ⟨Nat.le_trans hab.le hbc.le, hbc.stop_le, hab.start_boundary, hbc.stop_boundary⟩
  have hcode : s.code.toList.extract a c =
      s.code.toList.extract a b ++ s.code.toList.extract b c := by
    have htake := hac.take_stop
    rw [hbc.take_stop, hab.take_stop, List.append_assoc] at htake
    exact (List.append_cancel_left htake).symm
  simp only [slice, Array.toList_extract]
  rw [hcode, ← hab.isUtf8.encode_decode, decode_encode_append, decode_encode]

/-- The first character that is not blank is before an inner place, or all is blank up to there. -/
theorem firstAt_append_iff (hab : Whole s ⟨a, b⟩) (hbc : Whole s ⟨b, c⟩) :
    FirstAt s a c i ↔ FirstAt s a b i ∨ (∀ d ∈ s.slice a b, isBlank d = true) ∧ FirstAt s b c i := by
  have hsize : a + byteSize (s.slice a b) = b := hab.byteSize_spanText
  have hle : b ≤ c := hbc.le
  unfold FirstAt
  rw [slice_append hab hbc]
  by_cases hblank : ∀ d ∈ s.slice a b, isBlank d = true
  · have hall : (s.slice a b ++ []).takeWhile isBlank = s.slice a b ++ [].takeWhile isBlank :=
      List.takeWhile_append_of_pos hblank
    rw [List.takeWhile_nil, List.append_nil] at hall
    rw [List.takeWhile_append_of_pos hblank, hall, byteSize_append, and_iff_right hblank]
    omega
  · have hlt := byteSize_takeWhile_lt_iff.mpr hblank
    have hlen : (List.takeWhile isBlank (s.slice a b)).length ≠ (s.slice a b).length := by
      intro hlen
      rw [(List.takeWhile_prefix isBlank).eq_of_length hlen] at hlt
      omega
    rw [List.takeWhile_append, if_neg hlen]
    simp only [hblank, false_and, or_false]
    omega

theorem exists_firstAt (hab : Whole s ⟨a, b⟩) (h : ¬∀ d ∈ s.slice a b, isBlank d = true) :
    ∃ i, FirstAt s a b i := by
  have hsize : a + byteSize (s.slice a b) = b := hab.byteSize_spanText
  have hlt := byteSize_takeWhile_lt_iff.mpr h
  exact ⟨_, rfl, by omega⟩

theorem FirstAt.extend_start (h : FirstAt s b c i) (hab : Whole s ⟨a, b⟩) (hbc : Whole s ⟨b, c⟩) :
    ∃ j ≤ i, FirstAt s a c j := by
  by_cases hblank : ∀ d ∈ s.slice a b, isBlank d = true
  · exact ⟨i, Nat.le_refl i, (firstAt_append_iff hab hbc).mpr (.inr ⟨hblank, h⟩)⟩
  · obtain ⟨j, hj⟩ := exists_firstAt hab hblank
    have := hj.2
    have := h.start_le
    exact ⟨j, by omega, (firstAt_append_iff hab hbc).mpr (.inl hj)⟩

theorem FirstAt.drop_start (h : FirstAt s a c i) (hab : Whole s ⟨a, b⟩) (hbc : Whole s ⟨b, c⟩)
    (hb : b ≤ i) : FirstAt s b c i := by
  rcases (firstAt_append_iff hab hbc).mp h with h | h
  · have := h.2
    omega
  · exact h.2

theorem FirstAt.drop_stop (h : FirstAt s a c i) (hab : Whole s ⟨a, b⟩) (hbc : Whole s ⟨b, c⟩)
    (hb : i < b) : FirstAt s a b i := by
  rcases (firstAt_append_iff hab hbc).mp h with h | h
  · exact h
  · have := h.2.start_le
    omega

theorem Whole.trimSpan?_start_iff (h : Whole s p) :
    (∃ q, s.trimSpan? p = some q ∧ q.start = i) ↔ FirstAt s p.start p.stop i := by
  constructor
  · rintro ⟨q, hq, rfl⟩
    obtain ⟨-, -, hlt, hle⟩ := h.trimSpan?_sound hq
    exact ⟨(trimSpan?_eq_some hq).1, Nat.lt_of_lt_of_le hlt hle⟩
  · rintro ⟨rfl, hlt⟩
    have hshort : byteSize ((s.spanText p).takeWhile isBlank) < byteSize (s.spanText p) := by
      have hsize := h.byteSize_spanText
      change p.start + byteSize ((s.spanText p).takeWhile isBlank) < p.stop at hlt
      omega
    have hnot := byteSize_takeWhile_lt_iff.mp hshort
    push Not at hnot
    obtain ⟨c, hc, hblank⟩ := hnot
    obtain ⟨before, after, htext⟩ := List.append_of_mem hc
    obtain ⟨q, hq, -⟩ := h.trimSpan?_of_split htext (by simpa using hblank)
    exact ⟨q, hq, (trimSpan?_eq_some hq).1⟩

theorem slice_singleton {b : UInt8} (hb : s.code[n]? = some b) (hascii : b.toNat < 0x80) :
    s.slice n (n + 1) = [Char.ofNat b.toNat] := by
  obtain ⟨hn, rfl⟩ := Array.getElem?_eq_some_iff.mp hb
  rw [slice, Array.toList_extract, List.extract_eq_take_drop, Nat.add_sub_cancel_left,
    List.drop_eq_getElem_cons (by simpa using hn), List.take_succ_cons, List.take_zero,
    Array.getElem_toList, ← encodeChar_ofNat hascii]
  simpa using decode_encodeChar_append (Char.ofNat s.code[n].toNat) []

theorem Aligned.firstAt_self_iff (hs : Aligned s) {n stop : Nat} {b : UInt8}
    (hb : s.code[n]? = some b) (hascii : b.toNat < 0x80) (h : Whole s ⟨n, stop⟩) (hn : n < stop) :
    FirstAt s n stop n ↔ isBlank (Char.ofNat b.toNat) = false := by
  obtain ⟨hone, hrest⟩ := h.split (Nat.le_succ n) hn (hs.boundary_after_ascii hb hascii)
  have hlater : ¬FirstAt s (n + 1) stop n := by
    intro h
    have := h.start_le
    omega
  have hpos := (Char.ofNat b.toNat).utf8Size_pos
  rw [firstAt_append_iff hone hrest]
  simp only [hlater, and_false, or_false]
  rw [FirstAt, slice_singleton hb hascii]
  by_cases hblank : isBlank (Char.ofNat b.toNat) = true
  · simp [hblank]
    omega
  · simp [hblank]

/-- A place where a piece may start: the start of the range, or the byte after a separator up to which
the brackets of the range are closed. -/
def PieceFrom (s : Source) (start stop : Nat) (sep : UInt8) (a : Nat) : Prop :=
  a = start ∨ ∃ n, a = n + 1 ∧ start ≤ n ∧ n < stop ∧ s.skeleton[n]? = some sep ∧
    Byte.total Byte.depthStep (s.bare start n) = 0

theorem take_bare {start n stop : Nat} (hn : start ≤ n) (hstop : n ≤ stop)
    (hsize : n ≤ s.skeleton.size) : (s.bare start stop).take (n - start) = s.bare start n := by
  rw [s.bare_append hn hstop, List.take_left' (length_bare hsize)]

section Separator

variable {start stop : Nat} {sep : UInt8}

theorem mem_cuts_iff (ho : Byte.isOpener sep = false) (hc : Byte.isCloser sep = false) :
    n ∈ topLevelCuts sep (s.bare start stop) start 0 ↔ start ≤ n ∧ n < stop ∧
      s.skeleton[n]? = some sep ∧ Byte.total Byte.depthStep (s.bare start n) = 0 := by
  rw [mem_topLevelCuts_iff ho hc]
  constructor
  · rintro ⟨k, rfl, hk, hdepth⟩
    obtain ⟨hlt, hskeleton⟩ := getElem?_bare_eq_some hk
    obtain ⟨hsize, -⟩ := Array.getElem?_eq_some_iff.mp hskeleton
    have htake := take_bare (s := s) (Nat.le_add_right start k) (Nat.le_of_lt hlt) (Nat.le_of_lt hsize)
    rw [Nat.add_sub_cancel_left] at htake
    rw [htake, Int.zero_add] at hdepth
    exact ⟨Nat.le_add_right start k, hlt, hskeleton, hdepth⟩
  · rintro ⟨hn, hlt, hskeleton, hdepth⟩
    obtain ⟨hsize, -⟩ := Array.getElem?_eq_some_iff.mp hskeleton
    refine ⟨n - start, by omega, ?_, ?_⟩
    · have hlen := length_bare (i := start) (Nat.le_of_lt hsize)
      rw [s.bare_append hn (Nat.le_of_lt hlt), List.getElem?_append_right (by omega), hlen,
        Nat.sub_self, s.bare_append (Nat.le_succ n) hlt, bare_singleton hskeleton]
      rfl
    · rw [take_bare hn (Nat.le_of_lt hlt) (Nat.le_of_lt hsize), hdepth]
      rfl

/-- The separators of a range are ASCII, so it is cut between characters. -/
theorem Aligned.cutsOf_topLevelCuts (hs : Aligned s) (ho : Byte.isOpener sep = false)
    (hc : Byte.isCloser sep = false) (hascii : sep.toNat < 0x80) (hspace : sep ≠ Byte.space) :
    CutsOf s start stop (topLevelCuts sep (s.bare start stop) start 0) where
  ordered := topLevelCuts_pairwise ho hc _ _ _
  within := by
    intro n hn
    obtain ⟨hstart, hstop, -⟩ := (mem_cuts_iff ho hc).mp hn
    exact ⟨hstart, hstop⟩
  ascii := by
    intro n hn
    obtain ⟨-, -, hskeleton, -⟩ := (mem_cuts_iff ho hc).mp hn
    exact ⟨sep, hs.code_of_skeleton hskeleton hspace, hascii⟩

end Separator

section Lines

variable {start stop : Nat}

theorem Aligned.not_firstAt_newline (hs : Aligned s) (ha : Whole s ⟨a, stop⟩)
    (hn : s.skeleton[n]? = some Byte.newline) : ¬FirstAt s a stop n := by
  intro h
  have hcode := hs.code_of_skeleton hn (by decide)
  have hat := hs.boundary_at_ascii hcode (by decide)
  have hlt := h.2
  obtain ⟨hbefore, hfrom⟩ := ha.split h.start_le (Nat.le_of_lt hlt) hat
  have hself := h.drop_start hbefore hfrom (Nat.le_refl n)
  rw [hs.firstAt_self_iff hcode (by decide) hfrom hlt] at hself
  exact absurd hself (by decide)

theorem Aligned.cutsOf_lines (hs : Aligned s) :
    CutsOf s start stop (topLevelCuts Byte.newline (s.bare start stop) start 0) :=
  hs.cutsOf_topLevelCuts (by decide) (by decide) (by decide) (by decide)

theorem Aligned.layout_lines (hs : Aligned s) (h : Whole s ⟨start, stop⟩) :
    Layout s start stop (s.pieces start stop Byte.newline) :=
  (hs.layout_spansBetween h hs.cutsOf_lines).trim

theorem Aligned.whole_from (hs : Aligned s) (h : Whole s ⟨start, stop⟩)
    (ha : PieceFrom s start stop Byte.newline a) : Whole s ⟨start, a⟩ ∧ Whole s ⟨a, stop⟩ := by
  rcases ha with rfl | ⟨n, rfl, hn, hlt, hskeleton, -⟩
  · exact ⟨⟨Nat.le_refl _, Nat.le_trans h.le h.stop_le, h.start_boundary, h.start_boundary⟩, h⟩
  · have hcode := hs.code_of_skeleton hskeleton (by decide)
    exact h.split (Nat.le_succ_of_le hn) hlt (hs.boundary_after_ascii hcode (by decide))

/-- A logical line starts at the first character that is not blank from the start of the range or from
a line break outside brackets on, however far down that is. -/
theorem Aligned.exists_line_iff (hs : Aligned s) (h : Whole s ⟨start, stop⟩) :
    (∃ q ∈ s.pieces start stop Byte.newline, q.start = i) ↔
      ∃ a, PieceFrom s start stop Byte.newline a ∧ FirstAt s a stop i := by
  have hcuts : CutsOf s start stop (topLevelCuts Byte.newline (s.bare start stop) start 0) :=
    hs.cutsOf_lines
  have hlayout := hs.layout_spansBetween h hcuts
  have hfrom {p : Span}
      (hp : p ∈ spansBetween start stop (topLevelCuts Byte.newline (s.bare start stop) start 0)) :
      PieceFrom s start stop Byte.newline p.start := by
    rcases start_of_mem_spansBetween hp with hstart | ⟨n, hn, hstart⟩
    · exact .inl hstart
    · exact .inr ⟨n, hstart, (mem_cuts_iff (by decide) (by decide)).mp hn⟩
  have hend {p : Span}
      (hp : p ∈ spansBetween start stop (topLevelCuts Byte.newline (s.bare start stop) start 0)) :
      Whole s ⟨p.stop, stop⟩ :=
    ⟨(hlayout.within p hp).2, h.stop_le, (hlayout.whole p hp).stop_boundary, h.stop_boundary⟩
  constructor
  · rintro ⟨q, hq, rfl⟩
    obtain ⟨p, hp, hpq⟩ := List.mem_filterMap.mp hq
    have hwhole := hlayout.whole p hp
    have hfirst := hwhole.trimSpan?_start_iff.mp ⟨q, hpq, rfl⟩
    exact ⟨p.start, hfrom hp, (firstAt_append_iff hwhole (hend hp)).mpr (.inl hfirst)⟩
  · rintro ⟨a, ha, hfirst⟩
    obtain ⟨hbefore, hafter⟩ := hs.whole_from h ha
    have hai := hfirst.start_le
    -- no cut is at the character, so it is inside one of the spans
    have hapart : ∀ c ∈ topLevelCuts Byte.newline (s.bare start stop) start 0, c < i ∨ i < c := by
      intro c hc
      obtain ⟨-, -, hnewline, -⟩ := (mem_cuts_iff (by decide) (by decide)).mp hc
      have hne : c ≠ i := by
        rintro rfl
        exact hs.not_firstAt_newline hafter hnewline hfirst
      omega
    obtain ⟨p, hp, hpi, hip⟩ := spansBetween_covers (Nat.le_trans hbefore.le hai) hfirst.2 hapart
    have hwhole := hlayout.whole p hp
    have hap : a ≤ p.start := by
      rcases ha with rfl | ⟨n, rfl, hn⟩
      · exact (hlayout.within p hp).1
      · have hcut := (mem_cuts_iff (s := s) (by decide) (by decide)).mpr hn
        have := cut_outside_span hcuts.ordered hp hcut
        omega
    obtain ⟨hlead, htail⟩ :=
      hafter.split hap (Nat.le_trans hwhole.le (hend hp).le) hwhole.start_boundary
    have hinside := (hfirst.drop_start hlead htail hpi).drop_stop hwhole (hend hp) hip
    obtain ⟨q, hq, hqi⟩ := hwhole.trimSpan?_start_iff.mpr hinside
    exact ⟨q, List.mem_filterMap.mpr ⟨p, hp, hq⟩, hqi⟩

theorem Aligned.first_line (hs : Aligned s) (h : Whole s ⟨start, stop⟩) {ps : List Span}
    (hlines : s.pieces start stop Byte.newline = p :: ps) : FirstAt s start stop p.start := by
  have hp : p ∈ s.pieces start stop Byte.newline := by simp [hlines]
  obtain ⟨a, ha, hfirst⟩ := (hs.exists_line_iff h).mp ⟨p, hp, rfl⟩
  obtain ⟨hbefore, hafter⟩ := hs.whole_from h ha
  obtain ⟨j, hj, hstart⟩ := hfirst.extend_start hbefore hafter
  obtain ⟨q, hq, rfl⟩ := (hs.exists_line_iff h).mpr ⟨start, .inl rfl, hstart⟩
  rw [hlines] at hq
  rcases List.mem_cons.mp hq with rfl | hq
  · exact hstart
  · -- a later line cannot start before the first one does
    have hordered := (hs.layout_lines h).ordered
    rw [hlines] at hordered
    have hafter := (List.pairwise_cons.mp hordered).1 q hq
    obtain ⟨r, hr, hrp⟩ := List.mem_filterMap.mp hp
    have hlt := ((hs.layout_spansBetween h hs.cutsOf_lines).whole r hr).trimSpan?_sound hrp
    omega

end Lines

end Concord.Source
