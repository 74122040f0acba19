import Concord.Proofs.Views

/-! A range of the code is cut at separators and the blanks at the ends of the pieces are dropped.
The pieces stay between characters and in order, and every byte that is neither blank nor a
separator is in one of them. -/
namespace Concord.Source

open Text

variable {s : Source} {p q : Span} {b : UInt8} {start stop : Nat} {after before : List Char}

/-- A place between characters of the code. -/
def Boundary (s : Source) (i : Nat) : Prop := IsUtf8 (s.code.toList.take i)

theorem Aligned.boundary_at_ascii (h : Aligned s) {i : Nat} (hb : s.code[i]? = some b)
    (hascii : b.toNat < 0x80) : Boundary s i := by
  rw [← Array.getElem?_toList] at hb
  obtain ⟨hi, rfl⟩ := List.getElem?_eq_some_iff.mp hb
  have hcode := h.code_utf8
  rw [← List.take_append_drop i s.code.toList, List.drop_eq_getElem_cons hi] at hcode
  exact hcode.before_ascii hascii

theorem Aligned.boundary_after_ascii (h : Aligned s) {i : Nat} (hb : s.code[i]? = some b)
    (hascii : b.toNat < 0x80) : Boundary s (i + 1) := by
  have hbefore := h.boundary_at_ascii hb hascii
  rw [← Array.getElem?_toList] at hb
  obtain ⟨hi, rfl⟩ := List.getElem?_eq_some_iff.mp hb
  rw [Boundary, List.take_add_one, List.getElem?_eq_getElem hi]
  exact hbefore.append (isUtf8_of_ascii (by simpa using hascii))

/-- A span of the code that starts and ends between characters. -/
structure Whole (s : Source) (p : Span) : Prop where
  le : p.start ≤ p.stop
  stop_le : p.stop ≤ s.code.size
  start_boundary : Boundary s p.start
  stop_boundary : Boundary s p.stop

theorem Whole.split {a b c : Nat} (h : Whole s ⟨a, c⟩) (hab : a ≤ b) (hbc : b ≤ c)
    (hb : Boundary s b) : Whole s ⟨a, b⟩ ∧ Whole s ⟨b, c⟩ :=
  ⟨⟨hab, Nat.le_trans hbc h.stop_le, h.start_boundary, hb⟩, ⟨hbc, h.stop_le, hb, h.stop_boundary⟩⟩

theorem take_append_extract (bytes : List UInt8) {a b : Nat} (hab : a ≤ b) :
    bytes.take b = bytes.take a ++ bytes.extract a b := by
  obtain ⟨n, rfl⟩ := Nat.exists_eq_add_of_le hab
  rw [List.take_add, List.extract_eq_take_drop, Nat.add_sub_cancel_left]

theorem Whole.take_stop (h : Whole s p) :
    s.code.toList.take p.stop = s.code.toList.take p.start ++ s.code.toList.extract p.start p.stop :=
  take_append_extract _ h.le

theorem Whole.isUtf8 (h : Whole s p) : IsUtf8 (s.code.toList.extract p.start p.stop) := by
  have hstop := h.stop_boundary
  rw [Boundary, h.take_stop] at hstop
  exact h.start_boundary.of_append hstop

theorem Whole.code_eq (h : Whole s p) : s.code.toList =
    s.code.toList.take p.start ++ encode (s.spanText p) ++ s.code.toList.drop p.stop := by
  rw [spanText, slice, Array.toList_extract, h.isUtf8.encode_decode, ← h.take_stop,
    List.take_append_drop]

theorem Whole.length_take (h : Whole s p) : (s.code.toList.take p.start).length = p.start := by
  have := h.le
  have := h.stop_le
  rw [List.length_take, Array.length_toList, Nat.min_eq_left (by omega)]

theorem Whole.byteSize_spanText (h : Whole s p) : p.start + byteSize (s.spanText p) = p.stop := by
  have hlen := congrArg List.length h.code_eq
  rw [List.length_append, List.length_append, h.length_take, length_encode, List.length_drop,
    Array.length_toList] at hlen
  have := h.stop_le
  omega

theorem Whole.boundary_inside (h : Whole s p) (ht : s.spanText p = before ++ after) :
    Boundary s (p.start + byteSize before) := by
  have hcode := h.code_eq
  rw [ht, encode_append, ← List.append_assoc, List.append_assoc] at hcode
  rw [Boundary, hcode, List.take_left' (by rw [List.length_append, h.length_take, length_encode])]
  exact h.start_boundary.append (isUtf8_encode before)

/-- An ASCII byte in a span is a character of its text. -/
theorem Whole.split_at (h : Whole s p) {x : Nat} (hx : p.start ≤ x) (hx' : x < p.stop)
    (hb : s.code[x]? = some b) (hascii : b.toNat < 0x80) :
    ∃ before after, s.spanText p = before ++ Char.ofNat b.toNat :: after ∧
      p.start + byteSize before = x := by
  obtain ⟨n, rfl⟩ := Nat.exists_eq_add_of_le hx
  have hn : n < (encode (s.spanText p)).length := by
    have := h.byteSize_spanText
    rw [length_encode]
    omega
  have hget : (encode (s.spanText p))[n]? = some b := by
    rw [← Array.getElem?_toList, h.code_eq, List.append_assoc,
      List.getElem?_append_right (by rw [h.length_take]; omega), h.length_take,
      Nat.add_sub_cancel_left, List.getElem?_append_left hn] at hb
    exact hb
  obtain ⟨_, rfl⟩ := List.getElem?_eq_some_iff.mp hget
  have hsplit : encode (s.spanText p) = (encode (s.spanText p)).take n ++
      (encode (s.spanText p))[n] :: (encode (s.spanText p)).drop (n + 1) := by simp
  obtain ⟨before, after, htext, hbefore, -⟩ := encode_split_ascii hascii hsplit
  refine ⟨before, after, htext, ?_⟩
  have hlen := congrArg List.length hbefore
  rw [List.length_take, Nat.min_eq_left (by omega), length_encode] at hlen
  rw [← hlen]

theorem byteSize_takeWhile_le {f : Char → Bool} {c : Char} (hc : f c = false) :
    byteSize ((before ++ c :: after).takeWhile f) ≤ byteSize before := by
  induction before with
  | nil => simp [hc]
  | cons a before ih =>
    rw [List.cons_append, List.takeWhile_cons]
    split
    · simpa using ih
    · simp

theorem dropEndWhile_append (f : Char → Bool) (t : List Char) :
    dropEndWhile f t ++ (t.reverse.takeWhile f).reverse = t := by
  rw [dropEndWhile, ← List.reverse_append, List.takeWhile_append_dropWhile, List.reverse_reverse]

theorem Whole.trimSpan?_sound (h : Whole s p) (hq : s.trimSpan? p = some q) :
    Whole s q ∧ p.start ≤ q.start ∧ q.start < q.stop ∧ q.stop ≤ p.stop := by
  unfold trimSpan? at hq
  dsimp only at hq
  split at hq
  · next hlt =>
    obtain rfl := Option.some.inj hq
    have hlead := h.boundary_inside (List.takeWhile_append_dropWhile (p := isBlank)).symm
    have htrail := (dropEndWhile_append isBlank (s.spanText p)).symm
    have hcore : p.start + byteSize (dropEndWhile isBlank (s.spanText p)) =
        p.stop - byteSize ((s.spanText p).reverse.takeWhile isBlank) := by
      have hsize := h.byteSize_spanText
      have hsum := congrArg byteSize htrail
      rw [byteSize_append, byteSize_reverse] at hsum
      omega
    have hstop := h.boundary_inside htrail
    rw [hcore] at hstop
    have := h.stop_le
    exact ⟨⟨Nat.le_of_lt hlt, by dsimp only; omega, hlead, hstop⟩, by dsimp only; omega, hlt,
      by dsimp only; omega⟩
  · simp at hq

theorem trimSpan?_eq_some (hq : s.trimSpan? p = some q) :
    q.start = p.start + byteSize ((s.spanText p).takeWhile isBlank) ∧
      q.stop = p.stop - byteSize ((s.spanText p).reverse.takeWhile isBlank) := by
  unfold trimSpan? at hq
  dsimp only at hq
  split at hq
  · obtain rfl := Option.some.inj hq
    exact ⟨rfl, rfl⟩
  · simp at hq

/-- Trimming keeps every character that is not blank. -/
theorem Whole.trimSpan?_of_split (h : Whole s p) {c : Char} (ht : s.spanText p = before ++ c :: after)
    (hc : isBlank c = false) :
    ∃ q, s.trimSpan? p = some q ∧ q.start ≤ p.start + byteSize before ∧
      p.start + byteSize before + c.utf8Size ≤ q.stop := by
  have hlead : byteSize ((s.spanText p).takeWhile isBlank) ≤ byteSize before := by
    rw [ht]
    exact byteSize_takeWhile_le hc
  have htrail : byteSize ((s.spanText p).reverse.takeWhile isBlank) ≤ byteSize after := by
    rw [ht, List.reverse_append, List.reverse_cons, List.append_assoc, List.singleton_append,
      ← byteSize_reverse after]
    exact byteSize_takeWhile_le hc
  have hsize := h.byteSize_spanText
  have hpos := c.utf8Size_pos
  rw [ht, byteSize_append, byteSize_cons] at hsize
  exact ⟨_, if_pos (by omega), by dsimp only; omega, by dsimp only; omega⟩

theorem Whole.trimSpan?_covers (h : Whole s p) {x y : Nat} (hx : p.start ≤ x) (hxy : x ≤ y)
    (hy : y < p.stop) {b c : UInt8} (hb : s.code[x]? = some b) (hc : s.code[y]? = some c)
    (hbascii : b.toNat < 0x80) (hcascii : c.toNat < 0x80)
    (hbblank : isBlank (Char.ofNat b.toNat) = false) (hcblank : isBlank (Char.ofNat c.toNat) = false) :
    ∃ q, s.trimSpan? p = some q ∧ q.start ≤ x ∧ y < q.stop := by
  obtain ⟨before, after, htext, rfl⟩ := h.split_at hx (by omega) hb hbascii
  obtain ⟨before', after', htext', rfl⟩ := h.split_at (by omega) hy hc hcascii
  obtain ⟨q, hq, hstart, -⟩ := h.trimSpan?_of_split htext hbblank
  obtain ⟨r, hr, -, hstop⟩ := h.trimSpan?_of_split htext' hcblank
  obtain rfl : q = r := Option.some.inj (hq.symm.trans hr)
  have hpos := (Char.ofNat c.toNat).utf8Size_pos
  exact ⟨q, hq, hstart, by omega⟩

/-- Spans between two offsets, in order and apart. -/
structure Layout (s : Source) (start stop : Nat) (spans : List Span) : Prop where
  ordered : spans.Pairwise fun p q => p.stop ≤ q.start
  within : ∀ p ∈ spans, start ≤ p.start ∧ p.stop ≤ stop
  whole : ∀ p ∈ spans, Whole s p

theorem Layout.apart {spans : List Span} (h : Layout s start stop spans) (hp : p ∈ spans)
    (hq : q ∈ spans) (hne : p ≠ q) : p.stop ≤ q.start ∨ q.stop ≤ p.start := by
  obtain ⟨i, hi, rfl⟩ := List.mem_iff_getElem.mp hp
  obtain ⟨j, hj, rfl⟩ := List.mem_iff_getElem.mp hq
  rcases Nat.lt_trichotomy i j with hij | rfl | hij
  · exact .inl (List.pairwise_iff_getElem.mp h.ordered i j hi hj hij)
  · exact absurd rfl hne
  · exact .inr (List.pairwise_iff_getElem.mp h.ordered j i hj hi hij)

/-- Cuts of a range: in order, and each at an ASCII byte. -/
structure CutsOf (s : Source) (start stop : Nat) (cuts : List Nat) : Prop where
  ordered : cuts.Pairwise (· < ·)
  within : ∀ c ∈ cuts, start ≤ c ∧ c < stop
  ascii : ∀ c ∈ cuts, ∃ b, s.code[c]? = some b ∧ b.toNat < 0x80

theorem Aligned.layout_spansBetween (h : Aligned s) {cuts : List Nat} (hspan : Whole s ⟨start, stop⟩)
    (hcuts : CutsOf s start stop cuts) : Layout s start stop (spansBetween start stop cuts) := by
  induction cuts generalizing start with
  | nil =>
    refine ⟨List.pairwise_singleton _ _, ?_, ?_⟩ <;> simp [spansBetween, hspan]
  | cons c cuts ih =>
    obtain ⟨hstart, hstop⟩ := hcuts.within c List.mem_cons_self
    obtain ⟨b, hb, hascii⟩ := hcuts.ascii c List.mem_cons_self
    obtain ⟨hlater, hordered⟩ := List.pairwise_cons.mp hcuts.ordered
    have hfirst := (hspan.split hstart (Nat.le_of_lt hstop) (h.boundary_at_ascii hb hascii)).1
    have hrest := (hspan.split (Nat.le_succ_of_le hstart) hstop (h.boundary_after_ascii hb hascii)).2
    have hlayout := ih hrest {
      ordered := hordered
      within := fun d hd => ⟨hlater d hd, (hcuts.within d (List.mem_cons_of_mem _ hd)).2⟩
      ascii := fun d hd => hcuts.ascii d (List.mem_cons_of_mem _ hd) }
    rw [spansBetween]
    refine ⟨List.pairwise_cons.mpr ⟨fun q hq => ?_, hlayout.ordered⟩, fun p hp => ?_, fun p hp => ?_⟩
    · have := (hlayout.within q hq).1
      dsimp only
      omega
    · rcases List.mem_cons.mp hp with rfl | hp
      · exact ⟨Nat.le_refl _, Nat.le_of_lt hstop⟩
      · have := hlayout.within p hp
        omega
    · rcases List.mem_cons.mp hp with rfl | hp
      · exact hfirst
      · exact hlayout.whole p hp

/-- Bytes with no cut between them are in one span. -/
theorem spansBetween_covers {cuts : List Nat} {x y : Nat} (hx : start ≤ x) (hy : y < stop)
    (hcuts : ∀ c ∈ cuts, c < x ∨ y < c) :
    ∃ p ∈ spansBetween start stop cuts, p.start ≤ x ∧ y < p.stop := by
  induction cuts generalizing start with
  | nil => exact ⟨⟨start, stop⟩, by simp [spansBetween], hx, hy⟩
  | cons c cuts ih =>
    rw [spansBetween]
    rcases hcuts c List.mem_cons_self with hc | hc
    · obtain ⟨p, hp, hpx⟩ := ih hc fun d hd => hcuts d (List.mem_cons_of_mem _ hd)
      exact ⟨p, List.mem_cons_of_mem _ hp, hpx⟩
    · exact ⟨⟨start, c⟩, List.mem_cons_self, hx, hc⟩

theorem Layout.trim {spans : List Span} (h : Layout s start stop spans) :
    Layout s start stop (spans.filterMap s.trimSpan?) where
  ordered := by
    refine List.pairwise_filterMap.mpr (h.ordered.imp_of_mem ?_)
    intro p q hp hq hpq p' hp' q' hq'
    have := (h.whole p hp).trimSpan?_sound hp'
    have := (h.whole q hq).trimSpan?_sound hq'
    omega
  within := by
    intro q hq
    obtain ⟨p, hp, hpq⟩ := List.mem_filterMap.mp hq
    have := h.within p hp
    have := (h.whole p hp).trimSpan?_sound hpq
    omega
  whole := by
    intro q hq
    obtain ⟨p, hp, hpq⟩ := List.mem_filterMap.mp hq
    exact ((h.whole p hp).trimSpan?_sound hpq).1

end Concord.Source
