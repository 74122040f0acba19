import Mathlib.Data.List.Chain
import Concord.Proofs.Matching
import Concord.Proofs.Nesting
import Concord.Proofs.Pieces

/-! Members are cut where the depth of brackets is zero, angle brackets included. A closing angle
that is no bracket lowers the depth, and then a member may end inside an object type that it starts.
This is the only way: without such an angle an object type is closed inside its member. -/
namespace Concord.TypeScript

open Source Text Pattern

variable {s : Source} {b : UInt8}

/-- A byte that ends a member at depth zero. -/
def IsSeparator (b : UInt8) : Prop := b = Byte.semicolon ∨ b = Byte.comma ∨ b = Byte.newline

theorem memberCuts_cons (b : UInt8) (rest : List UInt8) (offset depth : Nat) (prior : UInt8) :
    (∃ _ : IsSeparator b, memberCuts (b :: rest) offset depth prior =
        offset :: memberCuts rest (offset + 1) (depthAfter depth prior b) b) ∨
      memberCuts (b :: rest) offset depth prior =
        memberCuts rest (offset + 1) (depthAfter depth prior b) b := by
  rw [memberCuts]
  split
  · next h =>
    simp only [Bool.and_eq_true, Bool.or_eq_true, beq_iff_eq, or_assoc] at h
    exact .inl ⟨h.2, rfl⟩
  · exact .inr rfl

theorem mem_memberCuts {bs : List UInt8} {offset depth : Nat} {prior : UInt8} {c : Nat}
    (h : c ∈ memberCuts bs offset depth prior) :
    ∃ n b, c = offset + n ∧ bs[n]? = some b ∧ IsSeparator b := by
  induction bs generalizing offset depth prior with
  | nil => simp [memberCuts] at h
  | cons b rest ih =>
    have hlater (h : c ∈ memberCuts rest (offset + 1) (depthAfter depth prior b) b) :
        ∃ n a, c = offset + n ∧ (b :: rest)[n]? = some a ∧ IsSeparator a := by
      obtain ⟨n, a, rfl, ha, hsep⟩ := ih h
      exact ⟨n + 1, a, by omega, by simpa using ha, hsep⟩
    rcases memberCuts_cons b rest offset depth prior with ⟨hsep, heq⟩ | heq
    · rw [heq] at h
      rcases List.mem_cons.mp h with rfl | h
      · exact ⟨0, b, rfl, rfl, hsep⟩
      · exact hlater h
    · rw [heq] at h
      exact hlater h

theorem memberCuts_pairwise (bs : List UInt8) (offset depth : Nat) (prior : UInt8) :
    (memberCuts bs offset depth prior).Pairwise (· < ·) := by
  induction bs generalizing offset depth prior with
  | nil => exact .nil
  | cons b rest ih =>
    rcases memberCuts_cons b rest offset depth prior with ⟨-, heq⟩ | heq
    · rw [heq]
      refine List.pairwise_cons.mpr ⟨fun c hc => ?_, ih _ _ _⟩
      obtain ⟨n, -, rfl, -⟩ := mem_memberCuts hc
      omega
    · rw [heq]
      exact ih _ _ _

theorem IsSeparator.ascii (h : IsSeparator b) : b.toNat < 0x80 ∧ b ≠ Byte.space := by
  rcases h with rfl | rfl | rfl <;> decide

theorem bracket_not_separator (h : Byte.isOpener b = true ∨ Byte.isCloser b = true) :
    ¬IsSeparator b := by
  rintro (rfl | rfl | rfl) <;> exact absurd h (by decide)

/-- The text between two brackets of the skeleton. -/
theorem whole_between (hs : Aligned s) {opening close : Nat}
    (h : Encloses s.skeleton.toList opening close) : Whole s ⟨opening + 1, close⟩ := by
  obtain ⟨o, c, ho, hc, hoc, -⟩ := h.closingFrom?
  rw [Array.getElem?_toList] at ho hc
  have hopen := bracket_ascii (.inl (isOpener_of_closerOf? hoc))
  have hclose := bracket_ascii (.inr (isCloser_of_closerOf? hoc))
  have hcode := hs.code_of_skeleton hc hclose.2.1
  exact {
    le := h.lt
    stop_le := by
      obtain ⟨hlt, -⟩ := Array.getElem?_eq_some_iff.mp hcode
      exact Nat.le_of_lt hlt
    start_boundary := hs.boundary_after_ascii (hs.code_of_skeleton ho hopen.2.1) hopen.1
    stop_boundary := hs.boundary_at_ascii hcode hclose.1 }

theorem cutsOf_memberCuts (hs : Aligned s) (opening close : Nat) (prior : UInt8) :
    CutsOf s (opening + 1) close
      (memberCuts (s.bare (opening + 1) close) (opening + 1) 0 prior) where
  ordered := memberCuts_pairwise _ _ _ _
  within := by
    intro c hc
    obtain ⟨n, b, rfl, hb, -⟩ := mem_memberCuts hc
    have := (getElem?_bare_eq_some hb).1
    omega
  ascii := by
    intro c hc
    obtain ⟨n, b, rfl, hb, hsep⟩ := mem_memberCuts hc
    have hskeleton := (getElem?_bare_eq_some hb).2
    exact ⟨b, hs.code_of_skeleton hskeleton hsep.ascii.2, hsep.ascii.1⟩

theorem joinPiece_cases (s : Source) (members : List Span) (p : Span) :
    joinPiece s members p = p :: members ∨
      ∃ last before, members = last :: before ∧
        joinPiece s members p = ⟨last.start, p.stop⟩ :: before := by
  cases members with
  | nil => exact .inl rfl
  | cons last before =>
    rw [joinPiece]
    split
    · exact .inr ⟨last, before, rfl, rfl⟩
    · exact .inl rfl

/-- Members so far, latest first, that hold the pieces so far. -/
structure Joined (s : Source) (start : Nat) (done members : List Span) : Prop where
  ordered : members.Pairwise fun later earlier => earlier.stop ≤ later.start
  within : ∀ q ∈ members, start ≤ q.start ∧ ∃ p ∈ done, q.stop = p.stop
  whole : ∀ q ∈ members, Whole s q
  holds : ∀ p ∈ done, ∃ q ∈ members, q.start ≤ p.start ∧ p.stop ≤ q.stop

section Piece

variable {start : Nat} {done members : List Span} {p : Span}

theorem Joined.cons (h : Joined s start done members) (hp : Whole s p) (hstart : start ≤ p.start)
    (hafter : ∀ q ∈ members, q.stop ≤ p.start) : Joined s start (done ++ [p]) (p :: members) where
  ordered := List.pairwise_cons.mpr ⟨hafter, h.ordered⟩
  within := by
    intro q hq
    rcases List.mem_cons.mp hq with rfl | hq
    · exact ⟨hstart, q, by simp, rfl⟩
    · obtain ⟨hle, p', hp', heq⟩ := h.within q hq
      exact ⟨hle, p', List.mem_append_left _ hp', heq⟩
  whole := List.forall_mem_cons.mpr ⟨hp, h.whole⟩
  holds := by
    intro p' hp'
    rcases List.mem_append.mp hp' with hp' | hp'
    · obtain ⟨q, hq, hpq⟩ := h.holds p' hp'
      exact ⟨q, List.mem_cons_of_mem _ hq, hpq⟩
    · obtain rfl := List.mem_singleton.mp hp'
      exact ⟨p', List.mem_cons_self, Nat.le_refl _, Nat.le_refl _⟩

theorem Joined.drawOut {last : Span} (h : Joined s start done (last :: members)) (hp : Whole s p)
    (hafter : last.stop ≤ p.start) :
    Joined s start (done ++ [p]) (⟨last.start, p.stop⟩ :: members) := by
  obtain ⟨hordered, hrest⟩ := List.pairwise_cons.mp h.ordered
  obtain ⟨hwhole, hwholes⟩ := List.forall_mem_cons.mp h.whole
  have hle := hwhole.le
  have hple := hp.le
  constructor
  · exact List.pairwise_cons.mpr ⟨hordered, hrest⟩
  · intro q hq
    rcases List.mem_cons.mp hq with rfl | hq
    · exact ⟨(h.within last List.mem_cons_self).1, p, by simp, rfl⟩
    · obtain ⟨hle, p', hp', heq⟩ := h.within q (List.mem_cons_of_mem _ hq)
      exact ⟨hle, p', List.mem_append_left _ hp', heq⟩
  · refine List.forall_mem_cons.mpr ⟨?_, hwholes⟩
    exact ⟨by dsimp only; omega, hp.stop_le, hwhole.start_boundary, hp.stop_boundary⟩
  · intro p' hp'
    rcases List.mem_append.mp hp' with hp' | hp'
    · obtain ⟨q, hq, hqp, hpq⟩ := h.holds p' hp'
      rcases List.mem_cons.mp hq with rfl | hq
      · exact ⟨_, List.mem_cons_self, hqp, by dsimp only; omega⟩
      · exact ⟨q, List.mem_cons_of_mem _ hq, hqp, hpq⟩
    · obtain rfl := List.mem_singleton.mp hp'
      exact ⟨_, List.mem_cons_self, by dsimp only; omega, Nat.le_refl _⟩

theorem Joined.add (h : Joined s start done members) (hp : Whole s p) (hstart : start ≤ p.start)
    (hafter : ∀ q ∈ done, q.stop ≤ p.start) :
    Joined s start (done ++ [p]) (joinPiece s members p) := by
  have hbefore : ∀ q ∈ members, q.stop ≤ p.start := by
    intro q hq
    obtain ⟨-, p', hp', heq⟩ := h.within q hq
    rw [heq]
    exact hafter p' hp'
  rcases joinPiece_cases s members p with heq | ⟨last, before, rfl, heq⟩
  · rw [heq]
    exact h.cons hp hstart hbefore
  · rw [heq]
    exact h.drawOut hp (hbefore last List.mem_cons_self)

end Piece

theorem Joined.addAll {start stop : Nat} {done members pieces : List Span}
    (h : Joined s start done members) (hpieces : Layout s start stop (done ++ pieces)) :
    Joined s start (done ++ pieces) (pieces.foldl (joinPiece s) members) := by
  induction pieces generalizing done members with
  | nil => simpa using h
  | cons p pieces ih =>
    have hp : p ∈ done ++ p :: pieces := by simp
    have hafter : ∀ q ∈ done, q.stop ≤ p.start := fun q hq =>
      (List.pairwise_append.mp hpieces.ordered).2.2 q hq p List.mem_cons_self
    have hnext := h.add (hpieces.whole p hp) (hpieces.within p hp).1 hafter
    rw [List.append_cons] at hpieces ⊢
    exact ih hnext hpieces

/-- The members between two brackets are in order and hold every piece. -/
theorem members_layout (hs : Aligned s) {opening close : Nat}
    (h : Encloses s.skeleton.toList opening close) :
    Layout s (opening + 1) close (members s opening close) ∧
      ∀ p ∈ (spansBetween (opening + 1) close (memberCuts (s.bare (opening + 1) close)
          (opening + 1) 0 Byte.openBrace)).filterMap s.trimSpan?,
        ∃ q ∈ members s opening close, q.start ≤ p.start ∧ p.stop ≤ q.stop := by
  have hpieces := (hs.layout_spansBetween (whole_between hs h)
    (cutsOf_memberCuts hs opening close Byte.openBrace)).trim
  have hnone : Joined s (opening + 1) [] [] := ⟨.nil, by simp, by simp, by simp⟩
  have hjoined := hnone.addAll hpieces
  refine ⟨⟨List.pairwise_reverse.mpr hjoined.ordered, fun q hq => ?_, fun q hq => ?_⟩,
    fun p hp => ?_⟩
  · obtain ⟨hstart, p, hp, heq⟩ := hjoined.within q (List.mem_reverse.mp hq)
    exact ⟨hstart, heq ▸ (hpieces.within p hp).2⟩
  · exact hjoined.whole q (List.mem_reverse.mp hq)
  · obtain ⟨q, hq, hpq⟩ := hjoined.holds p hp
    exact ⟨q, List.mem_reverse.mpr hq, hpq⟩

theorem leadingDecorators_suffix (fuel : Nat) (text : List Char) :
    (leadingDecorators fuel text).2 <:+ text := by
  induction fuel generalizing text with
  | zero => exact List.dropWhile_suffix _
  | succ fuel ih =>
    have htrim : trimStart text <:+ text := List.dropWhile_suffix _
    rw [leadingDecorators]
    split
    · exact htrim
    · exact (ih _).trans ((List.drop_suffix _ _).trans htrim)

theorem beforeInitial_isPrefix (depth : Int) (prior : Option Char) (text : List Char) :
    beforeInitial depth prior text <+: text := by
  fun_induction beforeInitial depth prior text with
  | case1 => exact List.prefix_rfl
  | case2 depth prior c rest h ih => exact List.cons_prefix_cons.mpr ⟨rfl, ih⟩
  | case3 depth prior c rest _ h ih => exact List.cons_prefix_cons.mpr ⟨rfl, ih⟩
  | case4 depth prior c rest _ _ h ih => exact List.cons_prefix_cons.mpr ⟨rfl, ih⟩
  | case5 => exact List.nil_prefix
  | case6 depth prior c rest _ _ _ h ih => exact List.cons_prefix_cons.mpr ⟨rfl, ih⟩

/-- The offset of the brace of the object type that a member starts with. -/
def objectBrace? (s : Source) (span : Span) : Option Nat :=
  let rest := (decoratorsOf s span).2
  if rest.isEmpty then none else (memberOf? span rest).bind Member.brace?

theorem brace_inside {span : Span} {rest : List Char} {m : Member} {brace : Nat}
    (hm : memberOf? span rest = some m) (hb : m.brace? = some brace) :
    ∃ before after, rest = before ++ '{' :: after ∧
      brace = span.stop - byteSize rest + byteSize before := by
  obtain ⟨found, hfound, rfl⟩ := Option.map_eq_some_iff.mp hm
  unfold Member.brace? at hb
  split at hb
  · next hhead =>
    obtain rfl := Option.some.inj hb
    dsimp only at hhead ⊢
    cases hpart : found.part? 3 with
    | none =>
      have htext : found.text 3 = [] := by simp [Match.text, hpart]
      rw [htext] at hhead
      exact absurd hhead (by decide)
    | some q =>
      have htext : found.text 3 = q.text := by simp [Match.text, hpart]
      obtain ⟨before, after, hrest, hstart⟩ := (isMatch_of_find? hfound).part hpart
      rw [htext] at hhead ⊢
      generalize htype : trimEnd (beforeInitial 0 none q.text) = typeText at hhead ⊢
      have hprefix : typeText <+: q.text := by
        rw [← htype]
        refine List.IsPrefix.trans ?_ (beforeInitial_isPrefix 0 none q.text)
        exact ⟨_, dropEndWhile_append isBlank _⟩
      obtain ⟨u, hu⟩ := hprefix
      obtain ⟨v, hv⟩ : ∃ v, trimStart typeText = '{' :: v := by
        cases hcut : trimStart typeText with
        | nil => simp [hcut] at hhead
        | cons c v => exact ⟨v, by simpa [hcut] using hhead⟩
      have hlead : typeText = typeText.takeWhile isBlank ++ '{' :: v := by
        rw [← hv, trimStart, List.takeWhile_append_dropWhile]
      refine ⟨before ++ typeText.takeWhile isBlank, v ++ u ++ after, ?_, ?_⟩
      · rw [hrest, ← hu]
        nth_rewrite 1 [hlead]
        simp
      · simp only [hstart, Option.map_some, Option.getD_some, byteSize_append]
        omega
  · simp at hb

theorem objectBrace?_inside {span : Span} (hspan : Whole s span) {brace : Nat}
    (h : objectBrace? s span = some brace) : span.start ≤ brace ∧ brace < span.stop := by
  unfold objectBrace? at h
  dsimp only at h
  split at h
  · simp at h
  · obtain ⟨m, hm, hb⟩ := Option.bind_eq_some_iff.mp h
    obtain ⟨before, after, hrest, rfl⟩ := brace_inside hm hb
    obtain ⟨lead, hlead⟩ :=
      leadingDecorators_suffix ((s.spanText span).length + 1) (s.spanText span)
    have hsize := hspan.byteSize_spanText
    have hbrace : '{'.utf8Size = 1 := by decide
    have hrestsize : byteSize (decoratorsOf s span).2 =
        byteSize before + (1 + byteSize after) := by
      rw [hrest, byteSize_append, byteSize_cons, hbrace]
    have htotal := congrArg byteSize hlead
    rw [byteSize_append] at htotal
    change _ + byteSize (decoratorsOf s span).2 = _ at htotal
    omega

/-- Every closing angle in the bytes is the second half of an arrow. -/
def OnlyArrows (bs : List UInt8) : Prop :=
  bs.IsChain fun a b => b = Byte.greater → a = Byte.equals

theorem depthAfter_opener (h : Byte.isOpener b = true) (depth : Nat) (prior : UInt8) :
    depthAfter depth prior b = depth + 1 := by
  have hb : b = Byte.openParen ∨ b = Byte.openBracket ∨ b = Byte.openBrace := by
    simpa [Byte.isOpener, or_assoc] using h
  unfold depthAfter
  grind

theorem depthAfter_closer (h : Byte.isCloser b = true) (depth : Nat) (prior : UInt8) :
    depthAfter depth prior b = depth - 1 := by
  have hb : b = Byte.closeParen ∨ b = Byte.closeBracket ∨ b = Byte.closeBrace := by
    simpa [Byte.isCloser, or_assoc] using h
  rcases hb with rfl | rfl | rfl <;> rfl

theorem le_depthAfter {a b : UInt8} (hc : Byte.isCloser b = false)
    (harrow : b = Byte.greater → a = Byte.equals) (depth : Nat) : depth ≤ depthAfter depth a b := by
  unfold depthAfter
  unfold Byte.isCloser at hc
  grind

theorem memberCuts_cons_of_not_separator (h : ¬IsSeparator b) (rest : List UInt8) (offset depth : Nat)
    (prior : UInt8) :
    memberCuts (b :: rest) offset depth prior =
      memberCuts rest (offset + 1) (depthAfter depth prior b) b := by
  rcases memberCuts_cons b rest offset depth prior with ⟨hsep, -⟩ | heq
  · exact absurd hsep h
  · exact heq

theorem memberCuts_cons_of_pos {depth : Nat} (h : 0 < depth) (b : UInt8) (rest : List UInt8)
    (offset : Nat) (prior : UInt8) :
    memberCuts (b :: rest) offset depth prior =
      memberCuts rest (offset + 1) (depthAfter depth prior b) b := by
  have hne : (depth == 0) = false := by simpa using Nat.ne_of_gt h
  rw [memberCuts]
  simp [hne]

/-- Inside brackets nested text is not cut, and it does not lower the depth. -/
theorem memberCuts_nested {w : List UInt8} (hw : Nested w) {prior : UInt8}
    (harrows : OnlyArrows (prior :: w)) (rest : List UInt8) (offset : Nat) {depth : Nat}
    (hpos : 0 < depth) :
    ∃ depth' prior', depth ≤ depth' ∧ memberCuts (w ++ rest) offset depth prior =
      memberCuts rest (offset + w.length) depth' prior' := by
  induction hw generalizing prior rest offset depth with
  | nil => exact ⟨depth, prior, Nat.le_refl _, rfl⟩
  | @plain b w ho hc hw ih =>
    obtain ⟨harrow, hrest⟩ := List.isChain_cons_cons.mp harrows
    have hle := le_depthAfter hc harrow depth
    obtain ⟨depth', prior', hle', heq⟩ := ih hrest rest (offset + 1) (Nat.lt_of_lt_of_le hpos hle)
    refine ⟨depth', prior', Nat.le_trans hle hle', ?_⟩
    rw [List.cons_append, memberCuts_cons_of_pos hpos, heq, List.length_cons]
    congr 1
    omega
  | @pair o c inner w hoc hi hw ihi ihw =>
    obtain ⟨-, hpair⟩ := List.isChain_cons_cons.mp harrows
    rw [← List.cons_append] at hpair
    obtain ⟨hinner, hafter⟩ := List.isChain_split.mp hpair
    obtain ⟨d₁, p₁, hle₁, heq₁⟩ := ihi (hinner.left_of_append) (c :: (w ++ rest)) (offset + 1)
      (Nat.succ_pos depth)
    have hd₁ : 0 < d₁ - 1 := by omega
    obtain ⟨d₂, p₂, hle₂, heq₂⟩ := ihw hafter rest (offset + 1 + inner.length + 1) hd₁
    refine ⟨d₂, p₂, by omega, ?_⟩
    rw [List.cons_append, List.append_assoc, List.cons_append, memberCuts_cons_of_pos hpos,
      depthAfter_opener (isOpener_of_closerOf? hoc), heq₁, memberCuts_cons_of_pos (by omega),
      depthAfter_closer (isCloser_of_closerOf? hoc), heq₂]
    congr 1
    simp only [List.length_cons, List.length_append]
    omega

theorem memberCuts_append (bs rest : List UInt8) (offset depth : Nat) (prior : UInt8) :
    ∃ depth' prior', memberCuts (bs ++ rest) offset depth prior =
      memberCuts bs offset depth prior ++ memberCuts rest (offset + bs.length) depth' prior' := by
  induction bs generalizing offset depth prior with
  | nil => exact ⟨depth, prior, rfl⟩
  | cons b bs ih =>
    obtain ⟨depth', prior', heq⟩ := ih (offset + 1) (depthAfter depth prior b) b
    refine ⟨depth', prior', ?_⟩
    have hlen : offset + 1 + bs.length = offset + (b :: bs).length := by
      rw [List.length_cons]
      omega
    rw [List.cons_append, memberCuts, memberCuts, heq, hlen]
    split <;> rfl

/-- A pair of brackets in a record that holds no closing angle is not cut. -/
theorem cuts_outside {opening close brace k : Nat} (hob : opening < brace) (hkc : k < close)
    (h : Encloses s.skeleton.toList brace k) (harrows : OnlyArrows (s.bare brace k))
    (prior : UInt8) {cut : Nat}
    (hcut : cut ∈ memberCuts (s.bare (opening + 1) close) (opening + 1) 0 prior) :
    cut < brace ∨ k < cut := by
  obtain ⟨o, c, ho, hc, hoc, -⟩ := h.closingFrom?
  rw [Array.getElem?_toList] at ho hc
  have hlt := h.lt
  have hinner := h.inner_nested
  rw [← bare_eq_extract] at hinner
  have hpair : s.bare brace k = o :: s.bare (brace + 1) k := by
    rw [s.bare_append (Nat.le_succ brace) hlt, bare_singleton ho, List.singleton_append]
  obtain ⟨hksize, -⟩ := Array.getElem?_eq_some_iff.mp hc
  have hlen : (s.bare (opening + 1) brace).length = brace - (opening + 1) :=
    length_bare (Nat.le_of_lt (Nat.lt_trans hlt hksize))
  have hlen' : (s.bare (brace + 1) k).length = k - (brace + 1) := length_bare (Nat.le_of_lt hksize)
  rw [hpair] at harrows
  -- the cuts before the pair come first; then the pair is passed over
  obtain ⟨depth, prior', happend⟩ := memberCuts_append (s.bare (opening + 1) brace)
    (o :: (s.bare (brace + 1) k ++ c :: s.bare (k + 1) close)) (opening + 1) 0 prior
  obtain ⟨depth', prior'', -, hpass⟩ := memberCuts_nested hinner harrows
    (c :: s.bare (k + 1) close) (brace + 1) (Nat.succ_pos depth)
  have ho' := bracket_not_separator (.inl (isOpener_of_closerOf? hoc))
  have hc' := bracket_not_separator (.inr (isCloser_of_closerOf? hoc))
  have hstart : opening + 1 + (brace - (opening + 1)) = brace := by omega
  have hend : brace + 1 + (k - (brace + 1)) = k := by omega
  rw [bare_around hob hlt hkc ho hc, happend, hlen, hstart,
    memberCuts_cons_of_not_separator ho', depthAfter_opener (isOpener_of_closerOf? hoc), hpass, hlen', hend,
    memberCuts_cons_of_not_separator hc'] at hcut
  rcases List.mem_append.mp hcut with hcut | hcut
  · obtain ⟨n, b, rfl, hb, -⟩ := mem_memberCuts hcut
    exact .inl (getElem?_bare_eq_some hb).1
  · obtain ⟨n, b, rfl, -⟩ := mem_memberCuts hcut
    exact .inr (by omega)

/-- Bytes between which no member is cut are in one member. -/
theorem exists_member_holding (hs : Aligned s) {opening close : Nat}
    (h : Encloses s.skeleton.toList opening close) {x y : Nat} (hx : opening < x) (hxy : x ≤ y)
    (hy : y < close) {b c : UInt8} (hb : s.skeleton[x]? = some b) (hc : s.skeleton[y]? = some c)
    (hbracket : Byte.isOpener b = true ∨ Byte.isCloser b = true)
    (hbracket' : Byte.isOpener c = true ∨ Byte.isCloser c = true)
    (hcuts : ∀ cut ∈ memberCuts (s.bare (opening + 1) close) (opening + 1) 0 Byte.openBrace,
      cut < x ∨ y < cut) :
    ∃ q ∈ members s opening close, q.start ≤ x ∧ y < q.stop := by
  obtain ⟨hascii, hspace, hblank⟩ := bracket_ascii hbracket
  obtain ⟨hascii', hspace', hblank'⟩ := bracket_ascii hbracket'
  obtain ⟨p, hp, hpx, hpy⟩ := spansBetween_covers hx hy hcuts
  have hlayout := hs.layout_spansBetween (whole_between hs h)
    (cutsOf_memberCuts hs opening close Byte.openBrace)
  obtain ⟨p', hp', hpx', hpy'⟩ := (hlayout.whole p hp).trimSpan?_covers hpx hxy hpy
    (hs.code_of_skeleton hb hspace) (hs.code_of_skeleton hc hspace') hascii hascii' hblank hblank'
  obtain ⟨q, hq, hqp, hpq⟩ := (members_layout hs h).2 p' (List.mem_filterMap.mpr ⟨p, hp, hp'⟩)
  exact ⟨q, hq, by omega, by omega⟩

/-- An object type in a member of a record: its brace and where it is closed. -/
structure ObjectIn (s : Source) (opening close : Nat) (span : Span) (brace k : Nat) : Prop where
  span_mem : span ∈ members s opening close
  brace_eq : objectBrace? s span = some brace
  closing_eq : s.closing? brace = some k

variable {opening close brace k : Nat} {span : Span}

theorem ObjectIn.place (hs : Aligned s) (hn : Nested s.skeleton.toList)
    (hclose : s.closing? opening = some close) (h : ObjectIn s opening close span brace k) :
    opening < brace ∧ span.start ≤ brace ∧ brace < span.stop ∧ k < close := by
  have houter := (closing?_eq_some_iff hn).mp hclose
  obtain ⟨hlayout, -⟩ := members_layout hs houter
  have hwithin := hlayout.within span h.span_mem
  have hinside := objectBrace?_inside (hlayout.whole span h.span_mem) h.brace_eq
  have hpairs := houter.disjoint_or_inside ((closing?_eq_some_iff hn).mp h.closing_eq) (by omega)
  omega

/-- An object type is closed inside its member exactly if no other member starts inside it. -/
theorem ObjectIn.closed_inside_iff (hs : Aligned s) (hn : Nested s.skeleton.toList)
    (hclose : s.closing? opening = some close) (h : ObjectIn s opening close span brace k) :
    k < span.stop ↔ ∀ q ∈ members s opening close, ¬(brace < q.start ∧ q.start ≤ k) := by
  obtain ⟨hob, hsb, hbs, hkc⟩ := h.place hs hn hclose
  have houter := (closing?_eq_some_iff hn).mp hclose
  have hinner := (closing?_eq_some_iff hn).mp h.closing_eq
  have hlt := hinner.lt
  obtain ⟨hlayout, -⟩ := members_layout hs houter
  constructor
  · rintro hk q hq ⟨hbq, hqk⟩
    have hne : span ≠ q := by
      rintro rfl
      omega
    have := (hlayout.whole q hq).le
    rcases hlayout.apart h.span_mem hq hne with hapart | hapart <;> omega
  · intro hnone
    by_contra hk
    -- the closing bracket is in some member, and that one starts inside the object type
    obtain ⟨o, c, -, hc, hoc, -⟩ := hinner.closingFrom?
    rw [Array.getElem?_toList] at hc
    have hbracket : Byte.isOpener c = true ∨ Byte.isCloser c = true :=
      .inr (isCloser_of_closerOf? hoc)
    obtain ⟨q, hq, hqk, hkq⟩ := exists_member_holding hs houter (Nat.lt_trans hob hlt)
      (Nat.le_refl k) hkc hc hc hbracket hbracket (fun cut hcut => by
        obtain ⟨n, b, rfl, hb, hsep⟩ := mem_memberCuts hcut
        have hb := (getElem?_bare_eq_some hb).2
        have hne : opening + 1 + n ≠ k := by
          rintro rfl
          obtain rfl := Option.some.inj (hb.symm.trans hc)
          exact bracket_not_separator hbracket hsep
        omega)
    have hne : span ≠ q := by
      rintro rfl
      omega
    have hstart := hnone q hq
    rcases hlayout.apart h.span_mem hq hne with hapart | hapart <;> omega

/-- An object type that is not closed inside its member holds a closing angle that is no arrow. -/
theorem ObjectIn.exists_angle (hs : Aligned s) (hn : Nested s.skeleton.toList)
    (hclose : s.closing? opening = some close) (h : ObjectIn s opening close span brace k)
    (hk : span.stop ≤ k) :
    ∃ j, brace ≤ j ∧ j + 1 < k ∧ s.skeleton[j + 1]? = some Byte.greater ∧
      s.skeleton[j]? ≠ some Byte.equals := by
  obtain ⟨hob, hsb, hbs, hkc⟩ := h.place hs hn hclose
  have houter := (closing?_eq_some_iff hn).mp hclose
  have hinner := (closing?_eq_some_iff hn).mp h.closing_eq
  obtain ⟨o, c, ho, hc, hoc, -⟩ := hinner.closingFrom?
  rw [Array.getElem?_toList] at ho hc
  by_contra hnone
  have harrows : OnlyArrows (s.bare brace k) := by
    refine List.isChain_iff_getElem.mpr fun i hi hangle => ?_
    have hfirst := getElem?_bare_eq_some (List.getElem?_eq_getElem (Nat.lt_of_succ_lt hi))
    have hsecond := getElem?_bare_eq_some (List.getElem?_eq_getElem hi)
    by_contra hequals
    refine hnone ⟨brace + i, by omega, by omega, ?_, ?_⟩
    · rw [← hangle]
      exact hsecond.2
    · rw [hfirst.2]
      simpa using hequals
  obtain ⟨q, hq, hqb, hkq⟩ := exists_member_holding hs houter hob (Nat.le_of_lt hinner.lt) hkc ho hc
    (.inl (isOpener_of_closerOf? hoc)) (.inr (isCloser_of_closerOf? hoc))
    (fun cut hcut => cuts_outside hob hkc hinner harrows Byte.openBrace hcut)
  have hne : span ≠ q := by
    rintro rfl
    omega
  have := hinner.lt
  rcases (members_layout hs houter).1.apart h.span_mem hq hne with hapart | hapart <;> omega

end Concord.TypeScript
