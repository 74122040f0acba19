import Concord.Proofs.Views

/-! The brackets of a skeleton are well nested over all three kinds at once. The search for a
closing bracket counts one kind alone, and by the nesting of the others it finds the bracket that
closes the opening one in every kind. -/
namespace Concord.Source

variable {bs u v w : List UInt8} {b : UInt8} {offset : Nat} {stack : List Pending}

theorem isOpener_of_closerOf? {o c : UInt8} (h : Byte.closerOf? o = some c) :
    Byte.isOpener o = true := by
  unfold Byte.closerOf? at h
  unfold Byte.isOpener
  grind

theorem isCloser_of_closerOf? {o c : UInt8} (h : Byte.closerOf? o = some c) :
    Byte.isCloser c = true := by
  unfold Byte.closerOf? at h
  unfold Byte.isCloser
  grind

theorem bracket_ascii (h : Byte.isOpener b = true ∨ Byte.isCloser b = true) :
    b.toNat < 0x80 ∧ b ≠ Byte.space ∧ Text.isBlank (Char.ofNat b.toNat) = false := by
  have hcases : b = Byte.openParen ∨ b = Byte.openBracket ∨ b = Byte.openBrace ∨
      b = Byte.closeParen ∨ b = Byte.closeBracket ∨ b = Byte.closeBrace := by
    simpa [Byte.isOpener, Byte.isCloser, or_assoc] using h
  rcases hcases with rfl | rfl | rfl | rfl | rfl | rfl <;> decide

theorem closerOf?_inj {o o' c : UInt8} (h : Byte.closerOf? o = some c)
    (h' : Byte.closerOf? o' = some c) : o = o' := by
  unfold Byte.closerOf? Byte.openParen Byte.openBracket Byte.openBrace Byte.closeParen
    Byte.closeBracket Byte.closeBrace at h h'
  grind

theorem opener_ne_closer {o c : UInt8} (ho : Byte.isOpener o = true) (hc : Byte.isCloser c = true) :
    o ≠ c := by
  unfold Byte.isOpener Byte.openParen Byte.openBracket Byte.openBrace at ho
  unfold Byte.isCloser Byte.closeParen Byte.closeBracket Byte.closeBrace at hc
  grind

/-- Bytes whose brackets are well nested, each closed by one of its own kind. -/
inductive Nested : List UInt8 → Prop
  | nil : Nested []
  | plain {b : UInt8} {w : List UInt8} (ho : Byte.isOpener b = false) (hc : Byte.isCloser b = false)
      (hw : Nested w) : Nested (b :: w)
  | pair {o c : UInt8} {inner w : List UInt8} (hoc : Byte.closerOf? o = some c)
      (hi : Nested inner) (hw : Nested w) : Nested (o :: (inner ++ c :: w))

/-- Bytes that close the brackets of a stack, innermost first. -/
inductive Closes : List Pending → List UInt8 → Prop
  | done {w : List UInt8} (hw : Nested w) : Closes [] w
  | close {o c : UInt8} {at_ : Nat} {stack : List Pending} {w rest : List UInt8}
      (hoc : Byte.closerOf? o = some c) (hw : Nested w) (hr : Closes stack rest) :
      Closes ((o, at_) :: stack) (w ++ c :: rest)

theorem Closes.cons_plain (ho : Byte.isOpener b = false) (hc : Byte.isCloser b = false)
    (h : Closes stack w) : Closes stack (b :: w) := by
  cases h with
  | done hw => exact .done (.plain ho hc hw)
  | close hoc hw hr => exact .close (w := b :: _) hoc (.plain ho hc hw) hr

theorem Closes.cons_pair {o c : UInt8} {inner w : List UInt8} (hoc : Byte.closerOf? o = some c)
    (hi : Nested inner) (h : Closes stack w) : Closes stack (o :: (inner ++ c :: w)) := by
  cases h with
  | done hw => exact .done (.pair hoc hi hw)
  | @close o' c' at_ stack w rest hoc' hw hr =>
    have h : Closes ((o', at_) :: stack) (o :: (inner ++ c :: w) ++ c' :: rest) :=
      .close hoc' (.pair hoc hi hw) hr
    simpa using h

/-- Carries the open brackets through bytes of which none is in a comment or literal. -/
def nest (bs : List UInt8) : (offset : Nat) → List Pending → Except Imbalance (List Pending) :=
  nestTokens (bs.map .plain)

theorem nest_cons : nest (b :: bs) offset stack = nestByte b offset stack >>= nest bs (offset + 1) := by
  rw [nest, List.map_cons, nestTokens]
  cases nestByte b offset stack <;> rfl

theorem nest_cons_plain (ho : Byte.isOpener b = false) (hc : Byte.isCloser b = false) :
    nest (b :: bs) offset stack = nest bs (offset + 1) stack := by
  have hstep : nestByte b offset stack = .ok stack := by simp [nestByte, ho, hc]
  rw [nest_cons, hstep]
  rfl

theorem nest_cons_opener (ho : Byte.isOpener b = true) :
    nest (b :: bs) offset stack = nest bs (offset + 1) ((b, offset) :: stack) := by
  have hstep : nestByte b offset stack = .ok ((b, offset) :: stack) := by simp [nestByte, ho]
  rw [nest_cons, hstep]
  rfl

theorem nest_cons_closer {o : UInt8} {j : Nat} (hoc : Byte.closerOf? o = some b) :
    nest (b :: bs) offset ((o, j) :: stack) = nest bs (offset + 1) stack := by
  have hc := isCloser_of_closerOf? hoc
  have hb : Byte.isOpener b ≠ true := fun h => opener_ne_closer h hc rfl
  have hstep : nestByte b offset ((o, j) :: stack) = .ok stack := by simp [nestByte, hb, hc, hoc]
  rw [nest_cons, hstep]
  rfl

theorem closes_of_nest (h : nest bs offset stack = .ok []) : Closes stack bs := by
  induction bs generalizing offset stack with
  | nil =>
    obtain rfl : stack = [] := Except.ok.inj h
    exact .done .nil
  | cons b rest ih =>
    by_cases ho : Byte.isOpener b = true
    · rw [nest_cons_opener ho] at h
      cases ih h with
      | close hoc hi hr => exact hr.cons_pair hoc hi
    · by_cases hc : Byte.isCloser b = true
      · match stack with
        | [] => simp [nest_cons, nestByte, ho, hc, bind, Except.bind] at h
        | (o, at_) :: stack =>
          by_cases hoc : Byte.closerOf? o = some b
          · rw [nest_cons_closer hoc] at h
            exact .close (w := []) hoc .nil (ih h)
          · simp [nest_cons, nestByte, ho, hc, hoc, bind, Except.bind] at h
      · have ho : Byte.isOpener b = false := by simpa using ho
        have hc : Byte.isCloser b = false := by simpa using hc
        rw [nest_cons_plain ho hc] at h
        exact (ih h).cons_plain ho hc

theorem nested_of_nest (h : nest bs 0 [] = .ok []) : Nested bs := by
  cases closes_of_nest h with
  | done hw => exact hw

theorem nest_append (hw : Nested w) (bs : List UInt8) (offset : Nat) (stack : List Pending) :
    nest (w ++ bs) offset stack = nest bs (offset + w.length) stack := by
  induction hw generalizing bs offset stack with
  | nil => rfl
  | @plain b w ho hc hw ih =>
    rw [List.cons_append, nest_cons_plain ho hc, ih, List.length_cons]
    congr 1
    omega
  | @pair o c inner w hoc hi hw ihi ihw =>
    rw [List.cons_append, List.append_assoc, nest_cons_opener (isOpener_of_closerOf? hoc), ihi,
      List.cons_append, nest_cons_closer hoc, ihw]
    congr 1
    simp only [List.length_cons, List.length_append]
    omega

theorem nest_eq_ok (hw : Nested w) : nest w 0 [] = .ok [] := by
  have h := nest_append hw [] 0 []
  rwa [List.append_nil] at h

theorem Nested.append (hv : Nested v) (hw : Nested w) : Nested (v ++ w) := by
  induction hv with
  | nil => exact hw
  | plain ho hc hv ih => exact .plain ho hc ih
  | @pair o c inner v hoc hi hv ihi ih =>
    have h : Nested (o :: (inner ++ c :: (v ++ w))) := .pair hoc hi ih
    simpa using h

theorem nested_of_plain (h : ∀ b ∈ w, Byte.isOpener b = false ∧ Byte.isCloser b = false) :
    Nested w := by
  induction w with
  | nil => exact .nil
  | cons b w ih =>
    obtain ⟨⟨ho, hc⟩, hw⟩ := List.forall_mem_cons.mp h
    exact .plain ho hc (ih hw)

theorem nested_hide (w : List UInt8) : Nested (w.map Byte.hide) := by
  refine nested_of_plain fun b hb => ?_
  obtain ⟨a, -, rfl⟩ := List.mem_map.mp hb
  unfold Byte.hide
  split
  · next h => rw [beq_iff_eq.mp h]; decide
  · decide

theorem literalMarks_plain (language : Language) :
    ∀ c ∈ literalMarks language.lexis, Byte.isOpener c = false ∧ Byte.isCloser c = false := by
  cases language <;> decide +kernel

/-- A token that is more than one byte shows no bracket that counts: what it hides is blank, and the
marks of a literal are no brackets. -/
theorem nested_skeleton {language : Language} {last : Option UInt8} {t : Token}
    (h : tokenAt language.lexis last b bs = .ok t) : (∃ a, t = .plain a) ∨ Nested t.skeleton := by
  rcases tokenAt_cases h with hcomment | hliteral | rfl
  · rcases commentAt_sound hcomment with ⟨_, _, -, rfl, -⟩ | ⟨_, _, _, _, -, rfl, -⟩ <;>
      exact .inr (nested_hide _)
  · obtain ⟨q, body, -, rfl, -, hq, -⟩ := literalAt_sound hliteral
    have hmark : Nested q := nested_of_plain fun c hc => literalMarks_plain language c (hq c hc)
    exact .inr ((hmark.append (nested_hide body)).append hmark)
  · exact .inl ⟨b, rfl⟩

theorem nestTokens_eq_nest {ts : List Token} (h : ∀ t ∈ ts, (∃ a, t = .plain a) ∨ Nested t.skeleton)
    (offset : Nat) (stack : List Pending) :
    nestTokens ts offset stack = nest (ts.flatMap Token.skeleton) offset stack := by
  induction ts generalizing offset stack with
  | nil => rfl
  | cons t ts ih =>
    obtain ⟨ht, hts⟩ := List.forall_mem_cons.mp h
    by_cases hplain : ∃ a, t = .plain a
    · obtain ⟨a, rfl⟩ := hplain
      simp only [nestTokens, ih hts, nest, List.flatMap_cons, Token.skeleton, List.singleton_append,
        List.map_cons]
    · have hsize : t.skeleton.length = t.size :=
        t.skeleton_masks.length_eq.trans t.code_masks.length_eq
      rw [List.flatMap_cons, nest_append (ht.resolve_left hplain), hsize, ← ih hts, nestTokens]
      exact fun a ha => hplain ⟨a, ha⟩

/-- The brackets that the tokens of a text leave open are those of its skeleton. -/
theorem nestTokens_of_tokens {language : Language} {last : Option UInt8} {ts : List Token}
    (h : tokens language.lexis last bs = (ts, none)) (offset : Nat) (stack : List Pending) :
    nestTokens ts offset stack = nest (ts.flatMap Token.skeleton) offset stack := by
  refine nestTokens_eq_nest ?_ offset stack
  refine tokens_induction (P := fun _ ts => ∀ t ∈ ts, (∃ a, t = .plain a) ∨ Nested t.skeleton)
    (asciiMarks_lexis language) (by simp) ?_ h
  intro last b rest t us after ht _ ih
  exact List.forall_mem_cons.mpr ⟨nested_skeleton ht, ih⟩

/-- After each opening bracket stands nested text and then its closing bracket. -/
theorem Nested.after_opener (h : Nested bs) {before after : List UInt8} {o : UInt8}
    (hbs : bs = before ++ o :: after) (ho : Byte.isOpener o = true) :
    ∃ inner c rest, after = inner ++ c :: rest ∧ Byte.closerOf? o = some c ∧ Nested inner := by
  induction h generalizing before after with
  | nil => simp at hbs
  | @plain b w hbo hbc hw ih =>
    cases before with
    | nil =>
      obtain ⟨rfl, rfl⟩ := List.cons.inj hbs
      simp [hbo] at ho
    | cons a before => exact ih (List.cons.inj hbs).2
  | @pair o' c inner w hoc hi hw ihi ihw =>
    cases before with
    | nil =>
      obtain ⟨rfl, rfl⟩ := List.cons.inj hbs
      exact ⟨inner, c, w, rfl, hoc, hi⟩
    | cons a before =>
      -- the opener stands inside the pair or after it; it is not the closer of the pair
      have hsplit := (List.cons.inj hbs).2
      rcases List.append_eq_append_iff.mp hsplit with ⟨mid, rfl, hmid⟩ | ⟨mid, hinner, hmid⟩
      · cases mid with
        | nil =>
          obtain ⟨rfl, rfl⟩ := List.cons.inj hmid
          exact absurd rfl (opener_ne_closer ho (isCloser_of_closerOf? hoc))
        | cons d mid => exact ihw (List.cons.inj hmid).2
      · cases mid with
        | nil =>
          obtain ⟨rfl, rfl⟩ := List.cons.inj hmid
          exact absurd rfl (opener_ne_closer ho (isCloser_of_closerOf? hoc))
        | cons d mid =>
          obtain ⟨rfl, rfl⟩ := List.cons.inj hmid
          obtain ⟨inner', c', rest, rfl, hoc', hi'⟩ := ihi hinner
          exact ⟨inner', c', rest ++ c :: w, by simp, hoc', hi'⟩

theorem closingFrom?_cons (o c b : UInt8) (rest : List UInt8) (offset depth : Nat) :
    closingFrom? o c (b :: rest) offset depth =
      if b == o then closingFrom? o c rest (offset + 1) (depth + 1)
      else if b == c then
        if depth ≤ 1 then some offset else closingFrom? o c rest (offset + 1) (depth - 1)
      else closingFrom? o c rest (offset + 1) depth :=
  rfl

theorem closingFrom?_cons_other {o c b : UInt8} (hbo : b ≠ o) (hbc : b ≠ c) (rest : List UInt8)
    (offset depth : Nat) :
    closingFrom? o c (b :: rest) offset depth = closingFrom? o c rest (offset + 1) depth := by
  simp [closingFrom?_cons, hbo, hbc]

theorem closingFrom?_cons_opener (o c : UInt8) (rest : List UInt8) (offset depth : Nat) :
    closingFrom? o c (o :: rest) offset depth = closingFrom? o c rest (offset + 1) (depth + 1) := by
  simp [closingFrom?_cons]

theorem closingFrom?_cons_closer {o c : UInt8} (hco : c ≠ o) (rest : List UInt8)
    (offset depth : Nat) :
    closingFrom? o c (c :: rest) offset depth =
      if depth ≤ 1 then some offset else closingFrom? o c rest (offset + 1) (depth - 1) := by
  simp [closingFrom?_cons, hco]

/-- A search inside an open pair passes over nested text, whatever kinds it holds. -/
theorem closingFrom?_nested {o c : UInt8} (hoc : Byte.closerOf? o = some c) (hw : Nested w)
    (rest : List UInt8) (offset : Nat) {depth : Nat} (hd : 0 < depth) :
    closingFrom? o c (w ++ rest) offset depth = closingFrom? o c rest (offset + w.length) depth := by
  have ho := isOpener_of_closerOf? hoc
  have hc := isCloser_of_closerOf? hoc
  induction hw generalizing rest offset depth with
  | nil => rfl
  | @plain b w hbo hbc hw ih =>
    rw [List.cons_append, closingFrom?_cons_other (by grind) (by grind), ih _ _ hd, List.length_cons]
    congr 1
    omega
  | @pair o' c' inner w hoc' hi hw ihi ihw =>
    have ho' := isOpener_of_closerOf? hoc'
    have hc' := isCloser_of_closerOf? hoc'
    have hlen : offset + (o' :: (inner ++ c' :: w)).length =
        offset + 1 + inner.length + 1 + w.length := by
      simp only [List.length_cons, List.length_append]
      omega
    rw [hlen, List.cons_append, List.append_assoc, List.cons_append]
    by_cases hoo : o' = o
    · -- the pair is of the kind that is counted: the depth goes up by one and comes back
      subst o'
      obtain rfl : c' = c := Option.some.inj (hoc'.symm.trans hoc)
      have hdeep : ¬depth + 1 ≤ 1 := by omega
      rw [closingFrom?_cons_opener, ihi _ _ (Nat.succ_pos depth),
        closingFrom?_cons_closer (opener_ne_closer ho hc).symm, if_neg hdeep]
      exact ihw _ _ hd
    · have hcc : c' ≠ c := fun h => hoo (closerOf?_inj (h ▸ hoc') hoc)
      rw [closingFrom?_cons_other hoo (opener_ne_closer ho' hc), ihi _ _ hd,
        closingFrom?_cons_other (opener_ne_closer ho hc').symm hcc]
      exact ihw _ _ hd

theorem closingFrom?_pair {o c : UInt8} (hoc : Byte.closerOf? o = some c) {inner : List UInt8}
    (hi : Nested inner) (rest : List UInt8) (offset : Nat) :
    closingFrom? o c (o :: (inner ++ c :: rest)) offset 0 = some (offset + inner.length + 1) := by
  have hne := opener_ne_closer (isOpener_of_closerOf? hoc) (isCloser_of_closerOf? hoc)
  rw [closingFrom?_cons_opener, closingFrom?_nested hoc hi _ _ (Nat.succ_pos 0),
    closingFrom?_cons_closer hne.symm, if_pos (Nat.le_refl _)]
  congr 1
  omega

section Depth

/-- A weight of bytes under which each pair cancels, the opening bracket first. -/
structure Cancels (f : UInt8 → Int) : Prop where
  plain : ∀ b, Byte.isOpener b = false → Byte.isCloser b = false → f b = 0
  opener : ∀ o c, Byte.closerOf? o = some c → 0 ≤ f o
  pair : ∀ o c, Byte.closerOf? o = some c → f o + f c = 0

variable {f : UInt8 → Int}

@[simp] theorem total_nil : Byte.total f [] = 0 := rfl

@[simp] theorem total_cons (b : UInt8) (w : List UInt8) :
    Byte.total f (b :: w) = f b + Byte.total f w := rfl

@[simp] theorem total_append (v w : List UInt8) :
    Byte.total f (v ++ w) = Byte.total f v + Byte.total f w := by
  induction v with
  | nil => simp
  | cons b v ih => simp [ih, Int.add_assoc]

theorem Nested.total_eq_zero (hf : Cancels f) (hw : Nested w) : Byte.total f w = 0 := by
  induction hw with
  | nil => rfl
  | @plain b w hbo hbc hw ih => simp [hf.plain b hbo hbc, ih]
  | @pair o c inner w hoc hi hw ihi ihw =>
    have := hf.pair o c hoc
    simp only [total_cons, total_append, ihi, ihw]
    omega

/-- Up to any place in nested text no more brackets are closed than were opened. -/
theorem Nested.total_nonneg_of_isPrefix (hf : Cancels f) (hw : Nested w) {p : List UInt8}
    (hp : p <+: w) : 0 ≤ Byte.total f p := by
  induction hw generalizing p with
  | nil => simp [List.prefix_nil.mp hp]
  | @plain b w hbo hbc hw ih =>
    rcases List.prefix_cons_iff.mp hp with rfl | ⟨q, rfl, hq⟩
    · simp
    · have := ih hq
      simpa [hf.plain b hbo hbc] using this
  | @pair o c inner w hoc hi hw ihi ihw =>
    have hopen := hf.opener o c hoc
    rcases List.prefix_cons_iff.mp hp with rfl | ⟨q, rfl, hq⟩
    · simp
    · rcases List.prefix_or_prefix_of_prefix hq (List.prefix_append inner _) with hqi | ⟨r, rfl⟩
      · have := ihi hqi
        rw [total_cons]
        omega
      · have hr := (List.prefix_append_right_inj inner).mp hq
        rcases List.prefix_cons_iff.mp hr with rfl | ⟨v, rfl, hv⟩
        · simpa [hi.total_eq_zero hf] using hopen
        · have := hf.pair o c hoc
          have := ihw hv
          simp only [total_cons, total_append, hi.total_eq_zero hf]
          omega

end Depth

theorem cancels_kind {o c : UInt8} (hoc : Byte.closerOf? o = some c) :
    Cancels fun b => if b = o then 1 else if b = c then -1 else 0 := by
  have ho := isOpener_of_closerOf? hoc
  have hc := isCloser_of_closerOf? hoc
  constructor
  · intro b hbo hbc
    rw [if_neg (by grind), if_neg (by grind)]
  · intro o' c' hoc'
    have := opener_ne_closer (isOpener_of_closerOf? hoc') hc
    grind
  · intro o' c' hoc'
    have := opener_ne_closer (isOpener_of_closerOf? hoc') hc
    have := opener_ne_closer ho (isCloser_of_closerOf? hoc')
    by_cases h : o' = o
    · grind
    · have : c' ≠ c := fun hcc => h (closerOf?_inj (hcc ▸ hoc') hoc)
      grind

theorem total_kind (o c : UInt8) (hne : o ≠ c) (w : List UInt8) :
    Byte.total (fun b => if b = o then 1 else if b = c then -1 else 0) w =
      w.count o - w.count c := by
  induction w with
  | nil => rfl
  | cons b w ih =>
    rw [total_cons, ih, List.count_cons, List.count_cons]
    grind

theorem exists_split_of_getElem? {i : Nat} (h : bs[i]? = some b) :
    ∃ before after, bs = before ++ b :: after ∧ before.length = i := by
  obtain ⟨hi, rfl⟩ := List.getElem?_eq_some_iff.mp h
  exact ⟨bs.take i, bs.drop (i + 1), by simp, by simp; omega⟩

/-- In `bs` the brackets at `i` and `k` are of one kind and enclose nested text. -/
def Encloses (bs : List UInt8) (i k : Nat) : Prop :=
  ∃ before o inner c rest, bs = before ++ o :: (inner ++ c :: rest) ∧ Byte.closerOf? o = some c ∧
    Nested inner ∧ before.length = i ∧ i + inner.length + 1 = k

theorem encloses_of_opener (hbs : Nested bs) {i : Nat} {o : UInt8} (h : bs[i]? = some o)
    (ho : Byte.isOpener o = true) : ∃ k, Encloses bs i k := by
  obtain ⟨before, after, hsplit, rfl⟩ := exists_split_of_getElem? h
  obtain ⟨inner, c, rest, rfl, hoc, hi⟩ := hbs.after_opener hsplit ho
  exact ⟨_, before, o, inner, c, rest, hsplit, hoc, hi, rfl, rfl⟩

theorem Encloses.lt {i k : Nat} (h : Encloses bs i k) : i < k := by
  obtain ⟨before, o, inner, c, rest, -, -, -, -, hk⟩ := h
  omega

theorem Encloses.closingFrom? {i k : Nat} (h : Encloses bs i k) :
    ∃ o c, bs[i]? = some o ∧ bs[k]? = some c ∧ Byte.closerOf? o = some c ∧
      Source.closingFrom? o c (bs.drop i) i 0 = some k := by
  obtain ⟨before, o, inner, c, rest, rfl, hoc, hi, rfl, rfl⟩ := h
  refine ⟨o, c, by simp, ?_, hoc, ?_⟩
  · rw [List.getElem?_append_right (by omega)]
    have hk : before.length + inner.length + 1 - before.length = inner.length + 1 := by omega
    simp [hk]
  · rw [List.drop_left]
    exact closingFrom?_pair hoc hi rest before.length

theorem Encloses.unique {i k l : Nat} (h : Encloses bs i k) (h' : Encloses bs i l) : k = l := by
  obtain ⟨o, c, ho, -, hoc, hk⟩ := h.closingFrom?
  obtain ⟨o', c', ho', -, hoc', hl⟩ := h'.closingFrom?
  obtain rfl : o = o' := Option.some.inj (ho.symm.trans ho')
  obtain rfl : c = c' := Option.some.inj (hoc.symm.trans hoc')
  exact Option.some.inj (hk.symm.trans hl)

/-- Two pairs of brackets are disjoint or one holds the other. -/
theorem Encloses.disjoint_or_inside {i j k l : Nat} (h : Encloses bs i k) (h' : Encloses bs j l)
    (hij : i < j) : k < j ∨ l < k := by
  rcases Nat.lt_or_ge k j with hkj | hjk
  · exact .inl hkj
  refine .inr ?_
  obtain ⟨o', d, ho', -, hod, -⟩ := h'.closingFrom?
  have hopen := isOpener_of_closerOf? hod
  obtain ⟨before, o, inner, c, rest, rfl, hoc, hi, rfl, rfl⟩ := h
  -- the second opener stands in the text that the first pair encloses
  obtain ⟨n, rfl⟩ : ∃ n, j = before.length + 1 + n := ⟨j - (before.length + 1), by omega⟩
  have hget : (inner ++ c :: rest)[n]? = some o' := by
    rw [List.getElem?_append_right (by omega)] at ho'
    have hn : before.length + 1 + n - before.length = n + 1 := by omega
    simpa [hn] using ho'
  have hn : n < inner.length := by
    rcases Nat.lt_or_ge n inner.length with hn | hn
    · exact hn
    · obtain rfl : n = inner.length := by omega
      obtain rfl : c = o' := by simpa using hget
      exact absurd rfl (opener_ne_closer hopen (isCloser_of_closerOf? hoc))
  rw [List.getElem?_append_left hn] at hget
  obtain ⟨p, q, hpq, hp⟩ := exists_split_of_getElem? hget
  obtain ⟨inner', c', rest', rfl, hoc', hi'⟩ := hi.after_opener hpq hopen
  have hinside : Encloses (before ++ o :: (inner ++ c :: rest)) (before.length + 1 + n)
      (before.length + 1 + n + inner'.length + 1) := by
    refine ⟨before ++ o :: p, o', inner', c', rest' ++ c :: rest, ?_, hoc', hi', ?_, rfl⟩
    · simp [hpq]
    · simp [hp]
      omega
  have := h'.unique hinside
  simp only [hpq, List.length_append, List.length_cons]
  omega

theorem Encloses.inner_nested {i k : Nat} (h : Encloses bs i k) : Nested (bs.extract (i + 1) k) := by
  obtain ⟨before, o, inner, c, rest, rfl, -, hi, rfl, rfl⟩ := h
  have hcut : (before ++ o :: (inner ++ c :: rest)).extract (before.length + 1)
      (before.length + inner.length + 1) = inner := by
    have hlen : before.length + inner.length + 1 - (before.length + 1) = inner.length := by omega
    have hsplit : before ++ o :: (inner ++ c :: rest) = (before ++ [o]) ++ (inner ++ c :: rest) := by
      simp
    rw [List.extract_eq_take_drop, hlen, hsplit, List.drop_left' (by simp), List.take_left]
  rwa [hcut]

theorem Encloses.count_lt {i k : Nat} (h : Encloses bs i k) {o c : UInt8} (ho : bs[i]? = some o)
    (hoc : Byte.closerOf? o = some c) {j : Nat} (hij : i < j) (hjk : j ≤ k) :
    (bs.extract i j).count c < (bs.extract i j).count o := by
  obtain ⟨before, o', inner, c', rest, rfl, hoc', hi, rfl, rfl⟩ := h
  obtain rfl : o' = o := by simpa using ho
  have hne := opener_ne_closer (isOpener_of_closerOf? hoc) (isCloser_of_closerOf? hoc)
  have hcut : (before ++ o' :: (inner ++ c' :: rest)).extract before.length j =
      o' :: inner.take (j - before.length - 1) := by
    obtain ⟨n, rfl⟩ : ∃ n, j = before.length + (n + 1) := ⟨j - before.length - 1, by omega⟩
    have hn : n - inner.length = 0 := by omega
    simp [List.extract_eq_take_drop, List.take_append, hn]
  have hsum := hi.total_nonneg_of_isPrefix (cancels_kind hoc)
    (List.take_prefix (j - before.length - 1) inner)
  rw [total_kind o' c hne] at hsum
  rw [hcut, List.count_cons, List.count_cons, if_neg (by simpa using hne), if_pos (by simp)]
  omega

variable {s : Source}

theorem bare_eq_extract (s : Source) (i j : Nat) : s.bare i j = s.skeleton.toList.extract i j := by
  simp [bare]

theorem getElem?_bare_eq_some {i j n : Nat} (h : (s.bare i j)[n]? = some b) :
    i + n < j ∧ s.skeleton[i + n]? = some b := by
  rw [bare_eq_extract, List.extract_eq_take_drop, List.getElem?_take] at h
  split at h
  · next hn =>
    rw [List.getElem?_drop, Array.getElem?_toList] at h
    exact ⟨by omega, h⟩
  · simp at h

theorem bare_append (s : Source) {i m j : Nat} (him : i ≤ m) (hmj : m ≤ j) :
    s.bare i j = s.bare i m ++ s.bare m j := by
  have hlen : j - i = m - i + (j - m) := by omega
  have hm : i + (m - i) = m := by omega
  simp only [bare_eq_extract, List.extract_eq_take_drop]
  rw [hlen, List.take_add, List.drop_drop, hm]

theorem bare_singleton {i : Nat} (h : s.skeleton[i]? = some b) : s.bare i (i + 1) = [b] := by
  rw [← Array.getElem?_toList] at h
  obtain ⟨hi, rfl⟩ := List.getElem?_eq_some_iff.mp h
  rw [bare_eq_extract, List.extract_eq_take_drop, List.drop_eq_getElem_cons hi]
  simp

theorem length_bare {i j : Nat} (hj : j ≤ s.skeleton.size) : (s.bare i j).length = j - i := by
  rw [bare, Array.length_toList, Array.size_extract, Nat.min_eq_left hj]

theorem bare_around {i j a b : Nat} {x y : UInt8} (hia : i ≤ a) (hab : a < b) (hbj : b < j)
    (hx : s.skeleton[a]? = some x) (hy : s.skeleton[b]? = some y) :
    s.bare i j = s.bare i a ++ x :: (s.bare (a + 1) b ++ y :: s.bare (b + 1) j) := by
  rw [s.bare_append hia (Nat.le_of_lt (Nat.lt_trans hab hbj)), s.bare_append (Nat.le_succ a)
    (Nat.lt_trans hab hbj), s.bare_append hab (Nat.le_of_lt hbj), s.bare_append (Nat.le_succ b) hbj,
    bare_singleton hx, bare_singleton hy]
  simp

theorem bare_to_end (s : Source) (i : Nat) :
    s.bare i s.skeleton.size = s.skeleton.toList.drop i := by
  rw [bare_eq_extract, List.extract_eq_take_drop, List.take_of_length_le (by simp)]

theorem Encloses.closing? {i k : Nat} (h : Encloses s.skeleton.toList i k) : s.closing? i = some k := by
  obtain ⟨o, c, ho, -, hoc, hk⟩ := h.closingFrom?
  rw [Array.getElem?_toList] at ho
  rw [Source.closing?, ho, Option.bind_some, hoc, Option.bind_some, bare_to_end, hk]

theorem closing?_eq_some_iff (hs : Nested s.skeleton.toList) {i k : Nat} :
    s.closing? i = some k ↔ Encloses s.skeleton.toList i k := by
  refine ⟨fun h => ?_, Encloses.closing?⟩
  obtain ⟨o, ho, hc⟩ := Option.bind_eq_some_iff.mp h
  obtain ⟨c, hoc, -⟩ := Option.bind_eq_some_iff.mp hc
  rw [← Array.getElem?_toList] at ho
  obtain ⟨l, hl⟩ := encloses_of_opener hs ho (isOpener_of_closerOf? hoc)
  obtain rfl : l = k := Option.some.inj (hl.closing?.symm.trans h)
  exact hl

theorem nested_of_read {language : Language} {path content : String}
    (h : read language.lexis path content = .ok s) : Nested s.skeleton.toList := by
  obtain ⟨ts, hts, hnest, rfl⟩ := read_eq_ok h
  rw [nestTokens_of_tokens hts] at hnest
  exact nested_of_nest hnest

theorem depthStep_eq_zero (ho : Byte.isOpener b = false) (hc : Byte.isCloser b = false) :
    Byte.depthStep b = 0 := by
  simp [Byte.depthStep, ho, hc]

theorem cancels_depthStep : Cancels Byte.depthStep where
  plain := fun b ho hc => depthStep_eq_zero ho hc
  opener := fun o c hoc => by simp [Byte.depthStep, isOpener_of_closerOf? hoc]
  pair := fun o c hoc => by
    have hc := isCloser_of_closerOf? hoc
    have hno : ¬Byte.isOpener c = true := fun ho => opener_ne_closer ho hc rfl
    simp [Byte.depthStep, isOpener_of_closerOf? hoc, hc, hno]

theorem Encloses.append_left {i k : Nat} (h : Encloses bs i k) (pre : List UInt8) :
    Encloses (pre ++ bs) (pre.length + i) (pre.length + k) := by
  obtain ⟨before, o, inner, c, rest, rfl, hoc, hi, rfl, rfl⟩ := h
  exact ⟨pre ++ before, o, inner, c, rest, by simp, hoc, hi, by simp, by omega⟩

/-- Nested text that is cut in two is nested on both sides, or a pair of brackets is cut. -/
theorem Nested.append_cases (h : Nested w) (hw : w = u ++ v) :
    Nested u ∧ Nested v ∨ ∃ i k, Encloses w i k ∧ i < u.length ∧ u.length ≤ k := by
  induction h generalizing u with
  | nil =>
    obtain ⟨rfl, rfl⟩ := List.append_eq_nil_iff.mp hw.symm
    exact .inl ⟨.nil, .nil⟩
  | @plain b w ho hc hplain ih =>
    cases u with
    | nil =>
      obtain rfl : b :: w = v := hw
      exact .inl ⟨.nil, .plain ho hc hplain⟩
    | cons a u =>
      obtain ⟨rfl, rfl⟩ := List.cons.inj hw
      rcases ih rfl with ⟨hu, hv⟩ | ⟨i, k, hpair, hi, hk⟩
      · exact .inl ⟨.plain ho hc hu, hv⟩
      · exact .inr ⟨_, _, hpair.append_left [b], by simp; omega, by simp; omega⟩
  | @pair o c inner w hoc hinner hrest ihi ihw =>
    have houter : Encloses (o :: (inner ++ c :: w)) 0 (0 + inner.length + 1) :=
      ⟨[], o, inner, c, w, rfl, hoc, hinner, rfl, rfl⟩
    cases u with
    | nil =>
      obtain rfl : o :: (inner ++ c :: w) = v := hw
      exact .inl ⟨.nil, .pair hoc hinner hrest⟩
    | cons a u =>
      obtain ⟨rfl, htail⟩ := List.cons.inj hw
      rcases List.append_eq_append_iff.mp htail with ⟨mid, rfl, hmid⟩ | ⟨mid, rfl, hmid⟩
      · cases mid with
        | nil => exact .inr ⟨_, _, houter, by simp, by simp⟩
        | cons d mid =>
          obtain ⟨rfl, rfl⟩ := List.cons.inj hmid
          rcases ihw rfl with ⟨hu, hv⟩ | ⟨i, k, hpair, hi, hk⟩
          · exact .inl ⟨.pair hoc hinner hu, hv⟩
          · have hshift := hpair.append_left (o :: (inner ++ [c]))
            exact .inr ⟨_, _, by simpa using hshift, by simp; omega, by simp; omega⟩
      · exact .inr ⟨_, _, houter, by simp, by simp⟩

/-- A pair of brackets that is cut leaves one open. -/
theorem Encloses.total_pos {i k : Nat} (hn : Nested (u ++ v)) (h : Encloses (u ++ v) i k)
    (hi : i < u.length) (hk : u.length ≤ k) : 0 < Byte.total Byte.depthStep u := by
  obtain ⟨before, o, inner, c, rest, hsplit, hoc, hinner, rfl, rfl⟩ := h
  obtain ⟨n, hn'⟩ : ∃ n, u.length = before.length + (n + 1) := ⟨u.length - before.length - 1, by omega⟩
  have hu : u = before ++ o :: inner.take n := by
    have htake := congrArg (List.take u.length) hsplit
    rw [List.take_left, hn', List.take_length_add_append, List.take_succ_cons,
      List.take_append_of_le_length (by omega)] at htake
    exact htake
  have hbefore := hn.total_nonneg_of_isPrefix cancels_depthStep (p := before) ⟨_, hsplit.symm⟩
  have htaken := hinner.total_nonneg_of_isPrefix cancels_depthStep (List.take_prefix n inner)
  have hopen : Byte.depthStep o = 1 := by simp [Byte.depthStep, isOpener_of_closerOf? hoc]
  rw [hu, total_append, total_cons, hopen]
  omega

theorem Nested.of_append (h : Nested (u ++ v)) (hu : Byte.total Byte.depthStep u = 0) :
    Nested u ∧ Nested v := by
  rcases h.append_cases rfl with hboth | ⟨i, k, hpair, hi, hk⟩
  · exact hboth
  · have := hpair.total_pos h hi hk
    omega

/-- A part of nested text between two places outside its brackets is nested. -/
theorem nested_bare_inside {start a b stop : Nat} (h : Nested (s.bare start stop)) (ha : start ≤ a)
    (hab : a ≤ b) (hb : b ≤ stop) (ha0 : Byte.total Byte.depthStep (s.bare start a) = 0)
    (hb0 : Byte.total Byte.depthStep (s.bare start b) = 0) : Nested (s.bare a b) := by
  rw [s.bare_append (Nat.le_trans ha hab) hb] at h
  have hfirst := (h.of_append hb0).1
  rw [s.bare_append ha hab] at hfirst
  exact (hfirst.of_append ha0).2

/-- Where `o` and `c` are the brackets at `i` and `k`, the text between them is nested in all kinds,
and the count of open brackets of their kind is positive all the way. -/
structure ClosedAt (s : Source) (i k : Nat) (o c : UInt8) : Prop where
  lt : i < k
  closer : Byte.closerOf? o = some c
  at_close : s.skeleton[k]? = some c
  inner_nested : Nested (s.bare (i + 1) k)
  count_lt : ∀ j, i < j → j ≤ k → (s.bare i j).count c < (s.bare i j).count o

/-- The brackets of a source are well nested over all kinds, the search for a closing bracket finds
the one that the nesting gives, and two pairs are disjoint or one holds the other. -/
theorem brackets_nested (language : Language) {path content : String}
    (h : read language.lexis path content = .ok s) :
    Nested s.skeleton.toList ∧
      (∀ i o, s.skeleton[i]? = some o → Byte.isOpener o = true →
        ∃ k c, s.closing? i = some k ∧ ClosedAt s i k o c) ∧
      ∀ i j k l, i < j → s.closing? i = some k → s.closing? j = some l → k < j ∨ l < k := by
  have hs := nested_of_read h
  refine ⟨hs, fun i o ho hopen => ?_, fun i j k l hij hk hl => ?_⟩
  · rw [← Array.getElem?_toList] at ho
    obtain ⟨k, hk⟩ := encloses_of_opener hs ho hopen
    obtain ⟨o', c, ho', hc, hoc, -⟩ := hk.closingFrom?
    obtain rfl : o = o' := Option.some.inj (ho.symm.trans ho')
    refine ⟨k, c, (closing?_eq_some_iff hs).mpr hk, hk.lt, hoc, ?_, ?_, fun j hij hjk => ?_⟩
    · rwa [Array.getElem?_toList] at hc
    · rw [bare_eq_extract]
      exact hk.inner_nested
    · rw [bare_eq_extract]
      exact hk.count_lt ho hoc hij hjk
  · rw [closing?_eq_some_iff hs] at hk hl
    exact hk.disjoint_or_inside hl hij

/-- A parenthesis in a literal or in a comment is no bracket. -/
theorem brackets_nested_call :
    ∃ s, read Language.go.lexis "a.go" "f(\")\", x[0]) // )" = .ok s ∧
      s.closing? 1 = some 11 ∧ ClosedAt s 1 11 Byte.openParen Byte.closeParen ∧
      s.closing? 8 = some 10 ∧ (11 < 8 ∨ 10 < 11) := by
  have hview : (read Language.go.lexis "a.go" "f(\")\", x[0]) // )").map
      (fun s => (s.skeleton[1]?, s.closing? 1, s.closing? 8)) =
        .ok (some Byte.openParen, some 11, some 10) := by decide +kernel
  cases hread : read Language.go.lexis "a.go" "f(\")\", x[0]) // )" with
  | error e => simp [hread, Except.map] at hview
  | ok s =>
    obtain ⟨hopen, hfirst, hsecond⟩ : s.skeleton[1]? = some Byte.openParen ∧
        s.closing? 1 = some 11 ∧ s.closing? 8 = some 10 := by
      simpa [hread, Except.map] using hview
    obtain ⟨-, hclosed, hpairs⟩ := brackets_nested .go hread
    obtain ⟨k, c, hk, hat⟩ := hclosed 1 _ hopen (by decide)
    obtain rfl : k = 11 := Option.some.inj (hk.symm.trans hfirst)
    obtain rfl : c = Byte.closeParen := Option.some.inj (hat.closer.symm.trans (by decide))
    exact ⟨s, rfl, hfirst, hat, hsecond, hpairs 1 8 11 10 (by decide) hfirst hsecond⟩

end Concord.Source
