import Concord.Proofs.Matching

/-! A pattern that meets no obstacle takes its first way: a repetition takes all it can, and what
comes next fits. For such a text the match is known without the order of preference. A text with a
character that no part of a pattern takes is not matched as a whole. -/
namespace Concord.Text

/-- Neither the first nor the last character of a text is a blank. -/
structure IsTrimmed (t : List Char) : Prop where
  ne_nil : t ≠ []
  head : ∀ c ∈ t.head?, isBlank c = false
  last : ∀ c ∈ t.getLast?, isBlank c = false

namespace IsTrimmed

variable {t lead tail : List Char}

theorem takeWhile_eq (h : IsTrimmed t) (hlead : ∀ c ∈ lead, isBlank c = true) (rest : List Char) :
    (lead ++ (t ++ rest)).takeWhile isBlank = lead := by
  rw [List.takeWhile_append_of_pos hlead]
  obtain ⟨c, t, rfl⟩ := List.exists_cons_of_ne_nil h.ne_nil
  simp [h.head c rfl]

theorem reverse (h : IsTrimmed t) : IsTrimmed t.reverse where
  ne_nil := by simpa using h.ne_nil
  head := by simpa using h.last
  last := by simpa using h.head

theorem append {u : List Char} (h : IsTrimmed t) (hu : IsTrimmed u) (mid : List Char) :
    IsTrimmed (t ++ (mid ++ u)) where
  ne_nil := by simp [h.ne_nil]
  head := by
    obtain ⟨c, t, rfl⟩ := List.exists_cons_of_ne_nil h.ne_nil
    simpa using h.head c rfl
  last := by
    have hlast : (t ++ (mid ++ u)).getLast? = u.getLast? := by
      rw [← List.append_assoc, List.getLast?_append, List.getLast?_eq_some_getLast hu.ne_nil,
        Option.some_or]
    rw [hlast]
    exact hu.last

theorem takeWhile_reverse_eq (h : IsTrimmed t) (htail : ∀ c ∈ tail, isBlank c = true)
    (before : List Char) :
    (before ++ (t ++ tail)).reverse.takeWhile isBlank = tail.reverse := by
  have htail' : ∀ c ∈ tail.reverse, isBlank c = true := by simpa using htail
  simpa using h.reverse.takeWhile_eq htail' before.reverse

theorem trim_eq (h : IsTrimmed t) (hlead : ∀ c ∈ lead, isBlank c = true)
    (htail : ∀ c ∈ tail, isBlank c = true) : trim (lead ++ (t ++ tail)) = t := by
  have hstart : (lead ++ (t ++ tail)).dropWhile isBlank = t ++ tail := by
    have := List.takeWhile_append_dropWhile (p := isBlank) (l := lead ++ (t ++ tail))
    rw [h.takeWhile_eq hlead] at this
    exact List.append_cancel_left this
  have hstop : (t ++ tail).reverse.dropWhile isBlank = t.reverse := by
    have := List.takeWhile_append_dropWhile (p := isBlank) (l := (t ++ tail).reverse)
    rw [show (t ++ tail).reverse.takeWhile isBlank = tail.reverse by
      simpa using h.takeWhile_reverse_eq htail [], List.reverse_append] at this
    simpa using List.append_cancel_left this
  rw [trim, trimStart, hstart, trimEnd, dropEndWhile, hstop, List.reverse_reverse]

theorem trim_append (h : IsTrimmed t) (hlead : ∀ c ∈ lead, isBlank c = true) :
    trim (lead ++ t) = t := by
  simpa using h.trim_eq hlead (List.forall_mem_nil _)

theorem trim_self (h : IsTrimmed t) : trim t = t := h.trim_append (List.forall_mem_nil _)

end IsTrimmed

theorem trimStart_eq (t : List Char) :
    trimStart t = trim t ++ ((trimStart t).reverse.takeWhile isBlank).reverse := by
  have h := congrArg List.reverse
    (List.takeWhile_append_dropWhile (p := isBlank) (l := (trimStart t).reverse))
  rw [List.reverse_append, List.reverse_reverse] at h
  exact h.symm

theorem exists_trim (t : List Char) : ∃ lead tail, (∀ c ∈ lead, isBlank c = true) ∧
    (∀ c ∈ tail, isBlank c = true) ∧ t = lead ++ (trim t ++ tail) := by
  refine ⟨t.takeWhile isBlank, ((trimStart t).reverse.takeWhile isBlank).reverse, ?_, ?_, ?_⟩
  · exact List.all_eq_true.mp List.all_takeWhile
  · exact fun c hc => List.all_eq_true.mp List.all_takeWhile c (List.mem_reverse.mp hc)
  · rw [← trimStart_eq]
    exact List.takeWhile_append_dropWhile.symm

theorem isTrimmed_trim {t : List Char} (h : trim t ≠ []) : IsTrimmed (trim t) := by
  have hnot {t : List Char} {c : Char} (hc : c ∈ (t.dropWhile isBlank).head?) : isBlank c = false := by
    have := List.head?_dropWhile_not isBlank t
    rwa [Option.mem_def.mp hc] at this
  refine ⟨h, fun c hc => hnot (t := t) ?_, fun c hc => hnot (t := (trimStart t).reverse) ?_⟩
  · rw [← trimStart, trimStart_eq, List.head?_append, Option.mem_def.mp hc, Option.some_or]
    rfl
  · rw [← List.getLast?_reverse]
    exact hc

end Concord.Text

namespace Concord.Text.Pattern

variable {p : Pattern} {holds : Char → Bool} {t : List Char} {label : Nat} {x y : Attempt}
  {a b : Cursor} {c : Char}

/-- An attempt ends in `r` if no dead end is known. -/
def Gains (attempt : Attempt) (r : Cursor × Marks) : Prop := (attempt ∅).1 = some r

/-- An attempt fails at once, without leaving a dead end. -/
def Fails (attempt : Attempt) : Prop := attempt ∅ = (none, ∅)

theorem fails_failure : Fails failure := rfl

theorem Gains.exists_eq {r : Cursor × Marks} (h : Gains x r) : ∃ dead, x ∅ = (some r, dead) :=
  ⟨(x ∅).2, Prod.ext h rfl⟩

theorem gains_orElse_left {r : Cursor × Marks} (h : Gains x r) : Gains (x <|> y) r := by
  obtain ⟨dead, hx⟩ := h.exists_eq
  rw [Gains, orElse_apply, hx]

theorem gains_orElse_right {r : Cursor × Marks} (hx : Fails x) (hy : Gains y r) :
    Gains (x <|> y) r := by
  rw [Gains, orElse_apply, show x ∅ = (none, ∅) from hx]
  exact hy

theorem gains_unlessDead {label offset : Nat} {r : Cursor × Marks} (h : Gains x r) :
    Gains (unlessDead label offset x) r := by
  obtain ⟨dead, hx⟩ := h.exists_eq
  rw [Gains, unlessDead, if_neg (by simp), hx]

def place (taken rest : List Char) : Cursor := ⟨taken.getLast?, byteSize taken, rest⟩

theorem next?_place (taken : List Char) (c : Char) (rest : List Char) :
    (place taken (c :: rest)).next? = some (c, place (taken ++ [c]) rest) := by
  simp [place, Cursor.next?]

theorem partBetween_place (taken t rest : List Char) :
    partBetween (place taken (t ++ rest)) (place (taken ++ t) rest) =
      ⟨byteSize taken, byteSize (taken ++ t), t⟩ := by
  simp [partBetween, place, takeBytes_append]

section First

variable {limit : Nat} {taken rest : List Char} {ms : Marks} {k : Next} {r : Cursor × Marks}

theorem gains_seq {p q : Pattern} (h : Gains (run limit p a ms fun b ns => run limit q b ns k) r) :
    Gains (run limit (.seq p q) a ms k) r := h

theorem fails_seq {p q : Pattern} (h : Fails (run limit p a ms fun b ns => run limit q b ns k)) :
    Fails (run limit (.seq p q) a ms k) := h

theorem gains_one (hc : holds c = true) (h : Gains (k (place (taken ++ [c]) rest) ms) r) :
    Gains (run limit (.one holds) (place taken (c :: rest)) ms k) r := by
  simpa only [run, next?_place, hc, if_true] using h

theorem fails_one (h : ∀ c ∈ rest.head?, holds c = false) :
    Fails (run limit (.one holds) (place taken rest) ms k) := by
  cases rest with
  | nil => exact fails_failure
  | cons c rest =>
    simp only [run, next?_place, h c rfl, Bool.false_eq_true, if_false]
    exact fails_failure

theorem gains_anchor {a : Anchor} (ha : (place taken rest).meets a = true)
    (h : Gains (k (place taken rest) ms) r) :
    Gains (run limit (.anchor a) (place taken rest) ms k) r := by
  simpa only [run, ha, if_true] using h

theorem gains_opt_none (hp : Fails (run limit p (place taken rest) ms k))
    (h : Gains (k (place taken rest) ms) r) :
    Gains (run limit (.alt p .empty) (place taken rest) ms k) r :=
  gains_orElse_right hp h

theorem gains_opt_one {o : List Char} (ho : o.length ≤ 1) (hall : ∀ c ∈ o, holds c = true)
    (hrest : o = [] → ∀ c ∈ rest.head?, holds c = false)
    (h : Gains (k (place (taken ++ o) rest) ms) r) :
    Gains (run limit (.alt (.one holds) .empty) (place taken (o ++ rest)) ms k) r := by
  match o with
  | [] => exact gains_opt_none (fails_one (hrest rfl)) (by simpa using h)
  | [c] => exact gains_orElse_left (gains_one (hall c List.mem_cons_self) h)
  | _ :: _ :: _ => simp at ho

theorem gains_rounds {label fuel : Nat} (ht : ∀ c ∈ t, holds c = true)
    (hrest : ∀ c ∈ rest.head?, holds c = false) (hfuel : t.length ≤ fuel)
    (h : Gains (k (place (taken ++ t) rest) ms) r) :
    Gains (rounds label true (run limit (.one holds)) fuel (place taken (t ++ rest)) ms k) r := by
  induction t generalizing taken fuel with
  | nil =>
    rw [List.append_nil] at h
    cases fuel with
    | zero => exact h
    | succ fuel => exact gains_unlessDead (gains_orElse_right (fails_one hrest) h)
  | cons c t ih =>
    obtain ⟨hc, ht⟩ := List.forall_mem_cons.mp ht
    cases fuel with
    | zero => simp at hfuel
    | succ fuel =>
      rw [List.cons_append]
      refine gains_unlessDead (gains_orElse_left (gains_one hc ?_))
      have hforward : (place taken (c :: (t ++ rest))).offset <
          (place (taken ++ [c]) (t ++ rest)).offset := by
        simpa [place] using c.utf8Size_pos
      rw [if_pos hforward]
      exact ih ht (Nat.le_of_succ_le_succ hfuel) (by simpa using h)

theorem gains_star (ht : ∀ c ∈ t, holds c = true) (hrest : ∀ c ∈ rest.head?, holds c = false)
    (hlimit : t.length ≤ limit) (h : Gains (k (place (taken ++ t) rest) ms) r) :
    Gains (run limit (.star label true (.one holds)) (place taken (t ++ rest)) ms k) r :=
  gains_rounds ht hrest hlimit h

theorem gains_star_none (hp : ∀ next, Fails (run limit p (place taken rest) ms next))
    (h : Gains (k (place taken rest) ms) r) :
    Gains (run limit (.star label true p) (place taken rest) ms k) r := by
  cases limit with
  | zero => exact h
  | succ limit => exact gains_unlessDead (gains_orElse_right (hp _) h)

theorem gains_many1 (hne : t ≠ []) (ht : ∀ c ∈ t, holds c = true)
    (hrest : ∀ c ∈ rest.head?, holds c = false) (hlimit : t.length ≤ limit)
    (h : Gains (k (place (taken ++ t) rest) ms) r) :
    Gains (run limit (.seq (.one holds) (.star label true (.one holds)))
      (place taken (t ++ rest)) ms k) r := by
  cases t with
  | nil => exact absurd rfl hne
  | cons c t =>
    obtain ⟨hc, ht⟩ := List.forall_mem_cons.mp ht
    refine gains_seq (gains_one hc ?_)
    refine gains_star ht hrest (Nat.le_of_succ_le hlimit) ?_
    simpa using h

end First

/-- The match between two places, with its numbered parts. -/
def matchBetween (a b : Cursor) (ms : Marks) : Match :=
  ⟨partBetween a b, ms.map fun m => (m.1, partBetween m.2.1 m.2.2)⟩

theorem find?_of_gains {c : Cursor} {ms : Marks}
    (h : Gains (run t.length p.labelled (place [] t) [] fun c ms => pure (c, ms)) (c, ms)) :
    p.find? t = some (matchBetween (place [] t) c ms) := by
  obtain ⟨dead, hrun⟩ := h.exists_eq
  have hat : matchAt? t.length p.labelled (.ofText t) ∅ =
      (some (matchBetween (place [] t) c ms, c), dead) := by
    rw [show place [] t = Cursor.ofText t from rfl] at hrun
    simp only [matchAt?, bind, OptionT.bind, OptionT.mk, StateT.bind, hrun]
    rfl
  have hsearch : search t.length p.labelled t.length (.ofText t) ∅ =
      (some (matchBetween (place [] t) c ms, c), dead) := by
    cases hlen : t.length with
    | zero => rw [search, ← hlen, hat]
    | succ n =>
      rw [hlen] at hat
      simp only [search, hat]
  rw [find?, hsearch, Option.map_some]

/-- The characters that a pattern takes satisfy `q`. -/
def Within (q : Char → Bool) : Pattern → Prop
  | .empty => True
  | .one holds => ∀ c, holds c = true → q c = true
  | .anchor _ => True
  | .seq p p' => Within q p ∧ Within q p'
  | .alt p p' => Within q p ∧ Within q p'
  | .star _ _ p => Within q p
  | .group _ p => Within q p

theorem Matches.within {q : Char → Bool} {ms : Marks} (h : Matches p a b ms) (hq : p.Within q) :
    ∃ t, a.rest = t ++ b.rest ∧ ∀ c ∈ t, q c = true := by
  induction h with
  | empty => exact ⟨[], rfl, by simp⟩
  | @one holds a b c hnext hc =>
    unfold Cursor.next? at hnext
    split at hnext
    · cases hnext
    · next d rest hrest =>
      obtain ⟨rfl, rfl⟩ := Prod.mk.inj (Option.some.inj hnext)
      exact ⟨[d], hrest, by simpa using hq d hc⟩
  | anchor hx => exact ⟨[], rfl, by simp⟩
  | seq hp hp' ih ih' =>
    obtain ⟨t, ht, hall⟩ := ih hq.1
    obtain ⟨t', ht', hall'⟩ := ih' hq.2
    exact ⟨t ++ t', by rw [ht, ht', List.append_assoc], List.forall_mem_append.mpr ⟨hall, hall'⟩⟩
  | left hp ih => exact ih hq.1
  | right hp ih => exact ih hq.2
  | stop => exact ⟨[], rfl, by simp⟩
  | again hp hstar ih ih' =>
    obtain ⟨t, ht, hall⟩ := ih hq
    obtain ⟨t', ht', hall'⟩ := ih' hq
    exact ⟨t ++ t', by rw [ht, ht', List.append_assoc], List.forall_mem_append.mpr ⟨hall, hall'⟩⟩
  | group hp ih => exact ih hq

/-- The last part of a pattern asks for the end of the text. -/
def EndsText : Pattern → Prop
  | .anchor a => a = .textEnd
  | .seq _ p => EndsText p
  | _ => False

theorem Matches.rest_eq_nil {ms : Marks} (h : Matches p a b ms) (hend : p.EndsText) : b.rest = [] := by
  induction h with
  | @anchor x a hx =>
    obtain rfl : x = .textEnd := hend
    simpa [Cursor.meets] using hx
  | seq hp hp' ih ih' => exact ih' hend
  | empty => exact hend.elim
  | one hnext hc => exact hend.elim
  | left hp ih => exact hend.elim
  | right hp ih => exact hend.elim
  | stop => exact hend.elim
  | again hp hstar ih ih' => exact hend.elim
  | group hp ih => exact hend.elim

/-- What a pattern that is bound to the start of the text finds starts there. -/
theorem matches_of_anchored {p rest : Pattern} {m : Match}
    (hp : p.labelled = .seq (.anchor .textStart) rest) (h : p.find? t = some m) :
    ∃ b ms, Matches rest (.ofText t) b ms := by
  obtain ⟨⟨m, b⟩, hsearch, rfl⟩ := Option.map_eq_some_iff.mp h
  obtain ⟨a, ms, -, hplace, hmatch, -⟩ := search_sound (Prod.ext hsearch rfl)
  rw [hp] at hmatch
  cases hmatch with
  | seq hfirst htail =>
    cases hfirst with
    | anchor hstart =>
      have hprior : a.prior = none := by simpa [Cursor.meets] using hstart
      obtain rfl : a = .ofText t := hplace.resolve_right (by simp [hprior])
      exact ⟨b, _, htail⟩

theorem forall_of_isIn {p rest : Pattern} {q : Char → Bool}
    (hp : p.labelled = .seq (.anchor .textStart) rest) (hend : rest.EndsText) (hq : rest.Within q)
    (h : p.isIn t = true) : ∀ c ∈ t, q c = true := by
  obtain ⟨m, hm⟩ := Option.isSome_iff_exists.mp h
  obtain ⟨b, ms, htail⟩ := matches_of_anchored hp hm
  obtain ⟨u, hu, hall⟩ := htail.within hq
  rw [htail.rest_eq_nil hend, List.append_nil] at hu
  obtain rfl : t = u := hu
  exact hall

/-- A text that has to start with a name is not found by another first character. -/
theorem find?_eq_none_of_head {p q rest : Pattern} {n : Nat}
    (hp : p.labelled = .seq (.anchor .textStart) (.seq (.group n (.seq (.one holds) q)) rest))
    (hc : holds c = false) (t : List Char) : p.find? (c :: t) = none := by
  cases hfind : p.find? (c :: t) with
  | none => rfl
  | some m =>
    obtain ⟨b, ms, hmatch⟩ := matches_of_anchored hp hfind
    cases hmatch with
    | seq hgroup hrest =>
      cases hgroup with
      | group hname =>
        cases hname with
        | seq hone hmore =>
          cases hone with
          | one hnext htakes =>
            have heq := Prod.mk.inj (Option.some.inj hnext)
            rw [← heq.1, hc] at htakes
            cases htakes

end Concord.Text.Pattern
