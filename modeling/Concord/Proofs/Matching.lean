import Concord.Proofs.Utf8
import Concord.Text.Pattern

/-! `Matches` says what a pattern matches, without the order of preference and without dead ends.
Every match that is found is one of these, so its parts are parts of the text where they are said to
be. -/
namespace Concord.Text.Pattern

variable {m : Match}

/-- The place `b` is reached from `a` by going forward in the text. -/
def Reaches (a b : Cursor) : Prop := ∃ t, a.rest = t ++ b.rest ∧ b.offset = a.offset + byteSize t

theorem Reaches.refl (a : Cursor) : Reaches a a := ⟨[], rfl, rfl⟩

theorem Reaches.trans {a b c : Cursor} (hab : Reaches a b) (hbc : Reaches b c) : Reaches a c := by
  obtain ⟨t, hrest, hoffset⟩ := hab
  obtain ⟨u, hrest', hoffset'⟩ := hbc
  refine ⟨t ++ u, by rw [hrest, hrest', List.append_assoc], ?_⟩
  rw [hoffset', hoffset, byteSize_append, Nat.add_assoc]

theorem reaches_next {a b : Cursor} {c : Char} (h : a.next? = some (c, b)) : Reaches a b := by
  unfold Cursor.next? at h
  split at h
  · simp at h
  · next ch rest hrest =>
    obtain ⟨rfl, rfl⟩ := Prod.mk.inj (Option.some.inj h)
    exact ⟨[ch], hrest, by simp⟩

theorem prior_next {a b : Cursor} {c : Char} (h : a.next? = some (c, b)) : b.prior.isSome = true := by
  unfold Cursor.next? at h
  split at h
  · simp at h
  · obtain ⟨-, rfl⟩ := Prod.mk.inj (Option.some.inj h)
    rfl

theorem takeBytes_append (t u : List Char) : takeBytes (byteSize t) (t ++ u) = t := by
  induction t with
  | nil =>
    cases u with
    | nil => rfl
    | cons c u =>
      have := c.utf8Size_pos
      rw [List.nil_append, takeBytes, byteSize_nil, if_neg (by omega)]
  | cons c t ih =>
    rw [List.cons_append, takeBytes, byteSize_cons, if_pos (by omega), Nat.add_sub_cancel_left, ih]

theorem Reaches.partBetween {a b : Cursor} (h : Reaches a b) :
    a.rest = (partBetween a b).text ++ b.rest ∧
      b.offset = a.offset + byteSize (Pattern.partBetween a b).text := by
  obtain ⟨t, hrest, hoffset⟩ := h
  have ht : (Pattern.partBetween a b).text = t := by
    rw [Pattern.partBetween, hoffset, Nat.add_sub_cancel_left, hrest, takeBytes_append]
  rw [ht]
  exact ⟨hrest, hoffset⟩

/-- A pattern matches from one place to another, with marks for the numbered parts. -/
inductive Matches : Pattern → Cursor → Cursor → Marks → Prop
  | empty {a : Cursor} : Matches .empty a a []
  | one {holds : Char → Bool} {a b : Cursor} {c : Char} (hnext : a.next? = some (c, b))
      (hc : holds c = true) : Matches (.one holds) a b []
  | anchor {x : Anchor} {a : Cursor} (hx : a.meets x = true) : Matches (.anchor x) a a []
  | seq {p q : Pattern} {a b c : Cursor} {ms ns : Marks} (hp : Matches p a b ms)
      (hq : Matches q b c ns) : Matches (.seq p q) a c (ns ++ ms)
  | left {p q : Pattern} {a b : Cursor} {ms : Marks} (hp : Matches p a b ms) :
      Matches (.alt p q) a b ms
  | right {p q : Pattern} {a b : Cursor} {ms : Marks} (hq : Matches q a b ms) :
      Matches (.alt p q) a b ms
  | stop {label : Nat} {greedy : Bool} {p : Pattern} {a : Cursor} :
      Matches (.star label greedy p) a a []
  | again {label : Nat} {greedy : Bool} {p : Pattern} {a b c : Cursor} {ms ns : Marks}
      (hp : Matches p a b ms) (hstar : Matches (.star label greedy p) b c ns) :
      Matches (.star label greedy p) a c (ns ++ ms)
  | group {n : Nat} {p : Pattern} {a b : Cursor} {ms : Marks} (hp : Matches p a b ms) :
      Matches (.group n p) a b ((n, a, b) :: ms)

variable {p : Pattern} {a b : Cursor}

theorem Matches.reaches {ms : Marks} (h : Matches p a b ms) : Reaches a b := by
  induction h with
  | empty => exact .refl _
  | one hnext hc => exact reaches_next hnext
  | anchor hx => exact .refl _
  | seq hp hq ihp ihq => exact ihp.trans ihq
  | left hp ih => exact ih
  | right hq ih => exact ih
  | stop => exact .refl _
  | again hp hstar ihp ihstar => exact ihp.trans ihstar
  | group hp ih => exact ih

theorem Matches.marks {ms : Marks} (h : Matches p a b ms) :
    ∀ m ∈ ms, Reaches a m.2.1 ∧ Reaches m.2.1 m.2.2 ∧ Reaches m.2.2 b := by
  induction h with
  | empty => simp
  | one hnext hc => simp
  | anchor hx => simp
  | seq hp hq ihp ihq =>
    intro m hm
    rcases List.mem_append.mp hm with hm | hm
    · obtain ⟨h₁, h₂, h₃⟩ := ihq m hm
      exact ⟨hp.reaches.trans h₁, h₂, h₃⟩
    · obtain ⟨h₁, h₂, h₃⟩ := ihp m hm
      exact ⟨h₁, h₂, h₃.trans hq.reaches⟩
  | left hp ih => exact ih
  | right hq ih => exact ih
  | stop => simp
  | again hp hstar ihp ihstar =>
    intro m hm
    rcases List.mem_append.mp hm with hm | hm
    · obtain ⟨h₁, h₂, h₃⟩ := ihstar m hm
      exact ⟨hp.reaches.trans h₁, h₂, h₃⟩
    · obtain ⟨h₁, h₂, h₃⟩ := ihp m hm
      exact ⟨h₁, h₂, h₃.trans hstar.reaches⟩
  | group hp ih =>
    intro m hm
    rcases List.mem_cons.mp hm with rfl | hm
    · exact ⟨.refl _, hp.reaches, .refl _⟩
    · exact ih m hm

/-- An attempt can end in `r`, from some dead ends. -/
def Yields (attempt : Attempt) (r : Cursor × Marks) : Prop :=
  ∃ dead dead', attempt dead = (some r, dead')

theorem not_yields_failure (r : Cursor × Marks) : ¬Yields failure r := by
  rintro ⟨dead, dead', h⟩
  have hnone : (none : Option (Cursor × Marks)) = some r := congrArg Prod.fst h
  simp at hnone

theorem orElse_apply (x y : Attempt) (dead : DeadEnds) :
    (x <|> y) dead = match x dead with
      | (some r, rest) => (some r, rest)
      | (none, rest) => y rest := by
  change (OptionT.orElse x fun _ => y) dead = _
  delta OptionT.orElse OptionT.mk
  dsimp only [bind]
  delta StateT.bind
  obtain ⟨result, rest⟩ := x dead
  cases result <;> rfl

theorem yields_orElse {x y : Attempt} {r : Cursor × Marks} (h : Yields (x <|> y) r) :
    Yields x r ∨ Yields y r := by
  obtain ⟨dead, dead', h⟩ := h
  match hx : x dead with
  | (some v, dead₁) =>
    rw [orElse_apply, hx] at h
    exact .inl ⟨dead, dead', hx.trans h⟩
  | (none, dead₁) =>
    rw [orElse_apply, hx] at h
    exact .inr ⟨dead₁, dead', h⟩

theorem yields_unlessDead {label offset : Nat} {x : Attempt} {r : Cursor × Marks}
    (h : Yields (unlessDead label offset x) r) : Yields x r := by
  obtain ⟨dead, dead', h⟩ := h
  unfold unlessDead at h
  split at h
  · cases h
  · split at h
    · next hx => exact ⟨dead, dead', hx.trans h⟩
    · cases h

/-- What a step of the matcher yields comes from a match and from what is done after it. -/
def Sound (p : Pattern) (step : Cursor → Marks → Next → Attempt) : Prop :=
  ∀ a ms k r, Yields (step a ms k) r → ∃ b ns, Matches p a b ns ∧ Yields (k b (ns ++ ms)) r

theorem sound_rounds {step : Cursor → Marks → Next → Attempt} (hstep : Sound p step) (label : Nat)
    (greedy : Bool) (fuel : Nat) : Sound (.star label greedy p) (rounds label greedy step fuel) := by
  induction fuel with
  | zero => exact fun a ms k r h => ⟨a, [], .stop, h⟩
  | succ fuel ih =>
    intro a ms k r h
    have hagain (h : Yields (step a ms fun b ms' =>
        if a.offset < b.offset then rounds label greedy step fuel b ms' k else failure) r) :
        ∃ b ns, Matches (.star label greedy p) a b ns ∧ Yields (k b (ns ++ ms)) r := by
      obtain ⟨b, ns, hp, hnext⟩ := hstep a ms _ r h
      split at hnext
      · obtain ⟨c, ns', hstar, hk⟩ := ih b _ k r hnext
        exact ⟨c, ns' ++ ns, .again hp hstar, by rwa [List.append_assoc]⟩
      · exact absurd hnext (not_yields_failure r)
    have hround := yields_unlessDead h
    split at hround
    · rcases yields_orElse hround with h | h
      · exact hagain h
      · exact ⟨a, [], .stop, h⟩
    · rcases yields_orElse hround with h | h
      · exact ⟨a, [], .stop, h⟩
      · exact hagain h

theorem sound_run (limit : Nat) (p : Pattern) : Sound p (run limit p) := by
  induction p with
  | empty => exact fun a ms k r h => ⟨a, [], .empty, h⟩
  | one holds =>
    intro a ms k r h
    simp only [run] at h
    split at h
    · next c b hnext =>
      split at h
      · next hc => exact ⟨b, [], .one hnext hc, h⟩
      · exact absurd h (not_yields_failure r)
    · exact absurd h (not_yields_failure r)
  | anchor x =>
    intro a ms k r h
    simp only [run] at h
    split at h
    · next hx => exact ⟨a, [], .anchor hx, h⟩
    · exact absurd h (not_yields_failure r)
  | seq p q ihp ihq =>
    intro a ms k r h
    obtain ⟨b, ns, hp, hrest⟩ := ihp a ms _ r h
    obtain ⟨c, ns', hq, hk⟩ := ihq b _ k r hrest
    exact ⟨c, ns' ++ ns, .seq hp hq, by rwa [List.append_assoc]⟩
  | alt p q ihp ihq =>
    intro a ms k r h
    rcases yields_orElse h with h | h
    · obtain ⟨b, ns, hp, hk⟩ := ihp a ms k r h
      exact ⟨b, ns, .left hp, hk⟩
    · obtain ⟨b, ns, hq, hk⟩ := ihq a ms k r h
      exact ⟨b, ns, .right hq, hk⟩
  | star label greedy p ih => exact sound_rounds ih label greedy limit
  | group n p ih =>
    intro a ms k r h
    obtain ⟨b, ns, hp, hk⟩ := ih a ms _ r h
    exact ⟨b, (n, a, b) :: ns, .group hp, hk⟩

def IsMatch (p : Pattern) (t : List Char) (m : Match) : Prop :=
  ∃ a b ms, Reaches (.ofText t) a ∧ Matches p a b ms ∧
    m = ⟨partBetween a b, ms.map fun (n, x, y) => (n, partBetween x y)⟩

theorem matchAt?_sound {limit : Nat} {dead dead' : DeadEnds}
    (h : matchAt? limit p a dead = (some (m, b), dead')) :
    ∃ ms, Matches p a b ms ∧ m = ⟨partBetween a b, ms.map fun (n, x, y) => (n, partBetween x y)⟩ := by
  match hrun : run limit p a [] (fun c ms => pure (c, ms)) dead with
  | (none, dead₁) =>
    simp only [matchAt?, bind, OptionT.bind, OptionT.mk, StateT.bind, hrun] at h
    cases h
  | (some (c, ms), dead₁) =>
    simp only [matchAt?, bind, OptionT.bind, OptionT.mk, StateT.bind, hrun] at h
    cases h
    obtain ⟨c, ns, hp, hk⟩ := sound_run limit p a [] _ _ ⟨dead, dead', hrun⟩
    obtain ⟨dead₂, dead₃, hk⟩ := hk
    cases hk
    exact ⟨ns, hp, by simp⟩

theorem search_sound {limit : Nat} {fuel : Nat} {dead dead' : DeadEnds}
    (h : search limit p fuel a dead = (some (m, b), dead')) :
    ∃ c ms, Reaches a c ∧ (c = a ∨ c.prior.isSome = true) ∧ Matches p c b ms ∧
      m = ⟨partBetween c b, ms.map fun (n, x, y) => (n, partBetween x y)⟩ := by
  induction fuel generalizing a dead with
  | zero =>
    obtain ⟨ms, hp, hm⟩ := matchAt?_sound h
    exact ⟨a, ms, .refl a, .inl rfl, hp, hm⟩
  | succ fuel ih =>
    match hat : matchAt? limit p a dead with
    | (some (m', b'), dead₁) =>
      simp only [search, hat] at h
      cases h
      obtain ⟨ms, hp, hm⟩ := matchAt?_sound hat
      exact ⟨a, ms, .refl a, .inl rfl, hp, hm⟩
    | (none, dead₁) =>
      simp only [search, hat] at h
      split at h
      · next hnext =>
        obtain ⟨c, ms, hreach, hplace, hp, hm⟩ := ih h
        refine ⟨c, ms, (reaches_next hnext).trans hreach, .inr ?_, hp, hm⟩
        rcases hplace with rfl | hprior
        · exact prior_next hnext
        · exact hprior
      · cases h

theorem isMatch_of_find? {t : List Char} (h : p.find? t = some m) : IsMatch p.labelled t m := by
  obtain ⟨⟨m, b⟩, hsearch, rfl⟩ := Option.map_eq_some_iff.mp h
  obtain ⟨a, ms, hreach, -, hp, hm⟩ := search_sound (Prod.ext hsearch rfl)
  exact ⟨a, b, ms, hreach, hp, hm⟩

theorem IsMatch.part {t : List Char} (h : IsMatch p t m) {n : Nat} {q : Part}
    (hq : m.part? n = some q) :
    ∃ before after, t = before ++ q.text ++ after ∧ q.start = byteSize before := by
  obtain ⟨a, b, ms, hreach, hp, rfl⟩ := h
  obtain ⟨⟨n', q'⟩, hfind, rfl⟩ := Option.map_eq_some_iff.mp hq
  obtain ⟨⟨n', x, y⟩, hmem, hpart⟩ := List.mem_map.mp (List.mem_of_find?_eq_some hfind)
  cases hpart
  obtain ⟨hax, hxy, -⟩ := hp.marks _ hmem
  obtain ⟨before, hrest, hoffset⟩ := hreach.trans hax
  refine ⟨before, y.rest, ?_, ?_⟩
  · rw [List.append_assoc, ← hxy.partBetween.1]
    exact hrest
  · simpa [Cursor.ofText, partBetween] using hoffset

end Concord.Text.Pattern
