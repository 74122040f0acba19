import Mathlib.Data.List.Forall2
import Mathlib.Data.List.Induction
import Mathlib.Data.List.Perm.Basic
import Concord.Binding.Match

/-! An observation is of the endpoint that its path matches best, if no other endpoint is matched as
well. The order of the contracts and of their endpoints does not count. -/
namespace Concord

open Route

namespace MatchQuality

/-- Whether segments match declared ones, as they are or with values in the place of parameters. -/
def Matches : MatchQuality → (observed declared : List Segment) → Prop
  | .exact, os, ds => os = ds
  | .templated, os, ds => List.Forall₂ (fun o d => o = d ∨ d = .param) os ds ∧ os ≠ ds

/-- An exact match is above a templated one. -/
def Above (q q' : MatchQuality) : Prop := q = .exact ∧ q' = .templated

theorem rank_inj {q q' : MatchQuality} (h : q.rank = q'.rank) : q = q' := by
  cases q <;> cases q' <;> simp_all [rank]

theorem eq_of_not_above {q q' : MatchQuality} (h : ¬q.Above q') (hle : q'.rank ≤ q.rank) : q = q' := by
  cases q <;> cases q' <;> simp_all [rank, Above]

section Matches

variable {q : MatchQuality} {os ds : List Segment}

theorem exists_matches_iff :
    (∃ q : MatchQuality, q.Matches os ds) ↔ List.Forall₂ (fun o d => o = d ∨ d = .param) os ds := by
  constructor
  · rintro ⟨_ | _, h⟩
    · exact h.1
    · subst h
      exact List.forall₂_same.mpr fun o _ => .inl rfl
  · intro h
    by_cases heq : os = ds
    · exact ⟨.exact, heq⟩
    · exact ⟨.templated, h, heq⟩

theorem of?_eq_some_iff : of? os ds = some q ↔ q.Matches os ds := by
  fun_induction of? os ds generalizing q with
  | case1 => cases q <;> simp [Matches]
  | case2 a os b ds hab ih =>
    obtain rfl : a = b := by simpa using hab
    rw [ih]
    cases q <;> simp [Matches]
  | case3 a os b ds hab =>
    have hne : a ≠ b := by simpa using hab
    cases q <;> simp [Matches, hne]
  | case4 os ds ih =>
    rw [ih]
    cases q <;> simp [Matches]
  | case5 a os ds ih =>
    have hsome : (∃ q, of? os ds = some q) ↔
        List.Forall₂ (fun o d => o = d ∨ d = Segment.param) os ds := by
      simp only [ih, exists_matches_iff]
    cases q with
    | templated => simpa [Matches] using hsome
    | exact => simp [Matches]
  | case6 os ds hnil hliteral hparam hvalue =>
    refine iff_of_false (by simp) fun h => ?_
    -- Nothing is left but lists of different lengths and a parameter where a literal is declared.
    cases exists_matches_iff.mp ⟨q, h⟩ with
    | nil => exact hnil rfl rfl
    | @cons o d os ds hod _ =>
      cases o with
      | literal a =>
        cases d with
        | literal b => exact hliteral a os b ds rfl rfl
        | param => exact hvalue a os ds rfl rfl
      | param =>
        obtain rfl : d = .param := hod.elim Eq.symm id
        exact hparam os ds rfl rfl

instance : Decidable (q.Matches os ds) := decidable_of_iff _ of?_eq_some_iff

end Matches

end MatchQuality

theorem Endpoint.quality?_eq_some_iff {e : Endpoint} {variants : List (List Segment)}
    {q : MatchQuality} :
    e.quality? variants = some q ↔ (∃ v ∈ variants, q.Matches v (segments e.path)) ∧
      ∀ q' : MatchQuality, (∃ v ∈ variants, q'.Matches v (segments e.path)) → ¬q'.Above q := by
  have hmem (q' : MatchQuality) : (∃ v ∈ variants, q'.Matches v (segments e.path)) ↔
      q' ∈ variants.filterMap fun v => MatchQuality.of? v (segments e.path) := by
    simp only [List.mem_filterMap, MatchQuality.of?_eq_some_iff]
  simp only [hmem, Endpoint.quality?]
  generalize variants.filterMap _ = qualities
  by_cases hexact : MatchQuality.exact ∈ qualities
  · cases q <;> simp [hexact, MatchQuality.Above]
  · have htemplated : MatchQuality.templated ∈ qualities ↔ qualities ≠ [] := by
      refine ⟨List.ne_nil_of_mem, fun hne => ?_⟩
      obtain ⟨q', hq'⟩ := List.exists_mem_of_ne_nil _ hne
      cases q' with
      | templated => exact hq'
      | exact => exact absurd hq' hexact
    have hnone : ∀ q' ∈ qualities, q' ≠ .exact := fun q' hq' heq => hexact (heq ▸ hq')
    cases q with
    | exact => simp [hexact]
    | templated => simpa [hexact, htemplated, MatchQuality.Above] using fun _ => hnone

def endpointsOf (contracts : List Contract) : List Candidate :=
  contracts.flatMap fun c => c.endpoints.map (Candidate.mk c)

/-- An endpoint answers a request if its method is the one asked for, or none is, and its path is
matched by a reading of the path asked for. -/
structure Manifest.Answers (m : Manifest) (method : Option String) (path : String)
    (q : MatchQuality) (c : Candidate) : Prop where
  method : ∀ x ∈ method, Text.asciiSame x.toList c.endpoint.method.toList = true
  path : ∃ v ∈ m.pathVariants c.contract path, q.Matches v (segments c.endpoint.path)

/-- How well an endpoint answers a request, if at all. -/
def Manifest.answer? (m : Manifest) (method : Option String) (path : String) (c : Candidate) :
    Option MatchQuality :=
  if method.all fun x => Text.asciiSame x.toList c.endpoint.method.toList then
    c.endpoint.quality? (m.pathVariants c.contract path)
  else none

namespace RunningBest

variable {b : RunningBest} {c : MatchQuality × Candidate} {cs : List (MatchQuality × Candidate)}

/-- Of the candidates seen those are kept that have the best quality among them. -/
structure Keeps (b : RunningBest) (cs : List (MatchQuality × Candidate)) : Prop where
  best : ∀ c ∈ cs, ∃ q, b.quality = some q ∧ c.1.rank ≤ q.rank
  reached : ∀ q, b.quality = some q → ∃ c ∈ cs, c.1 = q
  kept : b.candidates = (cs.filter fun c => b.quality = some c.1).map (·.2)

theorem keeps_of_better (h : ∀ d ∈ cs, d.1.rank < c.1.rank) : Keeps ⟨some c.1, [c.2]⟩ (cs ++ [c]) where
  best := by
    intro d hd
    rcases List.mem_append.mp hd with hd | hd
    · exact ⟨c.1, rfl, Nat.le_of_lt (h d hd)⟩
    · exact ⟨c.1, rfl, by simp [List.mem_singleton.mp hd]⟩
  reached := by
    rintro _ ⟨⟩
    exact ⟨c, by simp, rfl⟩
  kept := by
    have hnone : cs.filter (fun d => some c.1 = some d.1) = [] := by
      refine List.filter_eq_nil_iff.mpr fun d hd heq => ?_
      have hlt := h d hd
      rw [Option.some.inj (of_decide_eq_true heq)] at hlt
      exact Nat.lt_irrefl _ hlt
    rw [List.filter_append, hnone]
    simp

theorem Keeps.add (h : b.Keeps cs) (c : MatchQuality × Candidate) : (b.add c).Keeps (cs ++ [c]) := by
  have hlater {b' : RunningBest} (hb : b'.quality = b.quality) :
      ∀ q, b'.quality = some q → ∃ d ∈ cs ++ [c], d.1 = q := fun q hq => by
    obtain ⟨d, hd, heq⟩ := h.reached q (hb ▸ hq)
    exact ⟨d, List.mem_append_left _ hd, heq⟩
  unfold RunningBest.add
  split
  next hnone =>
    refine keeps_of_better fun d hd => ?_
    obtain ⟨q, hq, -⟩ := h.best d hd
    simp [hnone] at hq
  next best hbest =>
    have hseen : ∀ d ∈ cs, d.1.rank ≤ best.rank := fun d hd => by
      obtain ⟨q, hq, hle⟩ := h.best d hd
      obtain rfl := Option.some.inj (hbest.symm.trans hq)
      exact hle
    split
    next hlt =>
      have hne : c.1 ≠ best := fun heq => by simp [heq] at hlt
      refine ⟨fun d hd => ⟨best, hbest, ?_⟩, hlater rfl, ?_⟩
      · rcases List.mem_append.mp hd with hd | hd
        · exact hseen d hd
        · exact List.mem_singleton.mp hd ▸ Nat.le_of_lt hlt
      · simp [h.kept, hbest, hne.symm]
    next hge =>
      split
      next heq =>
        refine ⟨fun d hd => ⟨best, hbest, ?_⟩, hlater rfl, ?_⟩
        · rcases List.mem_append.mp hd with hd | hd
          · exact hseen d hd
          · exact List.mem_singleton.mp hd ▸ heq ▸ Nat.le_refl _
        · simp [h.kept, hbest, heq]
      next hne =>
        refine keeps_of_better fun d hd => Nat.lt_of_le_of_lt (hseen d hd) ?_
        have hrank : c.1.rank ≠ best.rank := fun heq => hne (MatchQuality.rank_inj heq)
        omega

theorem keeps_foldl (cs : List (MatchQuality × Candidate)) :
    Keeps (cs.foldl .add ⟨none, []⟩ : RunningBest) cs := by
  induction cs using List.reverseRecOn with
  | nil => exact ⟨by simp, by simp, rfl⟩
  | append_singleton cs c ih =>
    rw [List.foldl_append]
    exact ih.add c

end RunningBest

section Answers

variable {m : Manifest} {contracts : List Contract} {method : Option String} {path : String}
  {q : MatchQuality} {c : Candidate}

instance : Decidable (m.Answers method path q c) :=
  decidable_of_iff ((∀ x ∈ method, Text.asciiSame x.toList c.endpoint.method.toList = true) ∧
      ∃ v ∈ m.pathVariants c.contract path, q.Matches v (segments c.endpoint.path))
    ⟨fun h => ⟨h.1, h.2⟩, fun h => ⟨h.method, h.path⟩⟩

theorem Manifest.answer?_eq_some_iff : m.answer? method path c = some q ↔
    m.Answers method path q c ∧ ∀ q', m.Answers method path q' c → ¬q'.Above q := by
  unfold Manifest.answer?
  split
  next hmethod =>
    have hmethod : ∀ x ∈ method, Text.asciiSame x.toList c.endpoint.method.toList = true := by
      simpa [Option.all_eq_true] using hmethod
    rw [Endpoint.quality?_eq_some_iff]
    exact ⟨fun h => ⟨⟨hmethod, h.1⟩, fun q' h' => h.2 q' h'.path⟩,
      fun h => ⟨h.1.path, fun q' h' => h.2 q' ⟨hmethod, h'⟩⟩⟩
  next hmethod =>
    refine iff_of_false (by simp) fun h => hmethod ?_
    simpa [Option.all_eq_true] using h.1.method

theorem candidates_eq : m.candidates contracts method path =
    (endpointsOf contracts).filterMap fun c => (m.answer? method path c).map (·, c) := by
  unfold Manifest.candidates endpointsOf
  rw [List.filterMap_flatMap]
  congr 1
  funext contract
  rw [List.filterMap_map, List.filterMap_filter]
  congr 1
  funext e
  simp only [Function.comp, Manifest.answer?]
  split <;> rfl

theorem map_filter_candidates (p : MatchQuality → Bool) :
    ((m.candidates contracts method path).filter fun c => p c.1).map (·.2) =
      (endpointsOf contracts).filter fun c => (m.answer? method path c).any p := by
  rw [candidates_eq]
  induction endpointsOf contracts with
  | nil => rfl
  | cons c rest ih =>
    cases hc : m.answer? method path c with
    | none => simpa [hc] using ih
    | some q => by_cases hq : p q = true <;> simpa [hc, hq] using ih

theorem mem_candidates_iff : (q, c) ∈ m.candidates contracts method path ↔
    c ∈ endpointsOf contracts ∧ m.answer? method path c = some q := by
  rw [candidates_eq, List.mem_filterMap]
  constructor
  · rintro ⟨c', hc, hq⟩
    obtain ⟨q', hq', heq⟩ := Option.map_eq_some_iff.mp hq
    obtain ⟨rfl, rfl⟩ := Prod.mk.inj heq
    exact ⟨hc, hq'⟩
  · rintro ⟨hc, hq⟩
    exact ⟨c, hc, by simp [hq]⟩

/-- The best that any endpoint answers. -/
structure Manifest.BestQuality (m : Manifest) (contracts : List Contract) (method : Option String)
    (path : String) (q : MatchQuality) : Prop where
  reached : ∃ c ∈ endpointsOf contracts, m.Answers method path q c
  none_above : ∀ c ∈ endpointsOf contracts, ∀ q', m.Answers method path q' c → ¬q'.Above q

theorem exists_bestQuality (hc : c ∈ endpointsOf contracts) (hq : m.Answers method path q c) :
    ∃ q', m.BestQuality contracts method path q' := by
  by_cases hexact : ∃ c ∈ endpointsOf contracts, m.Answers method path .exact c
  · refine ⟨.exact, hexact, ?_⟩
    rintro _ _ _ _ ⟨-, h⟩
    cases h
  · refine ⟨q, ⟨c, hc, hq⟩, ?_⟩
    rintro c' hc' _ hq' ⟨rfl, -⟩
    exact hexact ⟨c', hc', hq'⟩

theorem Manifest.BestQuality.answer?_eq_some_iff (h : m.BestQuality contracts method path q)
    (hc : c ∈ endpointsOf contracts) :
    m.answer? method path c = some q ↔ m.Answers method path q c := by
  rw [Manifest.answer?_eq_some_iff]
  exact and_iff_left (h.none_above c hc)

/-- The running best ends with the best that any endpoint answers. -/
theorem Manifest.BestQuality.quality_eq (h : m.BestQuality contracts method path q) {b : RunningBest}
    (hb : b.Keeps (m.candidates contracts method path)) : b.quality = some q := by
  obtain ⟨c, hc, hq⟩ := h.reached
  obtain ⟨q', hquality, hle⟩ := hb.best (q, c) (mem_candidates_iff.mpr
    ⟨hc, (h.answer?_eq_some_iff hc).mpr hq⟩)
  obtain ⟨⟨_, c'⟩, hmem, rfl⟩ := hb.reached q' hquality
  obtain ⟨hc', hanswer⟩ := mem_candidates_iff.mp hmem
  have habove := h.none_above c' hc' _ (Manifest.answer?_eq_some_iff.mp hanswer).1
  rw [hquality, MatchQuality.eq_of_not_above habove hle]

theorem bestCandidates_eq (h : m.BestQuality contracts method path q) :
    bestCandidates (m.candidates contracts method path) =
      (endpointsOf contracts).filter (m.Answers method path q ·) := by
  have hkeeps := RunningBest.keeps_foldl (m.candidates contracts method path)
  rw [bestCandidates, hkeeps.kept, h.quality_eq hkeeps]
  refine (map_filter_candidates fun q' => decide (some q = some q')).trans
    (List.filter_congr fun c hc => ?_)
  rw [Bool.eq_iff_iff, decide_eq_true_iff, ← h.answer?_eq_some_iff hc]
  simp [Option.any_eq_true]

theorem bestCandidates_eq_nil_iff : bestCandidates (m.candidates contracts method path) = [] ↔
    ∀ c ∈ endpointsOf contracts, ∀ q, ¬m.Answers method path q c := by
  constructor
  · intro hnil c hc q hq
    obtain ⟨q', hbest⟩ := exists_bestQuality hc hq
    obtain ⟨c', hc', hq'⟩ := hbest.reached
    rw [bestCandidates_eq hbest, List.filter_eq_nil_iff] at hnil
    exact hnil c' hc' (decide_eq_true hq')
  · intro hnone
    have hnil : m.candidates contracts method path = [] := by
      refine List.eq_nil_iff_forall_not_mem.mpr ?_
      rintro ⟨q, c⟩ hmem
      obtain ⟨hc, hq⟩ := mem_candidates_iff.mp hmem
      exact hnone c hc q (Manifest.answer?_eq_some_iff.mp hq).1
    rw [hnil, bestCandidates, List.foldl_nil]

theorem bestCandidates_eq_iff {cs : List Candidate} (hcs : cs ≠ []) :
    bestCandidates (m.candidates contracts method path) = cs ↔
      ∃ q, m.BestQuality contracts method path q ∧
        (endpointsOf contracts).filter (m.Answers method path q ·) = cs := by
  constructor
  · rintro rfl
    have hsome : ∃ c ∈ endpointsOf contracts, ∃ q, m.Answers method path q c := by
      simpa [bestCandidates_eq_nil_iff] using hcs
    obtain ⟨c, hc, q, hq⟩ := hsome
    obtain ⟨q', hbest⟩ := exists_bestQuality hc hq
    exact ⟨q', hbest, (bestCandidates_eq hbest).symm⟩
  · rintro ⟨q, hbest, rfl⟩
    exact bestCandidates_eq hbest

end Answers

section Chosen

variable {m : Manifest} {contracts contracts' : List Contract} {o : Observation} {path : String}
  {c : Candidate}

theorem bestEndpoint_outcome (hpath : o.path = some path) :
    (∀ c, m.bestEndpoint contracts o = .ok c ↔
      bestCandidates (m.candidates contracts o.method path) = [c]) ∧
    (m.bestEndpoint contracts o = .error (.noMatch (o.method.getD "*" ++ " " ++ path)) ↔
      bestCandidates (m.candidates contracts o.method path) = []) ∧
    ∀ cs, m.bestEndpoint contracts o =
        .error (.severalMatches (o.method.getD "*" ++ " " ++ path) cs) ↔
      bestCandidates (m.candidates contracts o.method path) = cs ∧ 1 < cs.length := by
  simp only [Manifest.bestEndpoint, hpath]
  rcases bestCandidates (m.candidates contracts o.method path) with _ | ⟨c₁, _ | ⟨c₂, rest⟩⟩ <;> simp

theorem bestEndpoint_eq_ok_iff (hpath : o.path = some path) :
    m.bestEndpoint contracts o = .ok c ↔ ∃ q, m.BestQuality contracts o.method path q ∧
      (endpointsOf contracts).filter (m.Answers o.method path q ·) = [c] := by
  rw [(bestEndpoint_outcome hpath).1, bestCandidates_eq_iff (List.cons_ne_nil c [])]

theorem bestEndpoint_eq_noMatch_iff (hpath : o.path = some path) :
    m.bestEndpoint contracts o = .error (.noMatch (o.method.getD "*" ++ " " ++ path)) ↔
      ∀ c ∈ endpointsOf contracts, ∀ q, ¬m.Answers o.method path q c := by
  rw [(bestEndpoint_outcome hpath).2.1, bestCandidates_eq_nil_iff]

theorem bestEndpoint_eq_severalMatches_iff (hpath : o.path = some path) {cs : List Candidate} :
    m.bestEndpoint contracts o = .error (.severalMatches (o.method.getD "*" ++ " " ++ path) cs) ↔
      1 < cs.length ∧ ∃ q, m.BestQuality contracts o.method path q ∧
        (endpointsOf contracts).filter (m.Answers o.method path q ·) = cs := by
  rw [(bestEndpoint_outcome hpath).2.2, and_comm]
  refine and_congr_right fun hcs => bestCandidates_eq_iff ?_
  exact List.ne_nil_of_length_pos (Nat.zero_lt_of_lt hcs)

theorem filter_eq_singleton_iff {α : Type} {p : α → Prop} [DecidablePred p] {l : List α} {a : α} :
    l.filter (p ·) = [a] ↔
      p a ∧ ∃ before after, l = before ++ a :: after ∧ ∀ b ∈ before ++ after, ¬p b := by
  simp only [List.filter_eq_cons_iff, List.filter_eq_nil_iff, decide_eq_true_iff, List.mem_append]
  constructor
  · rintro ⟨before, after, hl, hbefore, ha, hafter⟩
    exact ⟨ha, before, after, hl, fun b hb => hb.elim (hbefore b) (hafter b)⟩
  · rintro ⟨ha, before, after, hl, hrest⟩
    exact ⟨before, after, hl, fun b hb => hrest b (.inl hb), ha, fun b hb => hrest b (.inr hb)⟩

end Chosen

/-- The same contract, with its endpoints in another order. -/
structure Contract.Reordered (c c' : Contract) : Prop where
  endpoints : c.endpoints.Perm c'.endpoints
  rest : c' = { c with endpoints := c'.endpoints }

def Reordered (contracts contracts' : List Contract) : Prop :=
  ∃ l, contracts.Perm l ∧ List.Forall₂ Contract.Reordered l contracts'

/-- The same endpoint of contracts that differ in the order of their endpoints. -/
structure Candidate.Same (c c' : Candidate) : Prop where
  contract : c.contract.Reordered c'.contract
  endpoint : c.endpoint = c'.endpoint

section Reordered

variable {m : Manifest} {contracts contracts' : List Contract} {method : Option String}
  {path : String} {q : MatchQuality} {c c' : Candidate}

theorem Candidate.Same.answers_iff (h : c.Same c') :
    m.Answers method path q c ↔ m.Answers method path q c' := by
  obtain ⟨contract, endpoint⟩ := c
  obtain ⟨contract', endpoint'⟩ := c'
  obtain ⟨⟨-, hrest⟩, rfl⟩ := h
  dsimp only at hrest
  rw [hrest]
  exact ⟨fun h => ⟨h.method, h.path⟩, fun h => ⟨h.method, h.path⟩⟩

theorem forall₂_endpointsOf {l : List Contract} (h : List.Forall₂ Contract.Reordered l contracts') :
    ∃ k, (endpointsOf l).Perm k ∧ List.Forall₂ Candidate.Same k (endpointsOf contracts') := by
  induction h with
  | nil => exact ⟨[], .refl _, .nil⟩
  | @cons c c' l contracts' hc _ ih =>
    obtain ⟨k, hperm, hsame⟩ := ih
    have hown : List.Forall₂ Candidate.Same (c'.endpoints.map (Candidate.mk c))
        (c'.endpoints.map (Candidate.mk c')) := by
      rw [List.forall₂_map_left_iff, List.forall₂_map_right_iff]
      exact List.forall₂_same.mpr fun e _ => ⟨hc, rfl⟩
    exact ⟨c'.endpoints.map (Candidate.mk c) ++ k, (hc.endpoints.map _).append hperm,
      List.rel_append hown hsame⟩

theorem Reordered.filter_answers (h : Reordered contracts contracts') (m : Manifest)
    (method : Option String) (path : String) (q : MatchQuality) :
    ∃ k, ((endpointsOf contracts).filter (m.Answers method path q ·)).Perm k ∧
      List.Forall₂ Candidate.Same k
        ((endpointsOf contracts').filter (m.Answers method path q ·)) := by
  obtain ⟨l, hl, hforall⟩ := h
  obtain ⟨k, hk, hsame⟩ := forall₂_endpointsOf hforall
  have hperm : (endpointsOf contracts).Perm k := (hl.flatMap_right _).trans hk
  refine ⟨_, hperm.filter _, List.rel_filter (fun c c' hc => ?_) hsame⟩
  simpa using hc.answers_iff

theorem Reordered.exists_answers_iff (h : Reordered contracts contracts') :
    (∃ c ∈ endpointsOf contracts, m.Answers method path q c) ↔
      ∃ c ∈ endpointsOf contracts', m.Answers method path q c := by
  obtain ⟨k, hperm, hsame⟩ := h.filter_answers m method path q
  have hlength := hperm.length_eq.trans hsame.length_eq
  simpa using iff_of_eq (congrArg (0 < ·) hlength)

theorem Reordered.bestQuality (h : Reordered contracts contracts')
    (hbest : m.BestQuality contracts method path q) : m.BestQuality contracts' method path q := by
  refine ⟨h.exists_answers_iff.mp hbest.reached, fun c' hc' q' hq' => ?_⟩
  obtain ⟨c, hc, hq⟩ := h.exists_answers_iff.mpr ⟨c', hc', hq'⟩
  exact hbest.none_above c hc q' hq

theorem Reordered.bestEndpoint {o : Observation} (h : Reordered contracts contracts')
    (hpath : o.path = some path) (hc : m.bestEndpoint contracts o = .ok c) :
    ∃ c', c.Same c' ∧ m.bestEndpoint contracts' o = .ok c' := by
  obtain ⟨q, hbest, hone⟩ := (bestEndpoint_eq_ok_iff hpath).mp hc
  obtain ⟨k, hperm, hsame⟩ := h.filter_answers m o.method path q
  rw [hone, List.singleton_perm] at hperm
  subst hperm
  obtain ⟨c', rest, hc', hrest, hone'⟩ := List.forall₂_cons_left_iff.mp hsame
  rw [List.forall₂_nil_left_iff.mp hrest] at hone'
  exact ⟨c', hc', (bestEndpoint_eq_ok_iff hpath).mpr ⟨q, h.bestQuality hbest, hone'⟩⟩

end Reordered

theorem bestEndpoint_eq_ok_iff_alone {m : Manifest} {contracts : List Contract} {o : Observation}
    {path : String} {c : Candidate} (hpath : o.path = some path) :
    m.bestEndpoint contracts o = .ok c ↔ ∃ q, m.Answers o.method path q c ∧
      (∀ p ∈ endpointsOf contracts, ∀ q', m.Answers o.method path q' p → ¬q'.Above q) ∧
      ∃ before after, endpointsOf contracts = before ++ c :: after ∧
        ∀ p ∈ before ++ after, ¬m.Answers o.method path q p := by
  rw [bestEndpoint_eq_ok_iff hpath]
  simp only [filter_eq_singleton_iff]
  constructor
  · rintro ⟨q, hbest, hc, halone⟩
    exact ⟨q, hc, hbest.none_above, halone⟩
  · rintro ⟨q, hc, habove, before, after, hsplit, halone⟩
    exact ⟨q, ⟨⟨c, by simp [hsplit], hc⟩, habove⟩, hc, before, after, hsplit, halone⟩

/-- An endpoint is chosen if and only if it answers the request, none answers it better and no other
as well. If none answers, or several answer best, it is said so. Orders do not count, and an exact
match is chosen whatever templates match. -/
theorem chosen_iff_alone_best (m : Manifest) (contracts : List Contract) (o : Observation)
    (path : String) (hpath : o.path = some path) :
    (∀ c, m.bestEndpoint contracts o = .ok c ↔ ∃ q, m.Answers o.method path q c ∧
      (∀ p ∈ endpointsOf contracts, ∀ q', m.Answers o.method path q' p → ¬q'.Above q) ∧
      ∃ before after, endpointsOf contracts = before ++ c :: after ∧
        ∀ p ∈ before ++ after, ¬m.Answers o.method path q p) ∧
    (m.bestEndpoint contracts o = .error (.noMatch (o.method.getD "*" ++ " " ++ path)) ↔
      ∀ p ∈ endpointsOf contracts, ∀ q, ¬m.Answers o.method path q p) ∧
    (∀ cs, m.bestEndpoint contracts o =
        .error (.severalMatches (o.method.getD "*" ++ " " ++ path) cs) ↔
      1 < cs.length ∧ ∃ q, m.BestQuality contracts o.method path q ∧
        (endpointsOf contracts).filter (m.Answers o.method path q ·) = cs) ∧
    (∀ contracts', Reordered contracts contracts' → ∀ c, m.bestEndpoint contracts o = .ok c →
      ∃ c', c.Same c' ∧ m.bestEndpoint contracts' o = .ok c') ∧
    ∀ before c after, endpointsOf contracts = before ++ c :: after →
      m.Answers o.method path .exact c →
      (∀ p ∈ before ++ after, ¬m.Answers o.method path .exact p) →
      m.bestEndpoint contracts o = .ok c := by
  refine ⟨fun c => bestEndpoint_eq_ok_iff_alone hpath, bestEndpoint_eq_noMatch_iff hpath,
    fun cs => bestEndpoint_eq_severalMatches_iff hpath, fun _ h c hc => h.bestEndpoint hpath hc,
    fun before c after hsplit hc halone => ?_⟩
  refine (bestEndpoint_eq_ok_iff_alone hpath).mpr ⟨.exact, hc, ?_, before, after, hsplit, halone⟩
  rintro _ _ _ _ ⟨-, h⟩
  cases h

def orderById : Endpoint := ⟨"GET", "/orders/\x7bid\x7d", none, [], []⟩

def newOrder : Endpoint := ⟨"GET", "/orders/new", none, [], []⟩

def orderContract (endpoints : List Endpoint) : Contract :=
  ⟨"orders", "shop", ["web"], "http", .outbound, none, endpoints⟩

def orderShop : Manifest where
  services := [⟨"shop", .go, some "http://shop/api", none⟩, ⟨"web", .typeScript, none, none⟩]
  contracts := [orderContract [orderById, newOrder]]
  conventions := default
  path := "contracts.yaml"
  text := ""

def newOrderCall : Observation :=
  { Observation.at .client ⟨"web/api.ts", 1, 1⟩ ⟨0, 0⟩ with
    method := some "GET", path := some "/api/orders/new" }

theorem new_order_chosen :
    orderShop.Answers newOrderCall.method "/api/orders/new" .templated
        ⟨orderContract [orderById, newOrder], orderById⟩ ∧
      orderShop.bestEndpoint orderShop.contracts newOrderCall =
        .ok ⟨orderContract [orderById, newOrder], newOrder⟩ ∧
      ∃ c, Candidate.Same ⟨orderContract [orderById, newOrder], newOrder⟩ c ∧
        orderShop.bestEndpoint [orderContract [newOrder, orderById]] newOrderCall = .ok c := by
  obtain ⟨-, -, -, hreorder, hexact⟩ :=
    chosen_iff_alone_best orderShop orderShop.contracts newOrderCall "/api/orders/new" rfl
  have hchosen := hexact [⟨orderContract [orderById, newOrder], orderById⟩] _ [] rfl
    (by decide +kernel) (by decide +kernel)
  refine ⟨by decide +kernel, hchosen, hreorder _ ⟨_, .refl _, .cons ⟨?_, rfl⟩ .nil⟩ _ hchosen⟩
  exact .swap _ _ _

end Concord
