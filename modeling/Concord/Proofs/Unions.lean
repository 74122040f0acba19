import Mathlib.Data.List.Nodup
import Mathlib.Data.List.Perm.Basic
import Concord.Proofs.Gathering
import Concord.Proofs.MergedShapes

/-! Bindings of one key may be united in any order. Apart from texts of which the first one stays,
the union is the same, and it has all that its parts have. -/
namespace Concord

open Std

variable {es : List Evidence} {α : Type}

theorem StatusMatch.compare_eq_lex : StatusMatch.compare =
    compareLex (compareOn fun m => match m with | .code _ => 0 | .success => 1)
      (compareOn fun m => match m with | .code n => n | .success => 0) := by
  funext a b
  cases a <;> cases b <;> rfl

instance : TransCmp StatusMatch.compare := by
  rw [StatusMatch.compare_eq_lex]
  infer_instance

instance : LawfulEqCmp StatusMatch.compare where
  eq_of_compare {a b} h := by
    cases a <;> cases b <;> simp_all [StatusMatch.compare]

namespace StatusBranch

def compareCode (a b : StatusBranch) : Ordering := a.code.compare b.code

def comparePlace (a b : StatusBranch) : Ordering := a.location.compare b.location

instance : TransCmp compareCode where
  eq_swap {a b} := (OrientedCmp.eq_swap : a.code.compare b.code = _)
  isLE_trans {a _ c} hab hbc := (TransCmp.isLE_trans hab hbc : (a.code.compare c.code).isLE = true)

instance : TransCmp comparePlace where
  eq_swap {a b} := (OrientedCmp.eq_swap : a.location.compare b.location = _)
  isLE_trans {a _ c} hab hbc :=
    (TransCmp.isLE_trans hab hbc : (a.location.compare c.location).isLE = true)

def compare : StatusBranch → StatusBranch → Ordering := compareLex compareCode comparePlace

instance : TransCmp compare := inferInstanceAs (TransCmp (compareLex compareCode comparePlace))

theorem compareCode_eq_iff {a b : StatusBranch} : a.compareCode b = .eq ↔ a.code = b.code := by
  refine ⟨fun h => LawfulEqCmp.eq_of_compare h, fun h => ?_⟩
  simp [compareCode, h, ReflCmp.compare_self]

/-- What comes no later in order has another code, which is smaller, or the same at an earlier
place. -/
theorem compare_ne_gt_iff {a b : StatusBranch} : (a.compare b != .gt) = true ↔
    a.compareCode b = .lt ∨ a.code = b.code ∧ (a.location.compare b.location).isLE = true := by
  rw [← compareCode_eq_iff]
  change ((a.compareCode b).then (a.location.compare b.location) != .gt) = true ↔ _
  cases a.compareCode b <;> simp [Ordering.isLE_iff_ne_gt]

end StatusBranch

namespace Status

variable {l : List StatusBranch} {s : StatusBranch}

def Sorted (l : List StatusBranch) : Prop := l.Pairwise fun a b => (a.compare b != .gt) = true

/-- The branch of its code at the first place. -/
def IsFirst (l : List StatusBranch) (s : StatusBranch) : Prop :=
  s ∈ l ∧ ∀ t ∈ l, t.code = s.code → (s.location.compare t.location).isLE = true

theorem mem_of_mem_keepFirst (h : s ∈ distinct.keepFirst l) : s ∈ l := by
  fun_induction distinct.keepFirst l with
  | case1 => exact h
  | case2 => exact h
  | case3 a b rest _ ih =>
    rcases List.mem_cons.mp (ih h) with rfl | hs
    · exact List.mem_cons_self
    · exact List.mem_cons_of_mem _ (List.mem_cons_of_mem _ hs)
  | case4 a b rest _ ih =>
    rcases List.mem_cons.mp h with rfl | hs
    · exact List.mem_cons_self
    · exact List.mem_cons_of_mem _ (ih hs)

theorem ascending_keepFirst (h : Sorted l) :
    (distinct.keepFirst l).Pairwise fun s t => s.compareCode t = .lt := by
  fun_induction distinct.keepFirst l with
  | case1 => exact .nil
  | case2 b => exact List.pairwise_singleton _ b
  | case3 a b rest _ ih =>
    exact ih (List.Pairwise.sublist (.cons_cons a (List.sublist_cons_self b rest)) h)
  | case4 a b rest hcode ih =>
    obtain ⟨ha, hrest⟩ := List.pairwise_cons.mp h
    refine List.pairwise_cons.mpr ⟨fun t ht => ?_, ih hrest⟩
    have hab : a.compareCode b = .lt :=
      (StatusBranch.compare_ne_gt_iff.mp (ha b List.mem_cons_self)).resolve_right fun hsame =>
        hcode hsame.1
    rcases List.mem_cons.mp (mem_of_mem_keepFirst ht) with rfl | ht
    · exact hab
    · refine TransCmp.lt_of_lt_of_isLE hab ?_
      rcases StatusBranch.compare_ne_gt_iff.mp ((List.pairwise_cons.mp hrest).1 t ht) with hlt | ⟨heq, -⟩
      · simp [hlt]
      · simp [StatusBranch.compareCode_eq_iff.mpr heq]

theorem exists_mem_keepFirst (h : Sorted l) :
    ∀ t ∈ l, ∃ s ∈ distinct.keepFirst l,
      s.code = t.code ∧ (s.location.compare t.location).isLE = true := by
  fun_induction distinct.keepFirst l with
  | case1 => simp
  | case2 b => simp [ReflCmp.compare_self]
  | case3 a b rest hcode ih =>
    obtain ⟨ha, hrest⟩ :=
      List.forall_mem_cons.mp (ih (h.sublist (.cons_cons a (List.sublist_cons_self b rest))))
    refine List.forall_mem_cons.mpr ⟨ha, List.forall_mem_cons.mpr ⟨?_, hrest⟩⟩
    -- the branch that is dropped comes after one of its code
    obtain ⟨s, hs, hsa, hle⟩ := ha
    have hab := StatusBranch.compare_ne_gt_iff.mp ((List.pairwise_cons.mp h).1 b List.mem_cons_self)
    rcases hab with hlt | ⟨-, hle'⟩
    · simp [StatusBranch.compareCode_eq_iff.mpr hcode] at hlt
    · exact ⟨s, hs, hsa.trans hcode, TransCmp.isLE_trans hle hle'⟩
  | case4 a b rest _ ih =>
    refine List.forall_mem_cons.mpr ⟨⟨a, List.mem_cons_self, rfl, by simp [ReflCmp.compare_self]⟩, ?_⟩
    intro t ht
    obtain ⟨s, hs, hst⟩ := ih (List.pairwise_cons.mp h).2 t ht
    exact ⟨s, List.mem_cons_of_mem _ hs, hst⟩

theorem sorted_mergeSort (l : List StatusBranch) : Sorted (l.mergeSort fun a b => a.compare b != .gt) :=
  Text.pairwise_mergeSort l

theorem ascending_distinct (l : List StatusBranch) :
    (distinct l).Pairwise fun s t => s.compareCode t = .lt :=
  ascending_keepFirst (sorted_mergeSort l)

theorem exists_mem_distinct {t : StatusBranch} (ht : t ∈ l) :
    ∃ s ∈ distinct l, s.code = t.code ∧ (s.location.compare t.location).isLE = true :=
  exists_mem_keepFirst (sorted_mergeSort l) t (List.mem_mergeSort.mpr ht)

theorem mem_of_mem_distinct (h : s ∈ distinct l) : s ∈ l :=
  List.mem_mergeSort.mp (mem_of_mem_keepFirst h)

theorem nodup_codes_distinct (l : List StatusBranch) : ((distinct l).map (·.code)).Nodup := by
  refine List.pairwise_map.mpr ((ascending_distinct l).imp fun {s t} hlt heq => ?_)
  simp [StatusBranch.compareCode_eq_iff.mpr heq] at hlt

theorem mem_distinct_iff : s ∈ distinct l ↔ IsFirst l s := by
  constructor
  · refine fun hs => ⟨mem_of_mem_distinct hs, fun t ht hcode => ?_⟩
    obtain ⟨s', hs', hcode', hle⟩ := exists_mem_distinct ht
    obtain rfl := List.inj_on_of_nodup_map (nodup_codes_distinct l) hs hs' (hcode'.trans hcode).symm
    exact hle
  · rintro ⟨hs, hfirst⟩
    obtain ⟨s', hs', hcode, hle⟩ := exists_mem_distinct hs
    have hplace : s'.location = s.location := LawfulEqCmp.eq_of_compare
      (OrientedCmp.isLE_antisymm hle (hfirst s' (mem_of_mem_distinct hs') hcode))
    obtain rfl : s' = s := by
      cases s
      cases s'
      simp_all
    exact hs'

theorem isFirst_distinct_append {l l' : List StatusBranch} :
    IsFirst (distinct l ++ l') s ↔ IsFirst (l ++ l') s := by
  simp only [IsFirst, List.mem_append]
  constructor
  · rintro ⟨hs, hfirst⟩
    refine ⟨hs.imp_left mem_of_mem_distinct, ?_⟩
    rintro t (ht | ht) hcode
    · obtain ⟨t', ht', hcode', hle⟩ := exists_mem_distinct ht
      exact TransCmp.isLE_trans (hfirst t' (.inl ht') (hcode'.trans hcode)) hle
    · exact hfirst t (.inr ht) hcode
  · rintro ⟨hs, hfirst⟩
    refine ⟨hs.imp_left fun hs => ?_, fun t ht => hfirst t (ht.imp_left mem_of_mem_distinct)⟩
    exact mem_distinct_iff.mpr ⟨hs, fun t ht => hfirst t (.inl ht)⟩

end Status

/-- A normal form of lists that may be taken of parts first and does not depend on the order. -/
structure IsNormalForm {α : Type} (form : List α → List α) : Prop where
  append : ∀ l l', form (form l ++ l') = form (l ++ l')
  perm : ∀ {l l'}, l.Perm l' → form l = form l'

theorem Status.isNormalForm_distinct : IsNormalForm Status.distinct := by
  have hsame {l l' : List StatusBranch} (h : ∀ s, IsFirst l s ↔ IsFirst l' s) :
      distinct l = distinct l' := by
    apply eq_of_ascending (ascending_distinct l) (ascending_distinct l')
    simpa only [mem_distinct_iff] using h
  refine ⟨fun l l' => hsame fun s => isFirst_distinct_append, fun hperm => hsame fun s => ?_⟩
  simp only [IsFirst, hperm.mem_iff]

theorem isNormalForm_dropRepeats_mergeSort [BEq α] [LawfulBEq α] (cmp : α → α → Ordering)
    [TransCmp cmp] [LawfulEqCmp cmp] :
    IsNormalForm fun l : List α => Text.dropRepeats (l.mergeSort fun a b => cmp a b != .gt) := by
  have hsame {l l' : List α} (h : ∀ a, a ∈ l ↔ a ∈ l') :
      Text.dropRepeats (l.mergeSort fun a b => cmp a b != .gt) =
        Text.dropRepeats (l'.mergeSort fun a b => cmp a b != .gt) := by
    apply eq_of_ascending (Text.ascending_dropRepeats_mergeSort l)
      (Text.ascending_dropRepeats_mergeSort l')
    simpa using h
  exact ⟨fun l l' => hsame fun a => by simp, fun hperm => hsame fun a => hperm.mem_iff⟩

theorem Text.isNormalForm_sortedUnique : IsNormalForm Text.sortedUnique :=
  isNormalForm_dropRepeats_mergeSort (compare : String → String → Ordering)

theorem Binding.isNormalForm_sortedLocations : IsNormalForm Binding.sortedLocations :=
  isNormalForm_dropRepeats_mergeSort Location.compare

namespace Location

def earlier (a b : Location) : Location := if b.compare a = .lt then b else a

theorem isLE_earlier_iff {a b l : Location} : (l.compare (a.earlier b)).isLE = true ↔
    (l.compare a).isLE = true ∧ (l.compare b).isLE = true := by
  by_cases h : b.compare a = .lt
  · have hle : (b.compare a).isLE = true := by simp [h]
    simpa [earlier, h] using fun hl => TransCmp.isLE_trans hl hle
  · have hle : (a.compare b).isLE = true :=
      Ordering.ne_gt_iff_isLE.mp fun hgt => h (OrientedCmp.lt_of_gt hgt)
    simpa [earlier, h] using fun hl => TransCmp.isLE_trans hl hle

theorem eq_of_isLE_iff {a b : Location}
    (h : ∀ l : Location, (l.compare a).isLE = true ↔ (l.compare b).isLE = true) : a = b := by
  have hself (l : Location) : (l.compare l).isLE = true := by simp [ReflCmp.compare_self]
  exact LawfulEqCmp.eq_of_compare
    (OrientedCmp.isLE_antisymm ((h a).mp (hself a)) ((h b).mpr (hself b)))

instance : Std.Commutative earlier where
  comm a b := eq_of_isLE_iff fun l => by simp only [isLE_earlier_iff, and_comm]

instance : Std.Associative earlier where
  assoc a b c := eq_of_isLE_iff fun l => by simp only [isLE_earlier_iff, and_assoc]

end Location

namespace Evidence

/-- Evidence of a kind on a field. -/
def IsAbout (kind : EvidenceKind) (field : Option String) (e : Evidence) : Prop :=
  e.kind = kind ∧ e.field = field

instance (kind : EvidenceKind) (field : Option String) (e : Evidence) :
    Decidable (e.IsAbout kind field) := inferInstanceAs (Decidable (_ ∧ _))

/-- How close the closest evidence of a kind on a field is. -/
def closest? (kind : EvidenceKind) (field : Option String) (es : List Evidence) : Option Nat :=
  ((es.filter (·.IsAbout kind field)).map (·.scope.rank)).max?

/-- Some evidence of a kind on a field is at least as close as `n`. -/
def Within (kind : EvidenceKind) (field : Option String) (n : Nat) (es : List Evidence) : Prop :=
  ∃ e ∈ es, e.IsAbout kind field ∧ n ≤ e.scope.rank

theorem closest?_eq_some_iff {kind : EvidenceKind} {field : Option String} {n : Nat} :
    closest? kind field es = some n ↔ Within kind field n es ∧ ¬Within kind field (n + 1) es := by
  simp only [closest?, List.max?_eq_some_iff, List.mem_map, List.mem_filter, decide_eq_true_eq, Within]
  constructor
  · rintro ⟨⟨e, ⟨he, habout⟩, rfl⟩, hmax⟩
    refine ⟨⟨e, he, habout, Nat.le_refl _⟩, ?_⟩
    rintro ⟨e', he', habout', hlt⟩
    exact Nat.not_succ_le_self _ (hlt.trans (hmax _ ⟨e', ⟨he', habout'⟩, rfl⟩))
  · rintro ⟨⟨e, he, habout, hle⟩, hmax⟩
    have hall : ∀ e' ∈ es, e'.IsAbout kind field → e'.scope.rank ≤ n := fun e' he' habout' =>
      Nat.le_of_not_lt fun hlt => hmax ⟨e', he', habout', hlt⟩
    refine ⟨⟨e, ⟨he, habout⟩, Nat.le_antisymm (hall e he habout) hle⟩, ?_⟩
    rintro _ ⟨e', ⟨he', habout'⟩, rfl⟩
    exact hall e' he' habout'

theorem closest?_congr {kind : EvidenceKind} {field : Option String} {es es' : List Evidence}
    (h : ∀ n, Within kind field n es ↔ Within kind field n es') :
    closest? kind field es = closest? kind field es' := by
  refine Option.ext fun n => ?_
  rw [closest?_eq_some_iff, closest?_eq_some_iff, h, h]

variable {kind : EvidenceKind} {field : Option String} {n : Nat}

theorem within_one_iff :
    Within kind field 1 es ↔ ∃ e ∈ es, e.IsAbout kind field ∧ e.atBoundary = true := by
  have hrank (e : Evidence) : e.atBoundary = true ↔ 1 ≤ e.scope.rank := by
    cases h : e.scope <;> simp [atBoundary, EvidenceScope.rank, h]
  simp only [Within, hrank]

theorem within_cons {e : Evidence} : Within kind field n (e :: es) ↔
    e.IsAbout kind field ∧ n ≤ e.scope.rank ∨ Within kind field n es := by
  simp [Within]

theorem within_append {es es' : List Evidence} : Within kind field n (es ++ es') ↔
    Within kind field n es ∨ Within kind field n es' := by
  simp [Within, or_and_right, exists_or]

theorem within_flatMap {f : α → List Evidence} {xs : List α} :
    Within kind field n (xs.flatMap f) ↔ ∃ x ∈ xs, Within kind field n (f x) := by
  induction xs with
  | nil => simp [Within]
  | cons x xs ih => simp [within_append, ih]

end Evidence

namespace Binding

open Evidence

variable {form : List α → List α} {list : Binding → List α}

section Evidence

variable {kind : EvidenceKind} {field : Option String} {n : Nat}

theorem within_addEvidence {mine : List Evidence} {e : Evidence} :
    Within kind field n (addEvidence mine e) ↔ Within kind field n (mine ++ [e]) := by
  induction mine with
  | nil => rfl
  | cons m mine ih =>
    rw [addEvidence, Keyed.upsert]
    split
    · next hsame =>
      have hsame : m.IsAbout kind field ↔ e.IsAbout kind field := by
        simp_all [IsAbout]
      have hone : Within kind field n [e] ↔ e.IsAbout kind field ∧ n ≤ e.scope.rank := by
        simp [Within]
      rw [List.cons_append, within_cons, within_cons, within_append, hone, hsame]
      split
      · next hlt =>
        have himp : e.IsAbout kind field ∧ n ≤ m.scope.rank →
            Within kind field n mine ∨ e.IsAbout kind field ∧ n ≤ e.scope.rank :=
          fun h => .inr ⟨h.1, h.2.trans (Nat.le_of_lt hlt)⟩
        rw [or_iff_right_of_imp himp, or_comm]
      · next hle =>
        have himp : e.IsAbout kind field ∧ n ≤ e.scope.rank →
            e.IsAbout kind field ∧ n ≤ m.scope.rank ∨ Within kind field n mine :=
          fun h => .inl ⟨h.1, h.2.trans (Nat.le_of_not_lt hle)⟩
        rw [← or_assoc, or_iff_left_of_imp himp, hsame]
    · rw [List.cons_append, within_cons, within_cons, ← ih]
      rfl

theorem within_foldl_addEvidence {mine theirs : List Evidence} :
    Within kind field n (theirs.foldl addEvidence mine) ↔ Within kind field n (mine ++ theirs) := by
  induction theirs generalizing mine with
  | nil => simp
  | cons e theirs ih =>
    rw [List.foldl_cons, ih, within_append, within_addEvidence, ← within_append, List.append_assoc]
    rfl

theorem within_foldl_absorb {first : Binding} {rest : List Binding} :
    Within kind field n (rest.foldl absorb first).evidence ↔
      Within kind field n ((first :: rest).flatMap (·.evidence)) := by
  induction rest generalizing first with
  | nil => simp
  | cons b rest ih =>
    rw [List.foldl_cons, ih, List.flatMap_cons, within_append]
    simp only [absorb, within_foldl_addEvidence, List.flatMap_cons, within_append, or_assoc]

end Evidence

variable {a b first : Binding} {as bs rest : List Binding}

theorem foldl_absorb_normalForm (hform : IsNormalForm form)
    (habsorb : ∀ a b, list (a.absorb b) = form (list a ++ list b)) (hrest : rest ≠ []) :
    list (rest.foldl absorb first) = form ((first :: rest).flatMap list) := by
  induction rest generalizing first with
  | nil => exact absurd rfl hrest
  | cons b rest ih =>
    cases rest with
    | nil => simp [habsorb]
    | cons c rest =>
      rw [List.foldl_cons, ih (List.cons_ne_nil c rest), List.flatMap_cons, habsorb, hform.append,
        List.append_assoc]
      rfl

theorem list_eq_of_perm (hform : IsNormalForm form)
    (habsorb : ∀ a b, list (a.absorb b) = form (list a ++ list b)) (hperm : (a :: as).Perm (b :: bs))
    (has : as ≠ []) : list (as.foldl absorb a) = list (bs.foldl absorb b) := by
  have hbs : bs ≠ [] := by
    rintro rfl
    simpa [List.length_eq_zero_iff, has] using hperm.length_eq
  rw [foldl_absorb_normalForm hform habsorb has, foldl_absorb_normalForm hform habsorb hbs]
  exact hform.perm (hperm.flatMap_right _)

/-- A view of bindings that takes unions to an operation in which order does not matter. -/
theorem view_eq_of_perm {M : Type} (op : M → M → M) [Std.Commutative op] [Std.Associative op]
    {P : Binding → Prop} (hP : ∀ {a b}, P a → P b → P (a.absorb b)) (view : Binding → M)
    (hview : ∀ {a b}, P a → P b → view (a.absorb b) = op (view a) (view b))
    (hperm : (a :: as).Perm (b :: bs)) (hall : ∀ x ∈ a :: as, P x) :
    view (as.foldl absorb a) = view (bs.foldl absorb b) := by
  have hfold {first : Binding} {rest : List Binding} (h : ∀ x ∈ first :: rest, P x) :
      some (view (rest.foldl absorb first)) =
        ((first :: rest).map (some ∘ view)).foldl (Option.merge op) none := by
    induction rest generalizing first with
    | nil => simp
    | cons b rest ih =>
      obtain ⟨hfirst, hrest⟩ := List.forall_mem_cons.mp h
      obtain ⟨hb, hrest⟩ := List.forall_mem_cons.mp hrest
      rw [List.foldl_cons, ih (List.forall_mem_cons.mpr ⟨hP hfirst hb, hrest⟩)]
      simp [hview hfirst hb]
  have hall' : ∀ x ∈ b :: bs, P x := fun x hx => hall x (hperm.mem_iff.mpr hx)
  apply Option.some.inj
  rw [hfold hall, hfold hall']
  exact (hperm.map _).foldl_op_eq

/-- The shapes of a binding have members with different names, at every depth. -/
structure NamesApart (b : Binding) : Prop where
  request : ∀ s ∈ b.request, s.NamesApart
  response : ∀ s ∈ b.response, s.NamesApart

theorem namesApart_mergeShape {mine theirs : Option Shape} (hmine : ∀ s ∈ mine, s.NamesApart)
    (htheirs : ∀ s ∈ theirs, s.NamesApart) : ∀ s ∈ mergeShape mine theirs, s.NamesApart := by
  cases mine with
  | none => simpa [mergeShape] using htheirs
  | some m =>
    cases theirs with
    | none => simpa [mergeShape] using hmine
    | some t => simpa [mergeShape] using Shape.NamesApart.merge (hmine m rfl) (htheirs t rfl)

theorem NamesApart.absorb (ha : a.NamesApart) (hb : b.NamesApart) : (a.absorb b).NamesApart :=
  ⟨namesApart_mergeShape ha.request hb.request, namesApart_mergeShape ha.response hb.response⟩

theorem accountAt_mergeShape {mine theirs : Option Shape} (htheirs : ∀ s ∈ theirs, s.NamesApart)
    (steps : List Step) : Shape.accountAt (mergeShape mine theirs) steps =
      Option.merge Shape.Account.union (Shape.accountAt mine steps) (Shape.accountAt theirs steps) := by
  cases mine with
  | none => simp [mergeShape, Shape.accountAt]
  | some m =>
    cases theirs with
    | none => simp [mergeShape, Shape.accountAt]
    | some t => exact Shape.accountAt_merge m (htheirs t rfl) steps

/-- Bindings that tell the same, but for texts of which one stands for several. -/
structure Alike (a b : Binding) : Prop where
  key : a.key = b.key
  statusCodes : a.statusCodes = b.statusCodes
  headersRead : a.headersRead = b.headersRead
  headersWritten : a.headersWritten = b.headersWritten
  locations : a.locations = b.locations
  location : a.location = b.location
  request : ∀ steps, Shape.accountAt a.request steps = Shape.accountAt b.request steps
  response : ∀ steps, Shape.accountAt a.response steps = Shape.accountAt b.response steps

/-- A binding with the status codes of `bs`, each once, in order and at its first place, and with
evidence as close as theirs of every kind on every field. -/
structure Unites (bs : List Binding) (u : Binding) : Prop where
  ascending : u.statusCodes.Pairwise fun s t => s.code.compare t.code = .lt
  first : ∀ s, s ∈ u.statusCodes ↔ (∃ b ∈ bs, s ∈ b.statusCodes) ∧
    ∀ b ∈ bs, ∀ t ∈ b.statusCodes, t.code = s.code → (s.location.compare t.location).isLE = true
  closest : ∀ kind field,
    closest? kind field u.evidence = closest? kind field (bs.flatMap (·.evidence))
  atBoundary : ∀ kind field, (∃ e ∈ u.evidence, e.IsAbout kind field ∧ e.atBoundary = true) ↔
    ∃ b ∈ bs, ∃ e ∈ b.evidence, e.IsAbout kind field ∧ e.atBoundary = true

theorem unites_foldl_absorb (hrest : rest ≠ []) :
    Unites (first :: rest) (rest.foldl absorb first) := by
  have hcodes : (rest.foldl absorb first).statusCodes =
      Status.distinct ((first :: rest).flatMap (·.statusCodes)) :=
    foldl_absorb_normalForm Status.isNormalForm_distinct (fun _ _ => rfl) hrest
  refine ⟨?_, fun s => ?_, fun kind field => closest?_congr fun n => within_foldl_absorb,
    fun kind field => ?_⟩
  · rw [hcodes]
    exact Status.ascending_distinct _
  · rw [hcodes, Status.mem_distinct_iff, Status.IsFirst, List.mem_flatMap]
    refine and_congr_right fun _ => ⟨fun h b hb t ht => h t (List.mem_flatMap.mpr ⟨b, hb, ht⟩), ?_⟩
    intro h t ht
    obtain ⟨b, hb, ht⟩ := List.mem_flatMap.mp ht
    exact h b hb t ht
  · simp only [← within_one_iff]
    rw [within_foldl_absorb, within_flatMap]

theorem Unites.perm {l l' : List Binding} {u : Binding} (h : Unites l u) (hperm : l.Perm l') :
    Unites l' u := by
  refine ⟨h.ascending, fun s => ?_, fun kind field => ?_, fun kind field => ?_⟩
  · simpa only [hperm.mem_iff] using h.first s
  · rw [h.closest]
    apply closest?_congr
    simp only [within_flatMap, hperm.mem_iff, implies_true]
  · simpa only [hperm.mem_iff] using h.atBoundary kind field

/-- Bindings of one key may be united in any order. -/
theorem unions_alike (key : BindingKey) (hperm : (a :: as).Perm (b :: bs)) (has : as ≠ [])
    (hkey : ∀ x ∈ a :: as, x.key = key) (hnames : ∀ x ∈ a :: as, x.NamesApart) :
    Alike (as.foldl absorb a) (bs.foldl absorb b) ∧ Unites (a :: as) (bs.foldl absorb b) := by
  have hbs : bs ≠ [] := by
    rintro rfl
    simpa [List.length_eq_zero_iff, has] using hperm.length_eq
  have hkeep (first : Binding) (rest : List Binding) : (rest.foldl absorb first).key = first.key := by
    induction rest generalizing first with
    | nil => rfl
    | cons b rest ih => exact ih (first.absorb b)
  refine ⟨?_, (unites_foldl_absorb hbs).perm hperm.symm⟩
  exact {
    key := by
      rw [hkeep, hkeep, hkey a List.mem_cons_self, hkey b (hperm.mem_iff.mpr List.mem_cons_self)]
    statusCodes := list_eq_of_perm Status.isNormalForm_distinct (fun _ _ => rfl) hperm has
    headersRead := list_eq_of_perm Text.isNormalForm_sortedUnique (fun _ _ => rfl) hperm has
    headersWritten := list_eq_of_perm Text.isNormalForm_sortedUnique (fun _ _ => rfl) hperm has
    locations := list_eq_of_perm isNormalForm_sortedLocations (fun _ _ => rfl) hperm has
    location := view_eq_of_perm Location.earlier (P := fun _ => True) (fun _ _ => trivial) location
      (fun _ _ => rfl) hperm fun _ _ => trivial
    request := fun steps => view_eq_of_perm (Option.merge Shape.Account.union) NamesApart.absorb
      (fun x => Shape.accountAt x.request steps)
      (fun _ hb => accountAt_mergeShape hb.request steps) hperm hnames
    response := fun steps => view_eq_of_perm (Option.merge Shape.Account.union) NamesApart.absorb
      (fun x => Shape.accountAt x.response steps)
      (fun _ hb => accountAt_mergeShape hb.response steps) hperm hnames }

def statusReader (line code : Nat) (scope : EvidenceScope) (values : List String) : Binding where
  key := ⟨"orders-api", "GET /orders/{id}", "web", .consumer, .client, false⟩
  request := none
  response := some
    { Shape.plain "" .object default with
      children := [{ Shape.plain "status" .enum default with enumValues := values }] }
  statusCodes := [⟨.code code, ⟨"web/api.ts", line, 5⟩⟩, ⟨.success, ⟨"web/api.ts", line, 9⟩⟩]
  headersRead := ["ETag"]
  headersWritten := []
  evidence := [⟨.case .lower, some "status", scope, ⟨"web/api.ts", line, 5⟩, "toLowerCase()"⟩]
  location := ⟨"web/api.ts", line, 5⟩
  locations := [⟨"web/api.ts", line, 5⟩]

/-- The last of three readers comes first. -/
theorem status_readers_united :
    ([statusReader 12 404 .file ["paid"], statusReader 9 200 .unit ["sent"],
        statusReader 30 404 .call ["new"]].Perm
      [statusReader 30 404 .call ["new"], statusReader 12 404 .file ["paid"],
        statusReader 9 200 .unit ["sent"]]) ∧
    Alike
      (((statusReader 12 404 .file ["paid"]).absorb (statusReader 9 200 .unit ["sent"])).absorb
        (statusReader 30 404 .call ["new"]))
      (((statusReader 30 404 .call ["new"]).absorb (statusReader 12 404 .file ["paid"])).absorb
        (statusReader 9 200 .unit ["sent"])) ∧
    Unites
      [statusReader 12 404 .file ["paid"], statusReader 9 200 .unit ["sent"],
        statusReader 30 404 .call ["new"]]
      (((statusReader 30 404 .call ["new"]).absorb (statusReader 12 404 .file ["paid"])).absorb
        (statusReader 9 200 .unit ["sent"])) := by
  have hperm : ([statusReader 12 404 .file ["paid"], statusReader 9 200 .unit ["sent"]] ++
      [statusReader 30 404 .call ["new"]]).Perm ([statusReader 30 404 .call ["new"]] ++
        [statusReader 12 404 .file ["paid"], statusReader 9 200 .unit ["sent"]]) :=
    List.perm_append_comm
  have hnames (line code : Nat) (scope : EvidenceScope) (value : String) :
      (statusReader line code scope [value]).NamesApart :=
    ⟨by simp [statusReader], by rintro s ⟨⟩; rfl⟩
  have hkey : ∀ x ∈ [statusReader 12 404 .file ["paid"], statusReader 9 200 .unit ["sent"],
      statusReader 30 404 .call ["new"]],
        x.key = ⟨"orders-api", "GET /orders/{id}", "web", .consumer, .client, false⟩ := by
    simp [statusReader]
  exact ⟨hperm, unions_alike _ hperm (List.cons_ne_nil _ _) hkey (by simp [hnames])⟩

end Binding

end Concord
