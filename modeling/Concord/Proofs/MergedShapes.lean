import Mathlib.Data.Finset.Dedup
import Mathlib.Data.Finset.Lattice.Basic
import Concord.Proofs.Keys
import Concord.Proofs.Orders
import Concord.Proofs.ShapeTrees

/-! The union of two shapes has the fields of both. What it tells about a field is what either
tells, which does not depend on the order in which shapes are merged. -/
namespace Concord

namespace Shape

@[simp] theorem name_merge (a b : Shape) : (a.merge b).name = a.name := by
  cases b
  rfl

theorem children_merge (a b : Shape) :
    (a.merge b).children = mergeChildren a.children b.children := by
  cases b
  rfl

theorem items_merge (a b : Shape) : (a.merge b).items = Option.merge merge a.items b.items := by
  cases b with
  | mk _ _ _ _ _ _ _ _ _ _ _ items =>
    cases items <;> cases hitem : a.items <;> simp [merge, mergeItems, hitem]

theorem find?_mergeChildren {theirs : List Shape} (h : (theirs.map (·.name)).Nodup)
    (mine : List Shape) (name : String) :
    (mergeChildren mine theirs).find? (·.name == name) =
      Option.merge merge (mine.find? (·.name == name)) (theirs.find? (·.name == name)) := by
  induction theirs generalizing mine with
  | nil => simp [mergeChildren]
  | cons c cs ih =>
    obtain ⟨hc, hcs⟩ := List.nodup_cons.mp h
    rw [mergeChildren, ih hcs]
    by_cases hname : name = c.name
    · subst hname
      have hnone : cs.find? (·.name == c.name) = none := by simpa using hc
      rw [Keyed.find?_upsert_self Shape.name fun m => name_merge m c, hnone]
      cases mine.find? (·.name == c.name) <;> simp
    · rw [Keyed.find?_upsert_of_ne Shape.name (fun m => name_merge m c) hname]
      simp [Ne.symm hname]

theorem step?_merge {b : Shape} (h : b.names.Nodup) (a : Shape) (step : Step) :
    (a.merge b).step? step = Option.merge merge (a.step? step) (b.step? step) := by
  cases step with
  | member name => rw [step?, child?, children_merge, find?_mergeChildren h]; rfl
  | item => exact items_merge a b

theorem nodup_mergeChildren {mine theirs : List Shape} (h : (mine.map (·.name)).Nodup) :
    ((mergeChildren mine theirs).map (·.name)).Nodup := by
  induction theirs generalizing mine with
  | nil => simpa [mergeChildren] using h
  | cons c cs ih =>
    rw [mergeChildren]
    apply ih
    rw [Keyed.map_upsert Shape.name fun m => name_merge m c]
    split
    · exact h
    · next hc => simpa [List.nodup_append, h] using hc

theorem mem_mergeChildren {mine theirs : List Shape} {s : Shape} (h : s ∈ mergeChildren mine theirs) :
    ∀ P : Shape → Prop, (∀ m ∈ mine, P m) → (∀ c ∈ theirs, P c) →
      (∀ c ∈ theirs, ∀ m, P m → P (m.merge c)) → P s := by
  intro P
  induction theirs generalizing mine with
  | nil => exact fun hmine _ _ => hmine s (by simpa [mergeChildren] using h)
  | cons c cs ih =>
    intro hmine htheirs hmerge
    obtain ⟨hc, hcs⟩ := List.forall_mem_cons.mp htheirs
    obtain ⟨hmergec, hmergecs⟩ := List.forall_mem_cons.mp hmerge
    rw [mergeChildren] at h
    refine ih h (fun m hm => ?_) hcs hmergecs
    rcases Keyed.mem_upsert hm with hm | rfl | ⟨m', hm', -, rfl⟩
    · exact hmine m hm
    · exact hc
    · exact hmergec m' (hmine m' hm')

theorem of_mem_merge {α : Type} {f : α → α → α} {P : α → Prop} {x y : Option α} (hx : ∀ i ∈ x, P i)
    (hy : ∀ i ∈ y, P i) (hf : ∀ i ∈ x, ∀ j ∈ y, P (f i j)) : ∀ k ∈ Option.merge f x y, P k := by
  cases x <;> cases y <;> simp_all

/-- What holds in a shape at every depth holds in a union at every depth, if merging keeps it. -/
theorem every_merge {p : Shape → Bool} (hp : ∀ a b, p a = true → p (a.merge b) = true) {a b : Shape}
    (ha : a.every p = true) (hb : b.every p = true) : (a.merge b).every p = true := by
  induction b using induction_inside generalizing a with
  | step b ihchildren ihitems =>
    obtain ⟨hself, hchildren, hitems⟩ := every_iff.mp ha
    obtain ⟨-, hchildren', hitems'⟩ := every_iff.mp hb
    refine every_iff.mpr ⟨hp a b hself, fun c hc => ?_, fun i hi => ?_⟩
    · rw [children_merge] at hc
      exact mem_mergeChildren hc (·.every p = true) hchildren hchildren' fun c hc m hm =>
        ihchildren c hc hm (hchildren' c hc)
    · rw [items_merge] at hi
      exact of_mem_merge hitems hitems'
        (fun mine hmine theirs htheirs =>
          ihitems theirs htheirs (hitems mine hmine) (hitems' theirs htheirs)) i hi

theorem NamesApart.merge {a b : Shape} (ha : a.NamesApart) (hb : b.NamesApart) :
    (a.merge b).NamesApart := by
  refine every_merge (fun a b hnames => ?_) ha hb
  rw [decide_eq_true_iff] at hnames ⊢
  rw [names, children_merge]
  exact nodup_mergeChildren hnames

/-- What shapes tell about one field whatever the order in which they are merged. -/
structure Account where
  required : Bool
  validated : Bool
  declared : Bool
  values : Finset String
  deriving DecidableEq

namespace Account

def union (a b : Account) : Account :=
  ⟨a.required || b.required, a.validated || b.validated, a.declared || b.declared, a.values ∪ b.values⟩

instance : Std.Commutative union where
  comm a b := by simp [union, Bool.or_comm, Finset.union_comm]

instance : Std.Associative union where
  assoc a b c := by simp [union, Bool.or_assoc, Finset.union_assoc]

end Account

def account (s : Shape) : Account :=
  ⟨s.required, s.validated, s.confidence = .declared, s.enumValues.toFinset⟩

/-- What a shape, if there is one, tells about the field at the end of some steps; nothing if it has
no such field. -/
def accountAt (s : Option Shape) (steps : List Step) : Option Account :=
  (s.bind (at? steps)).map account

theorem account_merge (a b : Shape) : (a.merge b).account = a.account.union b.account := by
  cases b with
  | mk _ _ _ _ _ _ _ _ _ _ _ _ _ confidence =>
    cases confidence <;> simp [account, merge, Account.union, Finset.ext_iff]

/-- A union has the fields of both shapes, and tells about each what either tells. -/
theorem accountAt_merge (a : Shape) {b : Shape} (hb : b.NamesApart) (steps : List Step) :
    accountAt (some (a.merge b)) steps =
      Option.merge Account.union (accountAt (some a) steps) (accountAt (some b) steps) := by
  induction steps generalizing a b with
  | nil => exact congrArg some (account_merge a b)
  | cons step steps ih =>
    obtain ⟨hnames, hchildren, hitems⟩ := namesApart_iff.mp hb
    have hinside : ∀ c ∈ b.step? step, c.NamesApart := by
      cases step with
      | member name => exact fun c hc => hchildren c (List.mem_of_find?_eq_some hc)
      | item => exact hitems
    have hstep (s : Shape) : accountAt (some s) (step :: steps) = accountAt (s.step? step) steps := rfl
    rw [hstep, hstep, hstep, step?_merge hnames]
    cases hmine : a.step? step with
    | none => simp [accountAt]
    | some mine =>
      cases htheirs : b.step? step with
      | none => simp [accountAt]
      | some theirs => exact ih mine (hinside theirs htheirs)

end Shape

end Concord
