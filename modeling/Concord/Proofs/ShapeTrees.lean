import Concord.Shape.Basic

/-! A shape is a tree: its members and its item are the shapes directly inside it. -/
namespace Concord

/-- A step from a field or a shape to one directly inside. -/
inductive Step
  | member (name : String)
  | item
  deriving DecidableEq, Repr

def Step.name : Step → String
  | .member name => name
  | .item => "[]"

namespace Shape

/-- What holds of a shape as soon as it holds of all that is directly inside it holds of every
shape. -/
theorem induction_inside {P : Shape → Prop}
    (step : ∀ s : Shape, (∀ c ∈ s.children, P c) → (∀ i ∈ s.items, P i) → P s) (s : Shape) : P s :=
  @Shape.rec P (fun cs => ∀ c ∈ cs, P c) (fun i? => ∀ i ∈ i?, P i)
    (fun _ _ _ _ _ _ _ _ _ _ _ _ _ _ hchildren hitems => step _ hchildren hitems)
    (fun _ hc => nomatch hc)
    (fun _ _ hc hcs => List.forall_mem_cons.mpr ⟨hc, hcs⟩)
    (fun _ hi => nomatch hi)
    (fun _ hs _ hi => Option.mem_some.mp hi ▸ hs)
    s

def names (s : Shape) : List String := s.children.map (·.name)

def step? (s : Shape) : Step → Option Shape
  | .member name => s.child? name
  | .item => s.items

def at? : List Step → Shape → Option Shape
  | [], s => some s
  | step :: rest, s => (s.step? step).bind (at? rest)

theorem child?_isSome_iff {s : Shape} {name : String} :
    (s.child? name).isSome = true ↔ name ∈ s.names := by
  simp [child?, names]

theorem child?_eq_none_iff {s : Shape} {name : String} : s.child? name = none ↔ name ∉ s.names := by
  simp [child?, names]

mutual

def every (p : Shape → Bool) : Shape → Bool
  | shape@⟨_, _, _, _, _, _, _, _, _, _, children, items, _, _⟩ =>
    p shape && everyMember p children && everyItem p items

def everyMember (p : Shape → Bool) : List Shape → Bool
  | [] => true
  | s :: rest => every p s && everyMember p rest

def everyItem (p : Shape → Bool) : Option Shape → Bool
  | none => true
  | some s => every p s

end

theorem everyMember_iff {p : Shape → Bool} {shapes : List Shape} :
    everyMember p shapes = true ↔ ∀ s ∈ shapes, s.every p = true := by
  induction shapes with
  | nil => simp [everyMember]
  | cons s rest ih => simp [everyMember, ih]

theorem every_iff {p : Shape → Bool} {s : Shape} :
    s.every p = true ↔ p s = true ∧ (∀ c ∈ s.children, c.every p = true) ∧
      ∀ i ∈ s.items, i.every p = true := by
  obtain ⟨name, declared, typeName, kind, format, unit, range, values, required, validated, children,
    items, origin, confidence⟩ := s
  cases items with
  | none => simp [every, everyItem, everyMember_iff]
  | some i => simp [every, everyItem, everyMember_iff, and_assoc]

/-- The members of a shape have different names, and so have those of every shape inside it. -/
def NamesApart (s : Shape) : Prop := s.every (fun s => decide s.names.Nodup) = true

instance (s : Shape) : Decidable s.NamesApart := inferInstanceAs (Decidable (_ = true))

theorem namesApart_iff {s : Shape} :
    s.NamesApart ↔ s.names.Nodup ∧ (∀ c ∈ s.children, c.NamesApart) ∧ ∀ i ∈ s.items, i.NamesApart := by
  rw [NamesApart, every_iff, decide_eq_true_iff]
  rfl

end Shape

end Concord
