import Concord.Shape.Resolve

/-! The scalars and the names in a type. To fill in parameters brings in what the types mention that
they stand for, and nothing else. -/
namespace Concord

variable {P : Mention → Prop} {bindings : Bindings}

namespace TypeExpr

/-- A scalar or a name in a type. -/
inductive Mention
  | scalar (kind : ShapeKind)
  /-- A name, and whether it is given arguments. -/
  | name (name : String) (applied : Bool)
  deriving DecidableEq, Repr

mutual

def mentions : TypeExpr → List Mention
  | .scalar kind => [.scalar kind]
  | .formatted kind _ => [.scalar kind]
  | .named name args => .name name (!args.isEmpty) :: mentionsAll args
  | .array item => mentions item
  | .optional inner => mentions inner
  | .map => []
  | .literals _ => []
  | .unknown => []

def mentionsAll : List TypeExpr → List Mention
  | [] => []
  | ty :: rest => mentions ty ++ mentionsAll rest

end

theorem mentionsAll_eq_flatMap (tys : List TypeExpr) : mentionsAll tys = tys.flatMap mentions := by
  induction tys with
  | nil => rfl
  | cons ty tys ih => rw [mentionsAll, ih, List.flatMap_cons]

end TypeExpr

open TypeExpr

def TypeDecl.types (decl : TypeDecl) : List TypeExpr :=
  match decl.body with
  | .record fields => fields.map (·.ty)
  | .synonym target => [target]
  | .enum _ => []

def TypeDecl.mentions (decl : TypeDecl) : List Mention := decl.types.flatMap TypeExpr.mentions

theorem TypeDecl.mem_mentions_of_record {decl : TypeDecl} {fields : List FieldDecl} {field : FieldDecl}
    {m : Mention} (hbody : decl.body = .record fields) (hfield : field ∈ fields)
    (hm : m ∈ field.ty.mentions) : m ∈ decl.mentions := by
  simp only [mentions, types, hbody, List.mem_flatMap, List.mem_map]
  exact ⟨field.ty, ⟨field, hfield, rfl⟩, hm⟩

theorem TypeDecl.mem_mentions_of_synonym {decl : TypeDecl} {target : TypeExpr} {m : Mention}
    (hbody : decl.body = .synonym target) (hm : m ∈ target.mentions) : m ∈ decl.mentions := by
  simpa [mentions, types, hbody] using hm

namespace Shape

/-- What satisfying names stand for mentions only what satisfies `P`. -/
def Bindings.Within (P : Mention → Prop) (bindings : Bindings) : Prop :=
  ∀ name applied ty, P (.name name applied) → bindings.lookup name = some ty → ∀ m ∈ ty.mentions, P m

theorem Bindings.within_nil (P : Mention → Prop) : Bindings.Within P [] := by
  simp [Bindings.Within]

mutual

theorem mentions_substitute (h : bindings.Within P) :
    ∀ ty : TypeExpr, (∀ m ∈ ty.mentions, P m) → ∀ m ∈ (substitute bindings ty).mentions, P m
  | .scalar _, hty => hty
  | .formatted _ _, hty => hty
  | .named name [], hty => by
    rw [substitute]
    cases hbound : bindings.lookup name with
    | none => exact hty
    | some ty => exact h name false ty (hty _ List.mem_cons_self) hbound
  | .named _ (ty :: tys), hty => by
    obtain ⟨hname, hargs⟩ := List.forall_mem_cons.mp hty
    exact List.forall_mem_cons.mpr ⟨hname, mentions_substituteAll h (ty :: tys) hargs⟩
  | .array item, hty => mentions_substitute h item hty
  | .optional inner, hty => mentions_substitute h inner hty
  | .map, hty => hty
  | .literals _, hty => hty
  | .unknown, hty => hty

theorem mentions_substituteAll (h : bindings.Within P) :
    ∀ tys : List TypeExpr, (∀ m ∈ mentionsAll tys, P m) →
      ∀ m ∈ mentionsAll (substituteAll bindings tys), P m
  | [], htys => htys
  | ty :: tys, htys => by
    obtain ⟨hty, htys⟩ := List.forall_mem_append.mp htys
    exact List.forall_mem_append.mpr ⟨mentions_substitute h ty hty, mentions_substituteAll h tys htys⟩

end

/-- In a record that is entered, parameters stand for what it is given. -/
theorem Visit.within_frame (h : bindings.Within P) {args : List TypeExpr}
    (hargs : ∀ m ∈ mentionsAll args, P m) (decl : TypeDecl) (fields : List FieldDecl)
    (visiting : List String) (p : Place) :
    (Visit.enter decl fields visiting bindings args p).frame.Within P := by
  intro name _ ty _ hbound
  simp only [enter] at hbound
  split at hbound
  · simp at hbound
  · obtain ⟨before, after, heq, -⟩ := List.lookup_eq_some_iff.mp hbound
    have hmem : (name, ty) ∈ decl.generics.zip (substituteAll bindings args) := by
      rw [← List.mem_reverse, heq]
      simp
    have hall := mentions_substituteAll h args hargs
    rw [mentionsAll_eq_flatMap] at hall
    exact fun m hm => hall m (List.mem_flatMap.mpr ⟨ty, (List.of_mem_zip hmem).2, hm⟩)

end Shape

end Concord
