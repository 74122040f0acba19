import Mathlib.Data.List.Perm.Basic
import Concord.Proofs.Readers

/-! On a field, each participant is told of the first check that finds something and of no other.
The walk makes one check after the other over all participants, which comes to the same but for the
order of the findings. -/
namespace Concord.Comparison

/-- The checks of a participant on a field, in their order. Only readers are checked for the unit. -/
def checks (x : Exchange) (f : FieldSchema) (path : String) (ps : List Participant)
    (p : Participant) : List (Option Mismatch) :=
  if p.supplier then
    [kindMismatch? x f p path, enumMismatch? x f p path, formatMismatch? x f p ps path,
      strictnessMismatch? x f p path]
  else
    [kindMismatch? x f p path, enumMismatch? x f p path, unitMismatch? x f p ps path,
      formatMismatch? x f p ps path, strictnessMismatch? x f p path]

/-- What the first of the checks finds that finds something. -/
def firstMismatch? (x : Exchange) (f : FieldSchema) (path : String) (ps : List Participant)
    (p : Participant) : Option Mismatch :=
  (checks x f path ps p).findSome? id

section Field

variable {x : Exchange} {f : FieldSchema} {path : String} {ps : List Participant} {p : Participant}

theorem firstMismatch?_eq : firstMismatch? x f path ps p =
    (valueMismatch? x f path p).or
      ((quantityMismatch? x f path ps p).or (strictnessMismatch? x f p path)) := by
  have hcons (a : Option Mismatch) (l : List (Option Mismatch)) :
      (a :: l).findSome? id = a.or (l.findSome? id) := by
    cases a <;> rfl
  unfold firstMismatch? checks valueMismatch? quantityMismatch?
  split <;> simp [hcons, Option.or_assoc]

theorem firstMismatch?_isSome_iff : (firstMismatch? x f path ps p).isSome ↔
    compatible f p.shape = false ∨ (enumMismatch? x f p path).isSome ∨
      (p.supplier = false ∧ (unitMismatch? x f p ps path).isSome) ∨
        (formatMismatch? x f p ps path).isSome ∨ (strictnessMismatch? x f p path).isSome := by
  unfold firstMismatch? checks kindMismatch?
  cases p.supplier <;> cases compatible f p.shape <;> simp

/-- Two rounds, the second of which leaves out those with a finding in the first. -/
theorem perm_filterMap_or {α β : Type} (first second : α → Option β) (l : List α) :
    (l.filterMap first ++ (l.filter fun a => (first a).isNone).filterMap second).Perm
      (l.filterMap fun a => (first a).or (second a)) := by
  induction l with
  | nil => exact .refl _
  | cons a l ih =>
    cases hfirst : first a with
    | some b => simpa [hfirst] using ih
    | none =>
      cases hsecond : second a with
      | none => simpa [hfirst, hsecond] using ih
      | some b =>
        simp only [List.filterMap_cons, List.filter_cons, hfirst, hsecond, Option.isNone_none, if_true,
          Option.none_or]
        exact List.perm_middle.trans (ih.cons b)

theorem fieldMismatches_perm (x : Exchange) (f : FieldSchema) (path : String)
    (ps : List Participant) :
    (fieldMismatches x f path ps).Perm (ps.filterMap (firstMismatch? x f path ps)) := by
  have hlast := perm_filterMap_or (quantityMismatch? x f path ps)
    (fun p => strictnessMismatch? x f p path)
    (ps.filter fun p => (valueMismatch? x f path p).isNone)
  have hall := perm_filterMap_or (valueMismatch? x f path)
    (fun p => (quantityMismatch? x f path ps p).or (strictnessMismatch? x f p path)) ps
  have hfirst : firstMismatch? x f path ps = fun p => (valueMismatch? x f path p).or
      ((quantityMismatch? x f path ps p).or (strictnessMismatch? x f p path)) :=
    funext fun _ => firstMismatch?_eq
  rw [fieldMismatches, hfirst, List.append_assoc]
  exact (hlast.append_left _).trans hall

theorem onField_of_firstMismatch? {m : Mismatch} (hp : p ∈ ps)
    (h : firstMismatch? x f path ps p = some m) : OnField path m :=
  onField_of_mem_fieldMismatches
    ((fieldMismatches_perm x f path ps).mem_iff.mpr (List.mem_filterMap.mpr ⟨p, hp, h⟩))

/-- The findings of the walk below a field. -/
def insideFindings (x : Exchange) (path : String) (ps : List Participant) (f : FieldSchema) :
    List Finding :=
  if f.truncated then []
  else
    match f.type with
    | .object =>
      let members := ps.filter (·.shape.kind = .object)
      objectFindings x f.children path members
        (memberFindings x (f.children.map (·.name)) path members f.children)
    | .array =>
      itemFindings x (FieldPath.join path "[]") (ps.filterMap fun p => p.shape.items.map p.inside)
        f.items
    | _ => []

theorem fieldFindings_split : fieldFindings x path ps f =
    (fieldMismatches x f path ps).map .plain ++ insideFindings x path ps f := by
  unfold insideFindings
  cases htruncated : f.truncated with
  | true => simp [fieldFindings_eq, htruncated]
  | false =>
    cases htype : f.type with
    | object => exact fieldFindings_object htruncated htype
    | _ => simp [fieldFindings_eq, htruncated, htype]

end Field

/-- Those who have a field, each at its member for the field. -/
def carriers (declared : List String) (f : FieldSchema) (ps : List Participant) : List Participant :=
  ps.filterMap fun p => (carrier? declared f p.shape).map p.inside

/-- What the walk says about a participant at a field of an object: whether its name is another one or
it is missing, and the first finding on its member for the field. -/
def reportsOn (x : Exchange) (declared : List String) (f : FieldSchema) (path : String)
    (ps : List Participant) (p : Participant) : List Finding :=
  presence x declared f path p ++
    (((carrier? declared f p.shape).map p.inside).bind
      (firstMismatch? x f path (carriers declared f ps))).toList.map .plain

section Members

variable {x : Exchange} {declared : List String} {f : FieldSchema} {path : String}
  {ps : List Participant} {p : Participant}

theorem reportsOn_perm :
    (ps.flatMap (presence x declared f path) ++
        (fieldMismatches x f path (carriers declared f ps)).map Finding.plain).Perm
      (ps.flatMap (reportsOn x declared f path ps)) := by
  have hown : (carriers declared f ps).filterMap (firstMismatch? x f path (carriers declared f ps)) =
      ps.flatMap fun p => (((carrier? declared f p.shape).map p.inside).bind
        (firstMismatch? x f path (carriers declared f ps))).toList := by
    rw [← List.filterMap_eq_flatMap_toList]
    exact List.filterMap_filterMap
  have hperm := (fieldMismatches_perm x f path (carriers declared f ps)).map Finding.plain
  rw [hown, List.map_flatMap] at hperm
  exact (hperm.append_left _).trans (List.flatMap_append_perm ps _ _)

/-- Who is said to lack a field has no member for it, and that is all that is said of its members. -/
theorem presence_missing {y : Finding} (hy : y ∈ presence x declared f path p)
    (hmissing : y.mismatch.kind = .missing) :
    presence x declared f path p = [y] ∧ carrier? declared f p.shape = none := by
  cases hchild : p.shape.child? f.name with
  | some c => simp [presence, hchild] at hy
  | none =>
    cases hrenamed : p.shape.children.find? (isRenamed declared f) with
    | some c =>
      rw [presence, hchild, hrenamed] at hy
      obtain rfl := List.mem_singleton.mp hy
      cases hmissing
    | none =>
      refine ⟨?_, by simp [carrier?, hchild, hrenamed]⟩
      rw [presence, hchild, hrenamed] at hy ⊢
      dsimp only at hy ⊢
      split at hy
      · next hlacks => rw [List.mem_singleton.mp hy, if_pos hlacks]
      · cases hy

theorem reportsOn_missing {y : Finding} (hy : y ∈ reportsOn x declared f path ps p) (hp : p ∈ ps)
    (hmissing : y.mismatch.kind = .missing) : reportsOn x declared f path ps p = [y] := by
  rcases List.mem_append.mp hy with hpresence | hown
  · obtain ⟨hone, hnone⟩ := presence_missing hpresence hmissing
    simp [reportsOn, hone, hnone]
  · obtain ⟨m, hm, rfl⟩ := List.mem_map.mp hown
    obtain ⟨q, hq, hfirst⟩ := Option.bind_eq_some_iff.mp (Option.mem_toList.mp hm)
    have hcarrier : q ∈ carriers declared f ps := List.mem_filterMap.mpr ⟨p, hp, hq⟩
    exact absurd hmissing ((onField_of_firstMismatch? hcarrier hfirst).kind_ne (by decide))

end Members

/-- The findings on a field itself are one or none for each participant, that of the first of its checks
that finds something. At a field of an object, a participant that is said to lack the field is told
nothing else. -/
theorem first_hit_wins (x : Exchange) (f : FieldSchema) (path : String) :
    (∀ ps, fieldFindings x path ps f =
        (fieldMismatches x f path ps).map .plain ++ insideFindings x path ps f ∧
      (fieldMismatches x f path ps).Perm (ps.filterMap (firstMismatch? x f path ps)) ∧
      ∀ m ∈ fieldMismatches x f path ps, OnField path m) ∧
    ∀ declared above ps rest, path = FieldPath.join above f.name →
      ∃ own, memberFindings x declared above ps (f :: rest) =
          own ++ insideFindings x path (carriers declared f ps) f ++
            memberFindings x declared above ps rest ∧
        own.Perm (ps.flatMap (reportsOn x declared f path ps)) ∧
        ∀ p ∈ ps, ∀ y ∈ reportsOn x declared f path ps p, y.mismatch.kind = .missing →
          reportsOn x declared f path ps p = [y] := by
  constructor
  · intro ps
    exact ⟨fieldFindings_split, fieldMismatches_perm x f path ps,
      fun m => onField_of_mem_fieldMismatches⟩
  · rintro declared above ps rest rfl
    refine ⟨_, ?_, reportsOn_perm, fun p hp y hy => reportsOn_missing hy hp⟩
    rw [memberFindings, fieldFindings_split]
    simp only [List.append_assoc]
    rfl

def orderNumber : FieldSchema := ⟨"id", .string, none, none, none, [], true, [], none, none, false⟩

def forgetfulShop : Participant := ⟨orderBinding "shop" .server .object, true, .plain "" .object default⟩

def confusedClient : Participant where
  binding := orderBinding "web" .client .object
  supplier := false
  shape := { Shape.plain "" .object default with
    children := [{ Shape.plain "id" .boolean default with range := some ⟨some (.ofNat 1), none⟩ }] }

def orderExchange : Exchange := ⟨default, "orders", "GET /order", .response⟩

/-- The shop is told that the number is missing, and the client only that it is no truth value. -/
theorem order_number_told_once :
    (∃ y, y.mismatch.kind = .missing ∧ reportsOn orderExchange ["id"] orderNumber "id"
        [forgetfulShop, confusedClient] forgetfulShop = [y]) ∧
      (fieldMismatches orderExchange orderNumber "id"
        (carriers ["id"] orderNumber [forgetfulShop, confusedClient])).map (·.kind) = [.type] := by
  obtain ⟨hown, hmembers⟩ := first_hit_wins orderExchange orderNumber "id"
  obtain ⟨-, -, -, hmissing⟩ := hmembers ["id"] "" [forgetfulShop, confusedClient] [] rfl
  obtain ⟨-, hperm, -⟩ := hown (carriers ["id"] orderNumber [forgetfulShop, confusedClient])
  refine ⟨⟨.plain (orderExchange.error .missing .responseShape "id" default "required"
    "shop (server) omits it from the response"), rfl, ?_⟩, ?_⟩
  · exact hmissing forgetfulShop (by simp) _ (by decide +kernel) rfl
  · have hfirst : ((carriers ["id"] orderNumber [forgetfulShop, confusedClient]).filterMap
        (firstMismatch? orderExchange orderNumber "id"
          (carriers ["id"] orderNumber [forgetfulShop, confusedClient]))).map (·.kind) = [.type] := by
      decide +kernel
    exact List.perm_singleton.mp (hfirst ▸ hperm.map (·.kind))

end Concord.Comparison
