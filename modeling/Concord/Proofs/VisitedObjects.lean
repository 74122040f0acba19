import Concord.Proofs.Locality
import Concord.Proofs.Precedence

/-! A participant takes part at an object of the schema if its own shape has a part there, whoever
else takes part. So the walk visits the objects of the schema one by one, each with those whose
shapes reach it. -/
namespace Concord.Comparison

variable {declared : List String} {s : Shape}

/-- A turn of the walk: to a member of an object, by its place among the fields, or to the items of an
array. -/
inductive Turn
  | member (place : Nat)
  | item
  deriving DecidableEq, Repr

/-- What the walk stands at: an object, of which only the fields matter, or a field. -/
inductive Spot
  | object (fields : List FieldSchema)
  | field (f : FieldSchema)

/-- In the walk through a payload, the shape `whole` reaches a spot: after some turns, of which the last
stands first, at a path, and with a part of the shape for the spot. -/
inductive Reaches (fields : Payload) (whole : Shape) : List Turn → String → Spot → Shape → Prop
  | whole : Reaches fields whole [] "" (.object fields) whole
  | member {turns : List Turn} {path : String} {siblings : List FieldSchema} {s c : Shape} {i : Nat}
    {f : FieldSchema} (h : Reaches fields whole turns path (.object siblings) s)
    (hf : siblings[i]? = some f) (hc : carrier? (siblings.map (·.name)) f s = some c) :
    Reaches fields whole (.member i :: turns) (FieldPath.join path f.name) (.field f) c
  | object {turns : List Turn} {path : String} {f : FieldSchema} {s : Shape}
    (h : Reaches fields whole turns path (.field f) s) (htype : f.type = .object)
    (huncut : f.truncated = false) (hkind : s.kind = .object) :
    Reaches fields whole turns path (.object f.children) s
  | item {turns : List Turn} {path : String} {f i : FieldSchema} {s t : Shape}
    (h : Reaches fields whole turns path (.field f) s) (htype : f.type = .array)
    (huncut : f.truncated = false) (hi : f.items = some i) (ht : s.items = some t) :
    Reaches fields whole (.item :: turns) (FieldPath.join path "[]") (.field i) t

/-- An object of a schema, with the part for it of a shape of the whole payload. -/
structure Station where
  turns : List Turn
  path : String
  fields : List FieldSchema
  part : Shape → Option Shape

mutual

def stationsAt (turns : List Turn) (path : String) (part : Shape → Option Shape) :
    FieldSchema → List Station
  | ⟨_, type, _, _, _, _, _, children, items, _, truncated⟩ =>
    if truncated then []
    else
      match type with
      | .object =>
        let part := fun s => (part s).filter (·.kind = .object)
        ⟨turns, path, children, part⟩ ::
          stationsOfMembers turns path part (children.map (·.name)) 0 children
      | .array =>
        stationsOfItems (.item :: turns) (FieldPath.join path "[]") (fun s => (part s).bind (·.items))
          items
      | _ => []

def stationsOfMembers (turns : List Turn) (path : String) (part : Shape → Option Shape)
    (declared : List String) : (i : Nat) → List FieldSchema → List Station
  | _, [] => []
  | i, f :: rest =>
    stationsAt (.member i :: turns) (FieldPath.join path f.name)
        (fun s => (part s).bind (carrier? declared f)) f ++
      stationsOfMembers turns path part declared (i + 1) rest

def stationsOfItems (turns : List Turn) (path : String) (part : Shape → Option Shape) :
    Option FieldSchema → List Station
  | none => []
  | some i => stationsAt turns path part i

end

def stationsFrom (o : Station) : List Station :=
  o :: stationsOfMembers o.turns o.path o.part (o.fields.map (·.name)) 0 o.fields

def stations (fields : Payload) : List Station := stationsFrom ⟨[], "", fields, some⟩

section Stations

variable {turns : List Turn} {path : String} {part : Shape → Option Shape} {f : FieldSchema}
  {o o' : Station}

theorem stationsAt_eq : stationsAt turns path part f =
    if f.truncated then []
    else
      match f.type with
      | .object =>
        stationsFrom ⟨turns, path, f.children, fun s => (part s).filter (·.kind = .object)⟩
      | .array =>
        stationsOfItems (.item :: turns) (FieldPath.join path "[]") (fun s => (part s).bind (·.items))
          f.items
      | _ => [] := by
  obtain ⟨name, type, format, unit, range, values, required, children, items, ref, truncated⟩ := f
  rfl

def Station.below (o : Station) (i : Nat) (f : FieldSchema) : List Station :=
  stationsAt (.member i :: o.turns) (FieldPath.join o.path f.name)
    (fun s => (o.part s).bind (carrier? (o.fields.map (·.name)) f)) f

theorem mem_stationsOfMembers {i : Nat} {fields : List FieldSchema} :
    o ∈ stationsOfMembers turns path part declared i fields ↔ ∃ j f, fields[j]? = some f ∧
      o ∈ stationsAt (.member (i + j) :: turns) (FieldPath.join path f.name)
        (fun s => (part s).bind (carrier? declared f)) f := by
  induction fields generalizing i with
  | nil => simp [stationsOfMembers]
  | cons f fields ih =>
    have hplace (j : Nat) : i + 1 + j = i + (j + 1) := by omega
    rw [stationsOfMembers, List.mem_append, ih]
    constructor
    · rintro (h | ⟨j, g, hg, h⟩)
      · exact ⟨0, f, rfl, h⟩
      · exact ⟨j + 1, g, hg, hplace j ▸ h⟩
    · rintro ⟨j, g, hg, h⟩
      cases j with
      | zero => simp_all
      | succ j => exact .inr ⟨j, g, hg, (hplace j).symm ▸ h⟩

theorem mem_stationsFrom : o' ∈ stationsFrom o ↔
    o' = o ∨ ∃ i f, o.fields[i]? = some f ∧ o' ∈ o.below i f := by
  simp [stationsFrom, mem_stationsOfMembers, Station.below]

theorem mem_stationsAt : o ∈ stationsAt turns path part f ↔ f.truncated = false ∧
    (f.type = .object ∧
        o ∈ stationsFrom ⟨turns, path, f.children, fun s => (part s).filter (·.kind = .object)⟩ ∨
      f.type = .array ∧ ∃ i ∈ f.items, o ∈ stationsAt (.item :: turns) (FieldPath.join path "[]")
        (fun s => (part s).bind (·.items)) i) := by
  rw [stationsAt_eq]
  cases f.truncated with
  | true => simp
  | false =>
    cases f.type with
    | array => cases f.items <;> simp [stationsOfItems]
    | _ => simp

/-- All objects below a field are reached by the way to the field. -/
theorem suffix_of_mem_stationsAt (h : o ∈ stationsAt turns path part f) : turns <:+ o.turns := by
  induction f using FieldSchema.induction_inside generalizing turns path part with
  | step f members item =>
    rcases mem_stationsAt.mp h with ⟨-, ⟨-, h⟩ | ⟨-, i, hi, h⟩⟩
    · rcases mem_stationsFrom.mp h with rfl | ⟨i, c, hc, h⟩
      · exact List.suffix_rfl
      · exact (List.suffix_cons _ _).trans (members c (List.mem_of_getElem? hc) h)
    · exact (List.suffix_cons _ _).trans (item i hi h)

/-- Ways that go on from one place in two directions do not meet again. -/
theorem turn_eq_of_suffix {t u : Turn} {way : List Turn} (ht : t :: turns <:+ way)
    (hu : u :: turns <:+ way) : t = u := by
  have hsame := List.suffix_of_suffix_length_le ht hu (by simp)
  exact (List.cons.inj (hsame.eq_of_length (by simp))).1

theorem nodup_stationsOfMembers {i : Nat} {fields : List FieldSchema}
    (h : ∀ f ∈ fields, ∀ turns path part, ((stationsAt turns path part f).map (·.turns)).Nodup) :
    ((stationsOfMembers turns path part declared i fields).map (·.turns)).Nodup := by
  induction fields generalizing i with
  | nil => simp [stationsOfMembers]
  | cons f fields ih =>
    obtain ⟨hf, hfields⟩ := List.forall_mem_cons.mp h
    rw [stationsOfMembers, List.map_append, List.nodup_append]
    refine ⟨hf _ _ _, ih hfields, ?_⟩
    simp only [List.mem_map, mem_stationsOfMembers]
    rintro _ ⟨o, ho, rfl⟩ _ ⟨o', ⟨j, g, -, ho'⟩, rfl⟩ heq
    have hturn := turn_eq_of_suffix (suffix_of_mem_stationsAt ho)
      (heq ▸ suffix_of_mem_stationsAt ho')
    simp at hturn
    omega

theorem nodup_stationsFrom
    (h : ∀ f ∈ o.fields, ∀ turns path part, ((stationsAt turns path part f).map (·.turns)).Nodup) :
    ((stationsFrom o).map (·.turns)).Nodup := by
  rw [stationsFrom, List.map_cons, List.nodup_cons]
  refine ⟨?_, nodup_stationsOfMembers h⟩
  simp only [List.mem_map, mem_stationsOfMembers]
  rintro ⟨o', ⟨i, f, -, ho'⟩, heq⟩
  have hlength := (heq ▸ suffix_of_mem_stationsAt ho').length_le
  simp only [List.length_cons] at hlength
  omega

theorem nodup_stationsAt (f : FieldSchema) (turns : List Turn) (path : String)
    (part : Shape → Option Shape) : ((stationsAt turns path part f).map (·.turns)).Nodup := by
  induction f using FieldSchema.induction_inside generalizing turns path part with
  | step f members item =>
    rw [stationsAt_eq]
    cases f.truncated with
    | true => simp
    | false =>
      cases f.type with
      | object => exact nodup_stationsFrom members
      | array =>
        cases hitems : f.items with
        | none => simp [stationsOfItems]
        | some i => exact item i hitems _ _ _
      | _ => simp

theorem nodup_stations (fields : Payload) : ((stations fields).map (·.turns)).Nodup :=
  nodup_stationsFrom fun f _ => nodup_stationsAt f

end Stations

section Reaching

variable {fields : Payload} {whole : Shape} {turns : List Turn} {path : String}
  {part : Shape → Option Shape} {f : FieldSchema} {o o' : Station}

/-- One step down: if the part of an object is reached, so is that of a field in it. -/
theorem reaches_member {i : Nat}
    (h : ∀ s, o.part whole = some s → Reaches fields whole o.turns o.path (.object o.fields) s)
    (hf : o.fields[i]? = some f) {c : Shape}
    (hc : (o.part whole).bind (carrier? (o.fields.map (·.name)) f) = some c) :
    Reaches fields whole (.member i :: o.turns) (FieldPath.join o.path f.name) (.field f) c := by
  obtain ⟨s, hs, hc⟩ := Option.bind_eq_some_iff.mp hc
  exact .member (h s hs) hf hc

theorem reaches_of_mem_stationsAt
    (h : ∀ s, part whole = some s → Reaches fields whole turns path (.field f) s)
    (ho : o ∈ stationsAt turns path part f) (hs : o.part whole = some s) :
    Reaches fields whole o.turns o.path (.object o.fields) s := by
  induction f using FieldSchema.induction_inside generalizing turns path part with
  | step f members item =>
    rcases mem_stationsAt.mp ho with ⟨huncut, ⟨htype, ho⟩ | ⟨htype, i, hi, ho⟩⟩
    · have hobject (s : Shape) (hs : (part whole).filter (·.kind = .object) = some s) :
          Reaches fields whole turns path (.object f.children) s := by
        obtain ⟨hs, hkind⟩ := Option.filter_eq_some_iff.mp hs
        exact .object (h s hs) htype huncut (by simpa using hkind)
      rcases mem_stationsFrom.mp ho with rfl | ⟨i, c, hc, ho⟩
      · exact hobject s hs
      · exact members c (List.mem_of_getElem? hc) (fun _ => reaches_member hobject hc) ho
    · apply item i hi _ ho
      intro t ht
      obtain ⟨s, hs, ht⟩ := Option.bind_eq_some_iff.mp ht
      exact .item (h s hs) htype huncut hi ht

theorem reaches_of_mem_stations (ho : o ∈ stations fields) (hs : o.part whole = some s) :
    Reaches fields whole o.turns o.path (.object o.fields) s := by
  have hwhole (s : Shape) (hs : some whole = some s) :
      Reaches fields whole [] "" (.object fields) s := Option.some.inj hs ▸ .whole
  rcases mem_stationsFrom.mp ho with rfl | ⟨i, f, hf, ho⟩
  · exact hwhole s hs
  · exact reaches_of_mem_stationsAt (fun _ => reaches_member hwhole hf) ho hs

/-- Where a shape gets to, an object of the schema stands, and so do all that are below. -/
theorem Reaches.exists_station {spot : Spot} (h : Reaches fields whole turns path spot s) :
    ∃ part, part whole = some s ∧ match spot with
      | .object siblings => ∀ o ∈ stationsFrom ⟨turns, path, siblings, part⟩, o ∈ stations fields
      | .field f => ∀ o ∈ stationsAt turns path part f, o ∈ stations fields := by
  induction h with
  | whole => exact ⟨some, rfl, fun o ho => ho⟩
  | member _ hf hc ih =>
    obtain ⟨part, hpart, hbelow⟩ := ih
    refine ⟨_, ?_, fun o ho => hbelow o (mem_stationsFrom.mpr (.inr ⟨_, _, hf, ho⟩))⟩
    simp [hpart, hc]
  | object _ htype huncut hkind ih =>
    obtain ⟨part, hpart, hbelow⟩ := ih
    refine ⟨_, ?_, fun o ho => hbelow o (mem_stationsAt.mpr ⟨huncut, .inl ⟨htype, ho⟩⟩)⟩
    simp [hpart, hkind]
  | item _ htype huncut hi ht ih =>
    obtain ⟨part, hpart, hbelow⟩ := ih
    refine ⟨_, ?_, fun o ho => hbelow o (mem_stationsAt.mpr ⟨huncut, .inr ⟨htype, _, hi, ho⟩⟩)⟩
    simp [hpart, ht]

/-- The objects that a shape reaches are those of the schema at which it has a part. -/
theorem reaches_object_iff {siblings : List FieldSchema} :
    Reaches fields whole turns path (.object siblings) s ↔
      ∃ part, ⟨turns, path, siblings, part⟩ ∈ stations fields ∧ part whole = some s := by
  constructor
  · intro h
    obtain ⟨part, hpart, hbelow⟩ := h.exists_station
    exact ⟨part, hbelow _ (mem_stationsFrom.mpr (.inl rfl)), hpart⟩
  · rintro ⟨part, ho, hs⟩
    exact reaches_of_mem_stations ho hs

end Reaching

def holders (part : Shape → Option Shape) (ps : List Participant) : List Participant :=
  ps.filterMap fun p => (part p.shape).map p.inside

def ofKind (kind : MismatchKind) (ys : List Finding) : List Finding :=
  ys.filter (·.mismatch.kind = kind)

/-- What the walk says at an object about its type and about which fields are there. -/
def Station.findings (x : Exchange) (ps : List Participant) (o : Station) : List Finding :=
  drifts x o.path (holders o.part ps) ++ o.fields.flatMap fun f =>
    (holders o.part ps).flatMap
      (presence x (o.fields.map (·.name)) f (FieldPath.join o.path f.name))

section Walk

variable {x : Exchange} {kind : MismatchKind} {ps : List Participant} {path : String}
  {part next : Shape → Option Shape} {f : FieldSchema} {fields : List FieldSchema} {o : Station}

theorem holders_some : holders some ps = ps := List.filterMap_some

theorem holders_bind : (holders part ps).filterMap (fun p => (next p.shape).map p.inside) =
    holders (fun s => (part s).bind next) ps := by
  rw [holders, holders, List.filterMap_filterMap]
  congr 1
  funext p
  cases part p.shape <;> rfl

theorem holders_filter : (holders part ps).filter (·.shape.kind = .object) =
    holders (fun s => (part s).filter (·.kind = .object)) ps := by
  rw [holders, holders, List.filter_filterMap]
  congr 1
  funext p
  cases part p.shape with
  | none => rfl
  | some s => by_cases hs : s.kind = .object <;> simp [Option.filter, Participant.inside, hs]

@[simp] theorem ofKind_nil : ofKind kind [] = [] := rfl

@[simp] theorem ofKind_append (ys zs : List Finding) :
    ofKind kind (ys ++ zs) = ofKind kind ys ++ ofKind kind zs := List.filter_append ..

@[simp] theorem ofKind_flatMap {α : Type} (g : α → List Finding) (l : List α) :
    ofKind kind (l.flatMap g) = l.flatMap fun a => ofKind kind (g a) := List.filter_flatMap ..

theorem ofKind_eq_nil {ys : List Finding} (h : ∀ y ∈ ys, y.mismatch.kind ≠ kind) :
    ofKind kind ys = [] := List.filter_eq_nil_iff.mpr (by simpa using h)

theorem kind_of_mem_drifts {y : Finding} (h : y ∈ drifts x path ps) : y.mismatch.kind = .drift := by
  by_contra hkind
  have hdrift : y.drift = none := ((kinded_pieces x).drift path ps y h).mpr hkind
  have hplain : .plain y.mismatch ∈ drifts x path ps := by
    rwa [Finding.plain, ← hdrift]
  rw [← mem_undrifted, undrifted_drifts] at hplain
  cases hplain

/-- A kind of finding that comes neither from the checks on a field itself nor from members that carry no
field. -/
def OfObjects (kind : MismatchKind) : Prop := kind ∉ MismatchKind.extra :: ownKinds

theorem OfObjects.own (hkind : OfObjects kind) :
    ofKind kind ((fieldMismatches x f path ps).map .plain) = [] := by
  apply ofKind_eq_nil
  intro y hy
  obtain ⟨m, hm, rfl⟩ := List.mem_map.mp hy
  exact (onField_of_mem_fieldMismatches hm).kind_ne fun h => hkind (List.mem_cons_of_mem _ h)

theorem OfObjects.extras (hkind : OfObjects kind) :
    ofKind kind (ps.flatMap (extras x fields path)) = [] := by
  apply ofKind_eq_nil
  intro y hy
  obtain ⟨p, -, hy⟩ := List.mem_flatMap.mp hy
  obtain ⟨c, -, rfl⟩ := List.mem_map.mp hy
  rintro rfl
  exact hkind List.mem_cons_self

theorem OfObjects.objectFindings (hkind : OfObjects kind) :
    ofKind kind (objectFindings x fields path ps (memberFindings x declared path ps fields)) =
      ofKind kind (drifts x path ps) ++ ofKind kind (memberFindings x declared path ps fields) := by
  rw [Comparison.objectFindings]
  cases fields with
  | nil => simp [memberFindings]
  | cons f fields => simp [hkind.extras]

/-- The findings of a kind on a field and below it are those at the objects there. -/
def Scattered (x : Exchange) (kind : MismatchKind) (ps : List Participant) (f : FieldSchema) : Prop :=
  ∀ (turns : List Turn) (path : String) (part : Shape → Option Shape),
    (ofKind kind (fieldFindings x path (holders part ps) f)).Perm
      ((stationsAt turns path part f).flatMap fun o => ofKind kind (o.findings x ps))

/-- The run over the fields of an object: what is said of a field's presence belongs to the object, and
what is said below the field to the objects there. -/
theorem memberFindings_scattered {turns : List Turn} {i : Nat}
    (h : ∀ f ∈ fields, Scattered x kind ps f) :
    (ofKind kind (memberFindings x declared path (holders part ps) fields)).Perm
      (ofKind kind (fields.flatMap fun f => (holders part ps).flatMap
          (presence x declared f (FieldPath.join path f.name))) ++
        (stationsOfMembers turns path part declared i fields).flatMap fun o =>
          ofKind kind (o.findings x ps)) := by
  induction fields generalizing i with
  | nil => simp [memberFindings, stationsOfMembers]
  | cons f fields ih =>
    obtain ⟨hf, hfields⟩ := List.forall_mem_cons.mp h
    have hinside := hf (.member i :: turns) (FieldPath.join path f.name)
      fun s => (part s).bind (carrier? declared f)
    rw [memberFindings, holders_bind, ofKind_append, ofKind_append, stationsOfMembers,
      List.flatMap_append, List.flatMap_cons, ofKind_append, List.append_assoc, List.append_assoc]
    apply List.Perm.append_left
    apply (hinside.append (ih hfields)).trans
    exact List.perm_append_comm_assoc ..

theorem objectFindings_scattered (hkind : OfObjects kind) (h : ∀ f ∈ o.fields, Scattered x kind ps f) :
    (ofKind kind (objectFindings x o.fields o.path (holders o.part ps)
        (memberFindings x (o.fields.map (·.name)) o.path (holders o.part ps) o.fields))).Perm
      ((stationsFrom o).flatMap fun o => ofKind kind (o.findings x ps)) := by
  rw [hkind.objectFindings, stationsFrom, List.flatMap_cons, Station.findings, ofKind_append,
    List.append_assoc]
  exact (memberFindings_scattered h).append_left _

theorem scattered (hkind : OfObjects kind) (x : Exchange) (ps : List Participant) (f : FieldSchema) :
    Scattered x kind ps f := by
  induction f using FieldSchema.induction_inside with
  | step f members item =>
    intro turns path part
    rw [fieldFindings_split, ofKind_append, hkind.own, List.nil_append, insideFindings, stationsAt_eq]
    cases f.truncated with
    | true => simp
    | false =>
      cases f.type with
      | object =>
        simp only [holders_filter]
        exact objectFindings_scattered (o := ⟨turns, path, f.children, _⟩) hkind members
      | array =>
        simp only [holders_bind]
        cases hitems : f.items with
        | none => simp [itemFindings, stationsOfItems]
        | some i => exact item i hitems _ _ _
      | _ => simp

theorem payloadFindings_scattered (hkind : OfObjects kind) (x : Exchange) (fields : Payload)
    (ps : List Participant) : (ofKind kind (payloadFindings x fields ps)).Perm
      ((stations fields).flatMap fun o => ofKind kind (o.findings x ps)) := by
  have hscattered := objectFindings_scattered (o := ⟨[], "", fields, some⟩) hkind
    fun f _ => scattered hkind x ps f
  rwa [holders_some, ← payloadFindings_eq] at hscattered

end Walk

/-- The binding as a participant at an object, if its shape reaches the object. -/
def Station.holder? (o : Station) (payload : PayloadKind) (b : Binding) : Option Participant :=
  ((b.shape? payload).bind o.part).map (⟨b, b.supplies payload, ·⟩)

section Holders

variable {o : Station} {payload : PayloadKind} {bindings : List Binding}

theorem holder?_eq_some_iff {b : Binding} {p : Participant} : o.holder? payload b = some p ↔
    ∃ whole s, b.shape? payload = some whole ∧ o.part whole = some s ∧
      p = ⟨b, b.supplies payload, s⟩ := by
  simp only [Station.holder?, Option.map_eq_some_iff, Option.bind_eq_some_iff]
  grind

theorem holders_participants :
    holders o.part (participants payload bindings) = bindings.filterMap (o.holder? payload) := by
  rw [holders, participants, List.filterMap_filterMap]
  congr 1
  funext b
  unfold Station.holder?
  cases b.shape? payload <;> rfl

end Holders

end Concord.Comparison
