import Concord.Proofs.Acceptance

/-! The tree that is built for a field is the unfolding of the document. It has a node for each
entry of the fields of an object, those of the type that the object refers to included, and it is
cut off only at the depth of expansion and at a type inside itself, where the node is marked. -/
namespace Concord

variable {docs : List (String × FieldDoc)} {fields : List FieldSchema}

namespace FieldDoc

@[irreducible]
def refersTo? (d : FieldDoc) : Option String :=
  if FieldType.ofName? d.type = some .object then d.ref else none

/-- The entries of an object: of its own fields, or of the fields of the type that it refers to. -/
def entries (types : List (String × FieldDoc)) (d : FieldDoc) : List (String × FieldDoc) :=
  match d.ref with
  | some name => ((types.lookup name).bind (·.fields)).getD []
  | none => d.fields.getD []

/-- Whether the document says what is inside a field. -/
@[irreducible]
def opens (d : FieldDoc) : Bool :=
  match FieldType.ofName? d.type with
  | some .object => d.ref.isSome || d.fields.isSome
  | some .array => d.items.isSome
  | _ => false

theorem entries_of_lookup {types : List (String × FieldDoc)} {d target : FieldDoc} {name : String}
    (href : d.ref = some name) (hlookup : types.lookup name = some target) :
    d.entries types = target.fields.getD [] := by
  simp [entries, href, hlookup]

end FieldDoc

/-- How a field comes from what it is without anything inside, `s`: nothing is said to be inside, or
it is cut off, or it has the members or the item that the document gives. What is cut off is marked,
so the members are never left out by the guard of `buildChildren`. -/
inductive BuildStep (types : List (String × FieldDoc)) (inner? : Option FieldBuilder)
    (visiting : List String) (path : String) (d : FieldDoc) (s : FieldSchema) : FieldSchema → Prop
  | plain (hopens : d.opens = false) : BuildStep types inner? visiting path d s s
  | cut (hopens : d.opens = true) (hcut : inner? = none ∨ ∃ name ∈ d.refersTo?, name ∈ visiting) :
      BuildStep types inner? visiting path d s { s with ref := d.refersTo?, truncated := true }
  | members {inner : FieldBuilder} {children : List FieldSchema} (htype : s.type = .object)
      (hinner : inner? = some inner) (hopens : d.opens = true)
      (hfresh : ∀ name ∈ d.refersTo?, name ∉ visiting)
      (hchildren : buildMembers inner (d.refersTo?.toList ++ visiting) path (d.entries types) =
        .ok children) :
      BuildStep types inner? visiting path d s { s with ref := d.refersTo?, children }
  | item {inner : FieldBuilder} {doc : FieldDoc} {item : FieldSchema} (htype : s.type = .array)
      (hinner : inner? = some inner) (hopens : d.opens = true) (hdoc : d.items = some doc)
      (hitem : inner visiting (path ++ "[]") "[]" doc = .ok item) :
      BuildStep types inner? visiting path d s { s with items := some item }

theorem buildStep_of_buildAround {types : List (String × FieldDoc)} {inner? : Option FieldBuilder}
    {visiting : List String} {path name : String} {d : FieldDoc} {f : FieldSchema}
    (h : buildAround types inner? visiting path name d = .ok f) :
    ∃ s, buildScalar path name d = .ok s ∧ BuildStep types inner? visiting path d s f := by
  obtain ⟨s, hs, hrest⟩ := bind_eq_ok h
  have hkind := buildScalar_type hs
  have hbare := (buildScalar_uncut hs).1
  refine ⟨s, hs, ?_⟩
  split at hrest
  · next htype =>
    rw [htype] at hkind
    split at hrest
    · next ref href =>
      have hrefers : d.refersTo? = some ref := by simp [FieldDoc.refersTo?, hkind, href]
      have hopens : d.opens = true := by simp [FieldDoc.opens, hkind, href]
      dsimp only at hrest
      split at hrest
      · exact absurd hrest throw_ne_ok
      · next target hlookup =>
        split at hrest
        · next hcut =>
          cases hrest
          rw [← hrefers]
          have hcut : ref ∈ visiting ∨ inner? = none := by simpa using hcut
          exact .cut hopens (hcut.symm.imp_right fun hvisiting => ⟨ref, hrefers, hvisiting⟩)
        · next huncut =>
          obtain ⟨hvisiting, inner, rfl⟩ : ref ∉ visiting ∧ ∃ inner, inner? = some inner := by
            simpa [Option.isSome_iff_exists, Option.ne_none_iff_exists'] using huncut
          obtain ⟨children, hchildren, hrest⟩ := bind_eq_ok hrest
          cases hrest
          rw [← hrefers]
          refine .members htype rfl hopens (by simpa [hrefers] using hvisiting) ?_
          rw [hrefers, FieldDoc.entries_of_lookup href hlookup]
          rw [buildChildren_some] at hchildren
          exact hchildren
    · next href =>
      have hrefers : d.refersTo? = none := by simp [FieldDoc.refersTo?, href]
      split at hrest
      · next hcut =>
        cases hrest
        obtain ⟨hfields, hnone⟩ : d.fields.isSome = true ∧ inner? = none := by simpa using hcut
        rw [hbare, ← hrefers]
        exact .cut (by simp [FieldDoc.opens, hkind, hfields]) (.inl hnone)
      · next huncut =>
        obtain ⟨children, hchildren, hrest⟩ := bind_eq_ok hrest
        cases hrest
        cases hfields : d.fields with
        | none =>
          rw [hfields, buildChildren_no_fields] at hchildren
          obtain rfl := Except.ok.inj hchildren
          have hsame : { s with children := [] } = s := by
            obtain ⟨_, _, -, -, rfl⟩ := buildScalar_cases hs
            rfl
          rw [hsame]
          exact .plain (by simp [FieldDoc.opens, hkind, href, hfields])
        | some fields =>
          obtain ⟨inner, rfl⟩ : ∃ inner, inner? = some inner := by
            simpa [hfields, Option.ne_none_iff_exists'] using huncut
          rw [hfields, buildChildren_some] at hchildren
          rw [hbare, ← hrefers]
          refine .members htype rfl (by simp [FieldDoc.opens, hkind, hfields]) (by simp [hrefers]) ?_
          simpa [hrefers, FieldDoc.entries, href, hfields] using hchildren
  · next htype =>
    rw [htype] at hkind
    have hrefers : d.refersTo? = none := by simp [FieldDoc.refersTo?, hkind]
    split at hrest
    · next hitems =>
      cases hrest
      exact .plain (by simp [FieldDoc.opens, hkind, hitems])
    · next doc hitems =>
      cases hrest
      rw [hbare, ← hrefers]
      exact .cut (by simp [FieldDoc.opens, hkind, hitems]) (.inl rfl)
    · next doc inner hitems =>
      obtain ⟨item, hitem, hrest⟩ := bind_eq_ok hrest
      cases hrest
      exact .item htype rfl (by simp [FieldDoc.opens, hkind, hitems]) hitems hitem
  · next hobject harray =>
    cases hrest
    have hopens : d.opens = false := by
      unfold FieldDoc.opens
      rw [hkind]
      split <;> simp_all
    exact .plain hopens

namespace FieldSchema

/-- A node of a tree, with the nodes on the way to it from the root, the nearest first. -/
inductive Holds (tree : FieldSchema) : (above : List FieldSchema) → FieldSchema → Prop
  | root : Holds tree [] tree
  | member {above : List FieldSchema} {f c : FieldSchema} (hf : Holds tree above f)
      (hc : c ∈ f.children) : Holds tree (f :: above) c
  | item {above : List FieldSchema} {f i : FieldSchema} (hf : Holds tree above f)
      (hi : i ∈ f.items) : Holds tree (f :: above) i

/-- A node of a tree, with the field of the document that it stands for: the members of a node stand
for the entries of its field, in their order. -/
inductive StandsFor (types : List (String × FieldDoc)) (root : FieldDoc) (tree : FieldSchema) :
    (above : List FieldSchema) → FieldSchema → FieldDoc → Prop
  | root : StandsFor types root tree [] tree root
  | member {above : List FieldSchema} {f c : FieldSchema} {d : FieldDoc} {e : String × FieldDoc}
      (hf : StandsFor types root tree above f d) (he : (e, c) ∈ (d.entries types).zip f.children) :
      StandsFor types root tree (f :: above) c e.2
  | item {above : List FieldSchema} {f i : FieldSchema} {d doc : FieldDoc}
      (hf : StandsFor types root tree above f d) (hdoc : doc ∈ d.items) (hi : i ∈ f.items) :
      StandsFor types root tree (f :: above) i doc

def refs (above : List FieldSchema) : List String := above.filterMap (·.ref)

theorem refs_cons (f : FieldSchema) (above : List FieldSchema) :
    refs (f :: above) = f.ref.toList ++ refs above := by
  cases h : f.ref <;> simp [refs, h]

/-- A node agrees with its field of the document. It is cut off if it refers to a type that is
referred to on the way to it, and at the depth `limit` if something is said to be inside it; then
nothing is inside it. Otherwise all that the document gives is inside it, and nothing else. -/
structure ExactAt (types : List (String × FieldDoc)) (limit : Nat) (above : List FieldSchema)
    (f : FieldSchema) (d : FieldDoc) : Prop where
  type : FieldType.ofName? d.type = some f.type
  ref : f.ref = d.refersTo?
  truncated : f.truncated = true ↔
    (∃ name, f.type = .object ∧ d.ref = some name ∧ (name ∈ refs above ∨ above.length = limit)) ∨
    (f.type = .object ∧ d.ref = none ∧ d.fields.isSome = true ∧ above.length = limit) ∨
    (f.type = .array ∧ d.items.isSome = true ∧ above.length = limit)
  empty : f.truncated = true → f.children = [] ∧ f.items = none
  members : f.truncated = false → f.type = .object →
    f.children.map (·.name) = (d.entries types).map (·.1)
  item : f.truncated = false → f.type = .array → f.items.isSome = d.items.isSome
  only_members : f.type ≠ .object → f.children = []
  only_item : f.type ≠ .array → f.items = none

/-- A tree is the unfolding of a field of the document down to the depth `limit`. -/
structure Unfolds (types : List (String × FieldDoc)) (limit : Nat) (root : FieldDoc)
    (tree : FieldSchema) : Prop where
  depth : ∀ above f, tree.Holds above f → above.length ≤ limit
  total : ∀ above f, tree.Holds above f → ∃ d, tree.StandsFor types root above f d
  exact : ∀ above f d, tree.StandsFor types root above f d → f.ExactAt types limit above d

end FieldSchema

section Built

variable {types : List (String × FieldDoc)} {visiting : List String}

/-- What builds the fields inside a field, where there are so many levels left. -/
def innerBuilder? (types : List (String × FieldDoc)) : (left : Nat) → Option FieldBuilder
  | 0 => none
  | left + 1 => some (buildField types left)

theorem buildField_eq (left : Nat) :
    buildField types left = buildAround types (innerBuilder? types left) := by
  cases left <;> rfl

theorem innerBuilder?_eq_none_iff {left : Nat} : innerBuilder? types left = none ↔ left = 0 := by
  cases left <;> simp [innerBuilder?]

theorem innerBuilder?_eq_some_iff {left : Nat} {inner : FieldBuilder} :
    innerBuilder? types left = some inner ↔ ∃ n, left = n + 1 ∧ inner = buildField types n := by
  cases left <;> simp [innerBuilder?, eq_comm]

theorem forall_mem_innerBuilder?_iff {left : Nat} {P : FieldBuilder → Prop} :
    (∀ inner ∈ innerBuilder? types left, P inner) ↔ ∀ n, left = n + 1 → P (buildField types n) := by
  cases left <;> simp [innerBuilder?]

theorem buildStep_of_buildField {left : Nat} {path name : String} {d : FieldDoc} {f : FieldSchema}
    (h : buildField types left visiting path name d = .ok f) :
    ∃ s, buildScalar path name d = .ok s ∧
      BuildStep types (innerBuilder? types left) visiting path d s f := by
  rw [buildField_eq] at h
  exact buildStep_of_buildAround h

/-- Members are built one by one from their entries. -/
theorem forall₂_of_buildMembers {inner : FieldBuilder} {path : String}
    (h : buildMembers inner visiting path docs = .ok fields) :
    List.Forall₂ (fun e f => inner visiting (path ++ "." ++ e.1) e.1 e.2 = .ok f) docs fields := by
  obtain ⟨_, -, h⟩ := bind_eq_ok h
  exact mapM_eq_ok h

theorem names_of_buildMembers {left : Nat} {path : String}
    (h : buildMembers (buildField types left) visiting path docs = .ok fields) :
    fields.map (·.name) = docs.map (·.1) := by
  symm
  rw [← List.forall₂_eq_eq_eq, List.forall₂_map_left_iff, List.forall₂_map_right_iff]
  exact (forall₂_of_buildMembers h).imp fun e f hf => (buildsApart_field types left hf).2.symm

/-- A member of a field that was built was built a level deeper, from its entry. -/
theorem built_member {left : Nat} {path name : String} {d : FieldDoc} {f c : FieldSchema}
    {e : String × FieldDoc} (h : buildField types left visiting path name d = .ok f)
    (he : (e, c) ∈ (d.entries types).zip f.children) :
    ∃ n, left = n + 1 ∧
      buildField types n (f.ref.toList ++ visiting) (path ++ "." ++ e.1) e.1 e.2 = .ok c := by
  obtain ⟨s, hs, hstep⟩ := buildStep_of_buildField h
  obtain ⟨-, hnone, -⟩ := buildScalar_eq_ok hs
  cases hstep with
  | members hobject hinner hopens hfresh hmembers =>
    obtain ⟨n, rfl, rfl⟩ := innerBuilder?_eq_some_iff.mp hinner
    exact ⟨n, rfl, (List.forall₂_iff_zip.mp (forall₂_of_buildMembers hmembers)).2 he⟩
  | _ => simp [hnone] at he

/-- The item of a field that was built was built a level deeper. -/
theorem built_item {left : Nat} {path name : String} {d doc : FieldDoc} {f i : FieldSchema}
    (h : buildField types left visiting path name d = .ok f) (hdoc : doc ∈ d.items) (hi : i ∈ f.items) :
    ∃ n, left = n + 1 ∧
      buildField types n (f.ref.toList ++ visiting) (path ++ "[]") "[]" doc = .ok i := by
  obtain ⟨s, hs, hstep⟩ := buildStep_of_buildField h
  obtain ⟨-, -, hnone⟩ := buildScalar_eq_ok hs
  cases hstep with
  | item harray hinner hopens hdoc' hitem =>
    obtain ⟨n, rfl, rfl⟩ := innerBuilder?_eq_some_iff.mp hinner
    obtain rfl := Option.some.inj (hdoc'.symm.trans hdoc)
    obtain rfl := Option.some.inj hi
    rw [(buildScalar_uncut hs).1]
    exact ⟨n, rfl, hitem⟩
  | _ => simp [hnone] at hi

end Built

namespace FieldDoc

variable {types : List (String × FieldDoc)} {d : FieldDoc}

theorem refersTo?_eq_some_iff {name : String} :
    d.refersTo? = some name ↔ FieldType.ofName? d.type = some .object ∧ d.ref = some name := by
  simp [refersTo?]

theorem refersTo?_of_closed (h : d.opens = false) : d.refersTo? = none := by
  unfold opens at h
  unfold refersTo?
  split
  · next htype => simp_all
  · rfl

theorem entries_of_closed (h : d.opens = false) (htype : FieldType.ofName? d.type = some .object) :
    d.entries types = [] := by
  simp_all [opens, entries]

theorem cut_iff {type : FieldType} (htype : FieldType.ofName? d.type = some type)
    (visiting : List String) (atLimit : Prop) :
    (d.opens = true ∧ (atLimit ∨ ∃ name ∈ d.refersTo?, name ∈ visiting)) ↔
      (∃ name, type = .object ∧ d.ref = some name ∧ (name ∈ visiting ∨ atLimit)) ∨
      (type = .object ∧ d.ref = none ∧ d.fields.isSome = true ∧ atLimit) ∨
      (type = .array ∧ d.items.isSome = true ∧ atLimit) := by
  unfold opens refersTo?
  rw [htype]
  cases type with
  | object => cases d.ref <;> simp [or_comm]
  | array => simp
  | _ => simp

end FieldDoc

namespace FieldSchema

variable {types : List (String × FieldDoc)} {limit : Nat} {above : List FieldSchema}
  {name path : String}

theorem exactAt_of_step {left limit : Nat} {d : FieldDoc} {s f : FieldSchema}
    (hs : buildScalar path name d = .ok s)
    (hstep : BuildStep types (innerBuilder? types left) (refs above) path d s f)
    (hleft : above.length + left = limit) : f.ExactAt types limit above d := by
  have htype := buildScalar_type hs
  obtain ⟨-, hchildren, hitems⟩ := buildScalar_eq_ok hs
  obtain ⟨href, huncut⟩ := buildScalar_uncut hs
  have hlimit : above.length = limit ↔ innerBuilder? types left = none := by
    rw [innerBuilder?_eq_none_iff]
    omega
  cases hstep with
  | plain hopens =>
    refine ⟨htype, by rw [href, FieldDoc.refersTo?_of_closed hopens], ?_, by simp [huncut],
      fun _ hobject => ?_, fun _ harray => ?_, fun _ => hchildren, fun _ => hitems⟩
    · rw [← FieldDoc.cut_iff htype]
      simp [huncut, hopens]
    · rw [hobject] at htype
      simp [hchildren, FieldDoc.entries_of_closed hopens htype]
    · rw [harray] at htype
      simp_all [FieldDoc.opens]
  | cut hopens hcut =>
    refine ⟨htype, rfl, ?_, fun _ => ⟨hchildren, hitems⟩, by simp, by simp, fun _ => hchildren,
      fun _ => hitems⟩
    rw [← FieldDoc.cut_iff htype, hlimit]
    exact iff_of_true rfl ⟨hopens, hcut⟩
  | members hobject hinner hopens hfresh hmembers =>
    obtain ⟨n, -, rfl⟩ := innerBuilder?_eq_some_iff.mp hinner
    refine ⟨htype, rfl, ?_, by simp [huncut], fun _ _ => names_of_buildMembers hmembers, ?_, ?_,
      fun _ => hitems⟩
    · rw [← FieldDoc.cut_iff htype, hlimit, hinner]
      simp_all
    · simp [hobject]
    · simp [hobject]
  | item harray hinner hopens hdoc hitem =>
    refine ⟨htype, ?_, ?_, by simp [huncut], ?_, by simp [hdoc], fun _ => hchildren, ?_⟩
    · simp [href, FieldDoc.refersTo?, htype, harray]
    · rw [← FieldDoc.cut_iff htype, hlimit, hinner]
      simp [huncut, FieldDoc.refersTo?, htype, harray]
    · simp [harray]
    · simp [harray]

/-- Each node of a tree was built at its own place, from the field that it stands for. -/
theorem StandsFor.built {root d : FieldDoc} {tree f : FieldSchema}
    (hf : tree.StandsFor types root above f d)
    (h : buildField types limit [] path name root = .ok tree) :
    ∃ left path name, above.length + left = limit ∧
      buildField types left (refs above) path name d = .ok f := by
  induction hf with
  | root => exact ⟨limit, path, name, Nat.zero_add limit, h⟩
  | member hf he ih =>
    obtain ⟨left, path, name, hleft, hbuilt⟩ := ih
    obtain ⟨n, rfl, hc⟩ := built_member hbuilt he
    rw [← refs_cons] at hc
    exact ⟨n, _, _, by rw [List.length_cons]; omega, hc⟩
  | item hf hdoc hi ih =>
    obtain ⟨left, path, name, hleft, hbuilt⟩ := ih
    obtain ⟨n, rfl, hi⟩ := built_item hbuilt hdoc hi
    rw [← refs_cons] at hi
    exact ⟨n, _, _, by rw [List.length_cons]; omega, hi⟩

theorem StandsFor.exactAt {root d : FieldDoc} {tree f : FieldSchema}
    (hf : tree.StandsFor types root above f d)
    (h : buildField types limit [] path name root = .ok tree) : f.ExactAt types limit above d := by
  obtain ⟨left, path, name, hleft, hbuilt⟩ := hf.built h
  obtain ⟨s, hs, hstep⟩ := buildStep_of_buildField hbuilt
  exact exactAt_of_step hs hstep hleft

theorem ExactAt.exists_entry {f c : FieldSchema} {d : FieldDoc} (h : f.ExactAt types limit above d)
    (hc : c ∈ f.children) : ∃ e, (e, c) ∈ (d.entries types).zip f.children := by
  have huncut : f.truncated = false := by
    by_contra hcut
    simp [(h.empty (by simpa using hcut)).1] at hc
  have hobject : f.type = .object := by
    by_contra htype
    simp [h.only_members htype] at hc
  have hlength : f.children.length ≤ (d.entries types).length := by
    simpa using Nat.le_of_eq (congrArg List.length (h.members huncut hobject))
  rw [← List.map_snd_zip hlength] at hc
  obtain ⟨⟨e, c⟩, he, rfl⟩ := List.mem_map.mp hc
  exact ⟨e, he⟩

theorem ExactAt.exists_doc {f i : FieldSchema} {d : FieldDoc} (h : f.ExactAt types limit above d)
    (hi : i ∈ f.items) : ∃ doc, doc ∈ d.items := by
  have huncut : f.truncated = false := by
    by_contra hcut
    simp [(h.empty (by simpa using hcut)).2] at hi
  have harray : f.type = .array := by
    by_contra htype
    simp [h.only_item htype] at hi
  have hsome := h.item huncut harray
  rw [hi] at hsome
  exact Option.isSome_iff_exists.mp hsome.symm

/-- Every tree that is built is the unfolding of its field. -/
theorem unfolds_of_buildField {root : FieldDoc} {tree : FieldSchema}
    (h : buildField types limit [] path name root = .ok tree) : tree.Unfolds types limit root := by
  have htotal (above : List FieldSchema) (f : FieldSchema) (hf : tree.Holds above f) :
      ∃ d, tree.StandsFor types root above f d := by
    induction hf with
    | root => exact ⟨root, .root⟩
    | member _ hc ih =>
      obtain ⟨d, hd⟩ := ih
      obtain ⟨e, he⟩ := (hd.exactAt h).exists_entry hc
      exact ⟨e.2, .member hd he⟩
    | item _ hi ih =>
      obtain ⟨d, hd⟩ := ih
      obtain ⟨doc, hdoc⟩ := (hd.exactAt h).exists_doc hi
      exact ⟨doc, .item hd hdoc hi⟩
  refine ⟨fun above f hf => ?_, htotal, fun above f d hf => hf.exactAt h⟩
  obtain ⟨d, hd⟩ := htotal above f hf
  obtain ⟨left, path, name, hleft, -⟩ := hd.built h
  omega

end FieldSchema

def UnfoldsAll (types : List (String × FieldDoc)) (limit : Nat) (p : PayloadDoc) (fields : Payload) :
    Prop :=
  List.Forall₂ (fun e f => f.name = e.1 ∧ f.Unfolds types limit e.2) p fields

theorem unfoldsAll_of_payload {x : Expansion} {scope : String} {p : PayloadDoc} {fields : Payload}
    (h : x.payload scope p = .ok fields) : UnfoldsAll x.types x.maxDepth p fields := by
  obtain ⟨_, -, h⟩ := bind_eq_ok h
  refine (mapM_eq_ok h).imp fun e f hf => ⟨?_, FieldSchema.unfolds_of_buildField hf⟩
  exact (buildsApart_field x.types x.maxDepth hf).2

/-- The payloads of an endpoint are unfoldings of those that the document gives for it. -/
structure Endpoint.Unfolds (types : List (String × FieldDoc)) (limit : Nat) (d : EndpointDoc)
    (e : Endpoint) : Prop where
  has_request : e.request.isSome = d.request.isSome
  request : ∀ fields ∈ e.request, ∃ p ∈ d.request, UnfoldsAll types limit p fields
  responses : ∀ r ∈ e.responses, ∃ p, (d.response = some p ∨
    ∃ key, (key, p) ∈ d.responses ∧ responseCode key = r.1) ∧ UnfoldsAll types limit p r.2

theorem Endpoint.BuiltFrom.unfolds {x : Expansion} {d : EndpointDoc} {e : Endpoint}
    (h : e.BuiltFrom x d) : e.Unfolds x.types x.maxDepth d := by
  refine ⟨h.has_request, fun fields hfields => ?_, fun r hr => ?_⟩
  · obtain ⟨p, hp, scope, hbuilt⟩ := h.request fields hfields
    exact ⟨p, hp, unfoldsAll_of_payload hbuilt⟩
  · obtain ⟨p, hp, scope, hbuilt⟩ := h.responses r hr
    exact ⟨p, hp, unfoldsAll_of_payload hbuilt⟩

/-- An accepted document is unfolded into trees of fields down to the depth of expansion: the named
types, all payloads, and with them the payloads of the manifest. -/
theorem document_unfolded {text path : String} {maxDepth : Nat} {d : ManifestDoc} {m : Manifest}
    (hread : ManifestDoc.read? text = some d) (hdepth : 1 ≤ maxDepth)
    (h : Manifest.parse text path maxDepth = .ok m) :
    (∀ t ∈ d.types, ∃ tree, (d.expansion maxDepth).field ("types." ++ t.1) t.1 t.2 = .ok tree ∧
      tree.Unfolds d.types maxDepth t.2) ∧
    (∀ c ∈ d.contracts, ∀ e ∈ c.endpoints, ∀ p ∈ e.payloads, ∀ f ∈ p, ∃ tree,
      (d.expansion maxDepth).field f.1 f.1 f.2 = .ok tree ∧ tree.Unfolds d.types maxDepth f.2) ∧
    List.Forall₂ (fun cd c =>
      List.Forall₂ (fun ed e => e.Unfolds d.types maxDepth ed) cd.endpoints c.endpoints)
      d.contracts m.contracts := by
  have hmax : max maxDepth 1 = maxDepth := Nat.max_eq_left hdepth
  have hunfolds {place name : String} {root : FieldDoc} {tree : FieldSchema}
      (hfield : (d.expansion maxDepth).field place name root = .ok tree) :
      tree.Unfolds d.types maxDepth root := by
    simpa [ManifestDoc.expansion, hmax] using FieldSchema.unfolds_of_buildField hfield
  rw [parse_eq_build hread] at h
  obtain ⟨-, htypes, hpayloads⟩ := ManifestDoc.build_ok_iff.mp ⟨m, h⟩
  refine ⟨fun t ht => ?_, fun c hc e he p hp f hf => ?_, ?_⟩
  · obtain ⟨tree, htree⟩ := htypes t ht
    exact ⟨tree, htree, hunfolds htree⟩
  · obtain ⟨tree, htree⟩ := hpayloads c hc e he p hp f hf
    exact ⟨tree, htree, hunfolds htree⟩
  · refine (builtFrom_of_build h).imp fun cd c hc => hc.imp fun ed e he => ?_
    simpa [ManifestDoc.expansion, hmax] using he.unfolds

/-- The trees of `threads`: the type goes on inside itself, and is cut off there. -/
theorem threads_unfolded :
    ∃ d m, ManifestDoc.read? (String.ofList threads) = some d ∧
      Manifest.parse (String.ofList threads) "m" 2 = .ok m ∧
      (∀ t ∈ d.types, ∃ tree, (d.expansion 2).field ("types." ++ t.1) t.1 t.2 = .ok tree ∧
        tree.Unfolds d.types 2 t.2) ∧
      (∀ c ∈ d.contracts, ∀ e ∈ c.endpoints, ∀ p ∈ e.payloads, ∀ f ∈ p, ∃ tree,
        (d.expansion 2).field f.1 f.1 f.2 = .ok tree ∧ tree.Unfolds d.types 2 f.2) ∧
      List.Forall₂ (fun cd c =>
        List.Forall₂ (fun ed e => e.Unfolds d.types 2 ed) cd.endpoints c.endpoints)
        d.contracts m.contracts := by
  obtain ⟨d, m, hread, hparse, -⟩ := threads_read
  exact ⟨d, m, hread, hparse, document_unfolded hread (by decide) hparse⟩

end Concord
