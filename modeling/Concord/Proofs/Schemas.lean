import Concord.Manifest.Build
import Concord.Proofs.Outcomes

/-! A manifest that is accepted names the members of an object apart, at every depth of every
payload. -/
namespace Concord

variable {name path text : String} {f : FieldSchema} {x : Expansion} {d : FieldDoc} {e : Endpoint}
  {fields : List FieldSchema} {docs : List (String × FieldDoc)} {rs : List (Nat × Payload)}
  {known names seen visiting : List String} {contract scope : String} {r : Nat × Payload}
  {maxDepth : Nat}

namespace FieldSchema

/-- What holds of a field as soon as it holds of all that is directly inside it holds of every
field. -/
theorem induction_inside {P : FieldSchema → Prop}
    (step : ∀ f : FieldSchema, (∀ c ∈ f.children, P c) → (∀ i ∈ f.items, P i) → P f)
    (f : FieldSchema) : P f :=
  @FieldSchema.rec P (fun fs => ∀ c ∈ fs, P c) (fun i? => ∀ i ∈ i?, P i)
    (fun _ _ _ _ _ _ _ _ _ _ _ hchildren hitems => step _ hchildren hitems)
    (fun _ hc => nomatch hc)
    (fun _ _ hf hfs => List.forall_mem_cons.mpr ⟨hf, hfs⟩)
    (fun _ hi => nomatch hi)
    (fun _ hf _ hi => Option.mem_some.mp hi ▸ hf)
    f

mutual

def every (p : FieldSchema → Bool) : FieldSchema → Bool
  | field@⟨_, _, _, _, _, _, _, children, items, _, _⟩ =>
    p field && everyMember p children && everyItem p items

def everyMember (p : FieldSchema → Bool) : List FieldSchema → Bool
  | [] => true
  | f :: rest => every p f && everyMember p rest

def everyItem (p : FieldSchema → Bool) : Option FieldSchema → Bool
  | none => true
  | some f => every p f

end

theorem everyMember_iff {p : FieldSchema → Bool} :
    everyMember p fields = true ↔ ∀ f ∈ fields, f.every p = true := by
  induction fields with
  | nil => simp [everyMember]
  | cons f rest ih => simp [everyMember, ih]

theorem every_iff {p : FieldSchema → Bool} :
    f.every p = true ↔ p f = true ∧ (∀ c ∈ f.children, c.every p = true) ∧
      ∀ i ∈ f.items, i.every p = true := by
  obtain ⟨name, type, format, unit, range, values, required, children, items, ref, truncated⟩ := f
  cases items with
  | none => simp [every, everyItem, everyMember_iff]
  | some i => simp [every, everyItem, everyMember_iff, and_assoc]

def distinctMembers (f : FieldSchema) : Bool := decide (f.children.map (·.name)).Nodup

end FieldSchema

/-- The fields of a payload have different names, and so have the members of each object in it. -/
structure DistinctNames (fields : Payload) : Prop where
  names : (fields.map (·.name)).Nodup
  inside : ∀ f ∈ fields, f.every FieldSchema.distinctMembers = true

theorem FieldSchema.every_distinctMembers_iff :
    f.every distinctMembers = true ↔
      DistinctNames f.children ∧ ∀ i ∈ f.items, i.every distinctMembers = true := by
  rw [every_iff, distinctMembers, decide_eq_true_iff]
  exact ⟨fun ⟨hnames, hinside, hitem⟩ => ⟨⟨hnames, hinside⟩, hitem⟩,
    fun ⟨h, hitem⟩ => ⟨h.names, h.inside, hitem⟩⟩

theorem DistinctNames.nil : DistinctNames [] := ⟨List.nodup_nil, by simp⟩

theorem firstRepeat?_eq_none (h : firstRepeat? seen names = none) :
    names.Nodup ∧ ∀ a ∈ names, a ∉ seen := by
  induction names generalizing seen with
  | nil => simp
  | cons a names ih =>
    rw [firstRepeat?] at h
    split at h
    · simp at h
    · next ha =>
      obtain ⟨hnodup, hfresh⟩ := ih h
      have hfirst : a ∉ names := fun hmem => hfresh a hmem List.mem_cons_self
      refine ⟨List.nodup_cons.mpr ⟨hfirst, hnodup⟩, fun b hb => ?_⟩
      rcases List.mem_cons.mp hb with rfl | hb
      · simpa using ha
      · exact fun hseen => hfresh b hb (List.mem_cons_of_mem _ hseen)

theorem nodup_of_checkNames {u : Unit} (h : checkNames scope names = .ok u) : names.Nodup := by
  unfold checkNames at h
  split at h
  · simp at h
  · next hnone => exact (firstRepeat?_eq_none hnone).1

theorem buildScalar_cases (h : buildScalar path name d = .ok f) :
    ∃ type range, FieldType.ofName? d.type = some type ∧
      d.range.mapM (buildRange path) = .ok range ∧
      f = {
        name
        type
        format := d.format
        unit := d.unit
        range
        enumValues := d.values.getD []
        required := d.required && !d.optional
        children := []
        items := none
        ref := none
        truncated := false } := by
  unfold buildScalar at h
  split at h
  · exact absurd h throw_ne_ok
  · next type htype =>
    split at h
    · exact absurd h throw_ne_ok
    · split at h
      · exact absurd h throw_ne_ok
      · split at h
        · exact absurd h throw_ne_ok
        · obtain ⟨range, hrange, h⟩ := bind_eq_ok h
          obtain rfl := Except.ok.inj h
          exact ⟨type, range, htype, hrange, rfl⟩

theorem buildScalar_eq_ok (h : buildScalar path name d = .ok f) :
    f.name = name ∧ f.children = [] ∧ f.items = none := by
  obtain ⟨type, range, -, -, rfl⟩ := buildScalar_cases h
  exact ⟨rfl, rfl, rfl⟩

theorem buildScalar_uncut (h : buildScalar path name d = .ok f) :
    f.ref = none ∧ f.truncated = false := by
  obtain ⟨type, range, -, -, rfl⟩ := buildScalar_cases h
  exact ⟨rfl, rfl⟩

theorem DistinctNames.of_built {fields : Payload} {build : String × FieldDoc → Checked FieldSchema}
    (hnames : (docs.map (·.1)).Nodup) (h : docs.mapM build = .ok fields)
    (hbuild : ∀ d f, build d = .ok f → f.every FieldSchema.distinctMembers = true ∧ f.name = d.1) :
    DistinctNames fields := by
  have hbuilt : List.Forall₂
      (fun f d => f.every FieldSchema.distinctMembers = true ∧ f.name = d.1) fields docs :=
    .flip ((mapM_eq_ok h).imp hbuild)
  obtain ⟨hinside, hsame⟩ := (List.forall₂_and_left _ _).mp hbuilt
  have hsame : fields.map (·.name) = docs.map (·.1) := by
    rw [← List.forall₂_eq_eq_eq, List.forall₂_map_left_iff, List.forall₂_map_right_iff]
    exact hsame
  exact ⟨hsame ▸ hnames, hinside⟩

/-- A way to build fields under their names, with the members of every object in them apart. -/
def BuildsApart (build : FieldBuilder) : Prop :=
  ∀ ⦃visiting path name d f⦄, build visiting path name d = .ok f →
    f.every FieldSchema.distinctMembers = true ∧ f.name = name

theorem buildMembers_eq_ok {inner : FieldBuilder} (hinner : BuildsApart inner)
    (h : buildMembers inner visiting path docs = .ok fields) : DistinctNames fields := by
  obtain ⟨_, hcheck, h⟩ := bind_eq_ok h
  exact .of_built (nodup_of_checkNames hcheck) h fun d f hf => hinner hf

theorem buildChildren_some (inner : FieldBuilder) (fields : Option (List (String × FieldDoc))) :
    buildChildren (some inner) visiting path fields =
      buildMembers inner visiting path (fields.getD []) := by
  cases fields <;> rfl

theorem buildChildren_no_fields (inner? : Option FieldBuilder) :
    buildChildren inner? visiting path none = .ok [] := rfl

/-- Where fields are cut off before, the guard of `buildChildren` is not reached: there is a builder
for them or there are none. -/
theorem buildChildren_of_uncut {inner? : Option FieldBuilder}
    {docs : Option (List (String × FieldDoc))} (huncut : inner? = none → docs = none)
    (h : buildChildren inner? visiting path docs = .ok fields) :
    docs = none ∧ fields = [] ∨
      ∃ inner ∈ inner?, buildMembers inner visiting path (docs.getD []) = .ok fields := by
  cases inner? with
  | some inner => exact .inr ⟨inner, rfl, by rwa [buildChildren_some] at h⟩
  | none =>
    obtain rfl := huncut rfl
    exact .inl ⟨rfl, (Except.ok.inj h).symm⟩

/-- What is inside a field that was built: nothing, members or an item. -/
theorem buildAround_eq_ok {types : List (String × FieldDoc)} {inner? : Option FieldBuilder}
    (h : buildAround types inner? visiting path name d = .ok f) :
    f.name = name ∧
      (f.children = [] ∧ f.items = none ∨
        (∃ inner ∈ inner?, ∃ visiting docs, buildMembers inner visiting path docs = .ok f.children) ∧
          f.items = none ∨
        f.children = [] ∧ ∃ inner ∈ inner?, ∃ doc item,
          inner visiting (path ++ "[]") "[]" doc = .ok item ∧ f.items = some item) := by
  obtain ⟨s, hs, hrest⟩ := bind_eq_ok h
  obtain ⟨hname, hchildren, hitems⟩ := buildScalar_eq_ok hs
  split at hrest
  · -- an object, expanded by reference or in place
    split at hrest
    · dsimp only at hrest
      split at hrest
      · exact absurd hrest throw_ne_ok
      · split at hrest
        · obtain rfl := Except.ok.inj hrest
          exact ⟨hname, .inl ⟨hchildren, hitems⟩⟩
        · next hcut =>
          obtain ⟨children, hbuilt, hrest⟩ := bind_eq_ok hrest
          obtain rfl := Except.ok.inj hrest
          rcases buildChildren_of_uncut (fun hnone => absurd (by simp [hnone]) hcut) hbuilt with
            ⟨-, rfl⟩ | ⟨inner, hinner, hmembers⟩
          · exact ⟨hname, .inl ⟨rfl, hitems⟩⟩
          · exact ⟨hname, .inr (.inl ⟨⟨inner, hinner, _, _, hmembers⟩, hitems⟩)⟩
    · split at hrest
      · obtain rfl := Except.ok.inj hrest
        exact ⟨hname, .inl ⟨hchildren, hitems⟩⟩
      · next hcut =>
        obtain ⟨children, hbuilt, hrest⟩ := bind_eq_ok hrest
        obtain rfl := Except.ok.inj hrest
        rcases buildChildren_of_uncut (fun hnone => by simpa [hnone] using hcut) hbuilt with
          ⟨-, rfl⟩ | ⟨inner, hinner, hmembers⟩
        · exact ⟨hname, .inl ⟨rfl, hitems⟩⟩
        · exact ⟨hname, .inr (.inl ⟨⟨inner, hinner, _, _, hmembers⟩, hitems⟩)⟩
  · -- an array
    split at hrest
    · obtain rfl := Except.ok.inj hrest
      exact ⟨hname, .inl ⟨hchildren, hitems⟩⟩
    · obtain rfl := Except.ok.inj hrest
      exact ⟨hname, .inl ⟨hchildren, hitems⟩⟩
    · next inner _ =>
      obtain ⟨item, hitem, hrest⟩ := bind_eq_ok hrest
      obtain rfl := Except.ok.inj hrest
      exact ⟨hname, .inr (.inr ⟨hchildren, inner, rfl, _, item, hitem, rfl⟩)⟩
  · obtain rfl := Except.ok.inj hrest
    exact ⟨hname, .inl ⟨hchildren, hitems⟩⟩

theorem buildsApart_around (types : List (String × FieldDoc)) {inner? : Option FieldBuilder}
    (hinner : ∀ inner ∈ inner?, BuildsApart inner) : BuildsApart (buildAround types inner?) := by
  intro visiting path name d f h
  obtain ⟨hname, hinside⟩ := buildAround_eq_ok h
  refine ⟨FieldSchema.every_distinctMembers_iff.mpr ?_, hname⟩
  rcases hinside with ⟨hchildren, hitems⟩ | ⟨⟨inner, hmem, _, _, hmembers⟩, hitems⟩ |
    ⟨hchildren, inner, hmem, _, item, hitem, hitems⟩
  · rw [hchildren, hitems]
    exact ⟨.nil, by simp⟩
  · rw [hitems]
    exact ⟨buildMembers_eq_ok (hinner inner hmem) hmembers, by simp⟩
  · rw [hchildren, hitems]
    exact ⟨.nil, by simpa using (hinner inner hmem hitem).1⟩

theorem buildsApart_field (types : List (String × FieldDoc)) (left : Nat) :
    BuildsApart (buildField types left) := by
  induction left with
  | zero => exact buildsApart_around types (by simp)
  | succ left ih => exact buildsApart_around types (by simpa using ih)

theorem payload_eq_ok {p : PayloadDoc} {fields : Payload} (h : x.payload scope p = .ok fields) :
    DistinctNames fields := by
  obtain ⟨_, hcheck, h⟩ := bind_eq_ok h
  exact .of_built (nodup_of_checkNames hcheck) h fun d f hf => buildsApart_field _ _ hf

theorem mem_insertResponse {code : Nat} {p : Payload} (h : r ∈ insertResponse code p rs) :
    r = (code, p) ∨ r ∈ rs := by
  induction rs with
  | nil => simpa [insertResponse] using h
  | cons a rs ih =>
    rw [insertResponse] at h
    split at h
    · simpa using h
    · split at h
      · rcases List.mem_cons.mp h with h | h
        · exact .inl h
        · exact .inr (List.mem_cons_of_mem _ h)
      · rcases List.mem_cons.mp h with h | h
        · exact .inr (h ▸ List.mem_cons_self)
        · exact (ih h).imp id (List.mem_cons_of_mem _)

theorem mem_insertResponses {p : Payload} {codes : List Nat}
    (h : r ∈ codes.foldl (fun rs c => insertResponse c p rs) rs) : r.2 = p ∨ r ∈ rs := by
  induction codes generalizing rs with
  | nil => exact .inr h
  | cons code codes ih =>
    rcases ih h with h | h
    · exact .inl h
    · exact (mem_insertResponse h).imp (congrArg Prod.snd) id

theorem statusCode_eq_ok {contract endpoint : String} {code : Int} {n : Nat}
    (h : statusCode contract endpoint code = .ok n) : code = n := by
  unfold statusCode at h
  split at h
  · next hcode =>
    obtain rfl := Except.ok.inj h
    have : 100 ≤ code ∧ code ≤ 599 := by simpa using hcode
    omega
  · simp at h

/-- The payloads of an endpoint are built from those of the document: the request from the request,
and a response from the one that is given for all codes or from one that is given for its code. -/
structure Endpoint.BuiltFrom (x : Expansion) (d : EndpointDoc) (e : Endpoint) : Prop where
  has_request : e.request.isSome = d.request.isSome
  request : ∀ fields ∈ e.request, ∃ p ∈ d.request, ∃ scope, x.payload scope p = .ok fields
  responses : ∀ r ∈ e.responses, ∃ p, (d.response = some p ∨
    ∃ key, (key, p) ∈ d.responses ∧ responseCode key = r.1) ∧ ∃ scope, x.payload scope p = .ok r.2

theorem buildEndpoint_eq_ok {d : EndpointDoc} (h : buildEndpoint x contract d = .ok e) :
    e.BuiltFrom x d := by
  unfold buildEndpoint at h
  dsimp only at h
  split at h
  · exact absurd h throw_ne_ok
  · obtain ⟨statusCodes, -, h⟩ := bind_eq_ok h
    obtain ⟨request, hrequest, h⟩ := bind_eq_ok h
    obtain ⟨response, hresponse, h⟩ := bind_eq_ok h
    obtain ⟨responses, hresponses, h⟩ := bind_eq_ok h
    obtain rfl := Except.ok.inj h
    obtain ⟨hsome, hrequest⟩ := option_mapM_eq_ok hrequest
    refine ⟨hsome, fun fields hfields => ?_, ?_⟩
    · obtain ⟨p, hp, hbuilt⟩ := hrequest fields hfields
      exact ⟨p, hp, _, hbuilt⟩
    · refine foldlM_invariant (P := fun rs => ∀ r ∈ rs, ∃ p, (d.response = some p ∨
        ∃ key, (key, p) ∈ d.responses ∧ responseCode key = r.1) ∧
          ∃ scope, x.payload scope p = .ok r.2) ?_ ?_ hresponses
      · rintro rs ⟨key, body⟩ hbody rs' hrs hstep r hr
        obtain ⟨code, hcode, hstep⟩ := bind_eq_ok hstep
        obtain ⟨fields, hfields, hstep⟩ := bind_eq_ok hstep
        obtain rfl := Except.ok.inj hstep
        rcases mem_insertResponse hr with rfl | hr
        · exact ⟨body, .inr ⟨key, hbody, statusCode_eq_ok hcode⟩, _, hfields⟩
        · exact hrs r hr
      · intro r hr
        cases response with
        | none => simp at hr
        | some fields =>
          obtain ⟨p, hp, hbuilt⟩ := (option_mapM_eq_ok hresponse).2 fields rfl
          rcases mem_insertResponses hr with hr | hr
          · exact ⟨p, .inl hp, _, hr ▸ hbuilt⟩
          · simp at hr

theorem buildEndpoints_eq_ok {docs : List EndpointDoc} {endpoints : List Endpoint}
    (h : buildEndpoints x contract seen docs = .ok endpoints) :
    List.Forall₂ (fun d e => e.BuiltFrom x d) docs endpoints := by
  induction docs generalizing seen endpoints with
  | nil =>
    obtain rfl : [] = endpoints := Except.ok.inj h
    exact .nil
  | cons d docs ih =>
    obtain ⟨e, he, h⟩ := bind_eq_ok h
    split at h
    · exact absurd h throw_ne_ok
    · obtain ⟨rest, hrest, h⟩ := bind_eq_ok h
      obtain rfl := Except.ok.inj h
      exact .cons (buildEndpoint_eq_ok he) (ih hrest)

theorem buildContract_eq_ok {d : ContractDoc} {c : Contract} (h : buildContract x known d = .ok c) :
    List.Forall₂ (fun d e => e.BuiltFrom x d) d.endpoints c.endpoints := by
  unfold buildContract at h
  split at h
  · exact absurd h throw_ne_ok
  · obtain ⟨direction, -, h⟩ := bind_eq_ok h
    obtain ⟨verification, -, h⟩ := bind_eq_ok h
    obtain ⟨endpoints, hendpoints, h⟩ := bind_eq_ok h
    obtain rfl := Except.ok.inj h
    exact buildEndpoints_eq_ok hendpoints

theorem buildContracts_eq_ok {docs : List ContractDoc} {contracts : List Contract}
    (h : buildContracts x known seen docs = .ok contracts) :
    List.Forall₂ (fun d c => List.Forall₂ (fun d e => e.BuiltFrom x d) d.endpoints c.endpoints) docs
      contracts := by
  induction docs generalizing seen contracts with
  | nil =>
    obtain rfl : [] = contracts := Except.ok.inj h
    exact .nil
  | cons d docs ih =>
    rw [buildContracts] at h
    split at h
    · exact absurd h throw_ne_ok
    · obtain ⟨c, hc, h⟩ := bind_eq_ok h
      obtain ⟨rest, hrest, h⟩ := bind_eq_ok h
      obtain rfl := Except.ok.inj h
      exact .cons (buildContract_eq_ok hc) (ih hrest)

def ManifestDoc.expansion (d : ManifestDoc) (maxDepth : Nat) : Expansion := ⟨d.types, max maxDepth 1⟩

/-- The payloads of a manifest are built from those of its document. -/
theorem builtFrom_of_build {d : ManifestDoc} {m : Manifest} (h : d.build maxDepth path text = .ok m) :
    List.Forall₂ (fun cd c =>
      List.Forall₂ (fun ed e => e.BuiltFrom (d.expansion maxDepth) ed) cd.endpoints c.endpoints)
      d.contracts m.contracts := by
  obtain ⟨services, -, h⟩ := bind_eq_ok h
  obtain ⟨_, -, h⟩ := bind_eq_ok h
  obtain ⟨_, -, h⟩ := bind_eq_ok h
  obtain ⟨contracts, hcontracts, h⟩ := bind_eq_ok h
  obtain ⟨conventions, -, h⟩ := bind_eq_ok h
  obtain rfl := Except.ok.inj h
  exact buildContracts_eq_ok hcontracts

/-- The names in the request and in every response of an endpoint are apart. -/
structure Endpoint.NamesApart (e : Endpoint) : Prop where
  request : ∀ fields ∈ e.request, DistinctNames fields
  responses : ∀ r ∈ e.responses, DistinctNames r.2

theorem Endpoint.NamesApart.success (h : e.NamesApart) :
    ∀ fields ∈ e.success?, DistinctNames fields := by
  intro fields hfields
  obtain ⟨r, hr, rfl⟩ := Option.map_eq_some_iff.mp hfields
  exact h.responses r (List.mem_of_find?_eq_some hr)

theorem Endpoint.BuiltFrom.namesApart {d : EndpointDoc} (h : e.BuiltFrom x d) : e.NamesApart := by
  refine ⟨fun fields hfields => ?_, fun r hr => ?_⟩
  · obtain ⟨p, -, scope, hp⟩ := h.request fields hfields
    exact payload_eq_ok hp
  · obtain ⟨p, -, scope, hp⟩ := h.responses r hr
    exact payload_eq_ok hp

theorem parse_eq_build {d : ManifestDoc} (hread : ManifestDoc.read? text = some d) (path : String)
    (maxDepth : Nat) : Manifest.parse text path maxDepth = d.build maxDepth path text := by
  rw [Manifest.parse, hread]

/-- An accepted manifest names the fields of every payload apart. -/
theorem namesApart_of_parse {manifest : Manifest}
    (h : Manifest.parse text path maxDepth = .ok manifest) {contract : Contract}
    (hcontract : contract ∈ manifest.contracts) : ∀ e ∈ contract.endpoints, e.NamesApart := by
  cases hread : ManifestDoc.read? text with
  | none =>
    rw [Manifest.parse, hread] at h
    cases h
  | some d =>
    rw [parse_eq_build hread] at h
    have hendpoints := forall_right_of_forall₂ (builtFrom_of_build h)
      fun _ c hc => forall_right_of_forall₂ hc fun _ e he => he.namesApart
    exact hendpoints contract hcontract

end Concord
