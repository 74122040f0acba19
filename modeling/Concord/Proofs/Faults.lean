import Concord.Proofs.MistakenUnits
import Concord.Proofs.OmittedFields

/-! Code that mirrors an endpoint, but for one fault, is told of that fault and of nothing else: of
a required field that the supplier omits, and of a unit that a reader takes for another. -/
namespace Concord

variable {s : Shape} {supplier : Binding}

def Binding.reshape (payload : PayloadKind) (g : Shape → Shape) (b : Binding) : Binding :=
  match payload with
  | .request => { b with request := b.request.map g }
  | .response => { b with response := b.response.map g }

namespace Binding

variable (payload : PayloadKind) (g : Shape → Shape) (b : Binding)

@[simp] theorem key_reshape : (b.reshape payload g).key = b.key := by
  cases payload <;> rfl

@[simp] theorem evidence_reshape : (b.reshape payload g).evidence = b.evidence := by
  cases payload <;> rfl

@[simp] theorem supplies_reshape (other : PayloadKind) :
    (b.reshape payload g).supplies other = b.supplies other := by
  simp [supplies]

@[simp] theorem shape?_reshape_self :
    (b.reshape payload g).shape? payload = (b.shape? payload).map g := by
  cases payload <;> rfl

theorem shape?_reshape_of_ne {other : PayloadKind} (h : other ≠ payload) :
    (b.reshape payload g).shape? other = b.shape? other := by
  cases payload <;> cases other <;> simp [shape?, reshape] at h ⊢

def omitting (steps : List Step) (name : String) : Binding :=
  b.reshape payload (Shape.update (Shape.drop name) steps)

def takingFor (steps : List Step) (unit : String) : Binding :=
  b.reshape payload (Shape.update (Shape.setUnit unit) steps)

end Binding

namespace Comparison

open Quantity

/-- A binding whose shapes mirror the payloads of its endpoint, with a casing, if any, that the values
of the manifest follow, and whose evidence tells nothing about the form of values. -/
structure Clean (conventions : Conventions) (e : Endpoint) (b : Binding) : Prop where
  mirrors : MirrorsEndpoint conventions e { b with evidence := [] }
  quiet : Quiet b

/-- The exchange of a payload between one supplier and readers that are clean, where the manifest has
no conventions on units. -/
structure CleanExchange (conventions : Conventions) (e : Endpoint) (payload : PayloadKind)
    (fields : Payload) (bs : List Binding) (supplier : Binding) : Prop where
  units : ∀ cls, conventions.forClass? cls = none
  names : e.NamesApart
  declared : declaredFields? e payload = some fields
  clean : ∀ b ∈ bs, Clean conventions e b
  supplier : bs.filter (fun b => b.supplies payload && (b.shape? payload).isSome) = [supplier]

section Endpoint

variable {conventions : Conventions} {contract : Contract} {e : Endpoint} {payload : PayloadKind}
  {fields : Payload} {bs before after : List Binding} {b : Binding} {g : Shape → Shape}

theorem Clean.root (h : Clean conventions e b) (hfields : declaredFields? e payload = some fields)
    (hs : b.shape? payload = some s) : mirrorsPayload fields s = true := by
  apply h.mirrors.payloads payload fields hfields s
  cases payload <;> exact hs

/-- A clean binding is faithful to a payload, also with another shape of the other one. -/
theorem Clean.faithfulAll {x : Exchange} {b' : Binding} {supplier : Bool}
    (h : Clean x.conventions e b) (hkey : b'.key = b.key) (hevidence : b'.evidence = b.evidence)
    (hfields : declaredFields? e x.payload = some fields) (hs : b.shape? x.payload = some s) :
    FaithfulAll x fields ⟨b', supplier, s⟩ := by
  have hroot := h.root hfields hs
  rw [mirrorsPayload, Bool.and_eq_true] at hroot
  refine ⟨?_, ?_, hroot.2⟩
  · intro ev hev
    exact h.quiet ev (hevidence ▸ hev)
  · intro casing hcasing
    apply h.mirrors.casing casing ?_ x.payload fields hfields
    rwa [Participant.service, hkey] at hcasing

/-- The participants of a payload, one of whom has a binding and a shape of its own. -/
def focusOn (payload : PayloadKind) (before : List Binding) (b : Binding) (s : Shape)
    (after : List Binding) : Focus :=
  ⟨participants payload before, ⟨b, b.supplies payload, s⟩, participants payload after⟩

theorem participants_reshape (hs : b.shape? payload = some s) :
    participants payload (before ++ b.reshape payload g :: after) =
      (focusOn payload before (b.reshape payload g) s after).altered g := by
  simp [participants, focusOn, Focus.altered, Participant.inside, hs]

theorem mem_others_focusOn {p : Participant} :
    p ∈ (focusOn payload before b s after).others ↔ ∃ b' ∈ before ++ after, ∃ s',
      b'.shape? payload = some s' ∧ ⟨b', b'.supplies payload, s'⟩ = p := by
  simp only [Focus.others, focusOn, participants, ← List.filterMap_append, List.mem_filterMap,
    Option.map_eq_some_iff]

theorem faithfulAll_focusOn {x : Exchange}
    (hclean : ∀ b' ∈ before ++ b :: after, Clean x.conventions e b')
    (hfields : declaredFields? e x.payload = some fields) (hs : b.shape? x.payload = some s) :
    ∀ p ∈ (focusOn x.payload before (b.reshape x.payload g) s after).all, FaithfulAll x fields p := by
  intro p hp
  rcases Focus.mem_all.mp hp with rfl | hp
  · exact (hclean b (by simp)).faithfulAll (by simp) (by simp) hfields hs
  · obtain ⟨b', hb', s', hs', rfl⟩ := mem_others_focusOn.mp hp
    have hmem : b' ∈ before ++ b :: after := by
      simp only [List.mem_append, List.mem_cons] at hb' ⊢
      exact hb'.imp id .inr
    exact (hclean b' hmem).faithfulAll rfl rfl hfields hs'

theorem distinctNames_of_declared (he : e.NamesApart)
    (hfields : declaredFields? e payload = some fields) : DistinctNames fields := by
  cases payload with
  | request => exact he.request fields hfields
  | response => exact he.success fields hfields

/-- On the other payload there is nothing to say. -/
theorem findingsOn_reshape_of_ne (hunits : ∀ cls, conventions.forClass? cls = none)
    (he : e.NamesApart) (hclean : ∀ b' ∈ before ++ b :: after, Clean conventions e b')
    {other : PayloadKind} (hne : other ≠ payload) :
    findingsOn conventions contract e (before ++ b.reshape payload g :: after) other = [] := by
  unfold findingsOn
  cases hfields : declaredFields? e other with
  | none => rfl
  | some fields =>
    apply payloadFindings_eq_nil hunits (distinctNames_of_declared he hfields)
    intro p hp
    obtain ⟨b', hb', hshape⟩ := List.mem_filterMap.mp hp
    obtain ⟨s, hs, rfl⟩ := Option.map_eq_some_iff.mp hshape
    rcases List.mem_append.mp hb' with hb' | hb'
    · exact (hclean b' (by simp [hb'])).faithfulAll rfl rfl hfields hs
    · rcases List.mem_cons.mp hb' with rfl | hb'
      · rw [Binding.shape?_reshape_of_ne _ _ _ hne] at hs
        exact (hclean b (by simp)).faithfulAll (by simp) (by simp) hfields hs
      · exact (hclean b' (by simp [hb'])).faithfulAll rfl rfl hfields hs

theorem endpointFindings_eq_on {bindings : List Binding}
    (h : ∀ other, other ≠ payload → findingsOn conventions contract e bindings other = []) :
    endpointFindings conventions contract e bindings =
      findingsOn conventions contract e bindings payload := by
  rw [endpointFindings_eq]
  cases payload with
  | request => rw [h .response (by simp), List.append_nil]
  | response => rw [h .request (by simp), List.nil_append]

theorem CleanExchange.findings
    (h : CleanExchange conventions e payload fields (before ++ b :: after) supplier)
    (hs : b.shape? payload = some s) :
    endpointFindings conventions contract e (before ++ b.reshape payload g :: after) =
      payloadFindings ⟨conventions, contract.id, e.id, payload⟩ fields
        ((focusOn payload before (b.reshape payload g) s after).altered g) := by
  rw [endpointFindings_eq_on fun other hne =>
    findingsOn_reshape_of_ne h.units h.names h.clean hne, findingsOn, h.declared,
    participants_reshape hs]
  rfl

def shapeRule : PayloadKind → Rule
  | .request => .requestShape
  | .response => .responseShape

/-- An error of a kind, by a rule, on the field at a path. -/
structure ErrorOn (contract : Contract) (e : Endpoint) (path : String) (kind : MismatchKind)
    (rule : Rule) (m : Mismatch) : Prop where
  contract : m.contract = contract.id
  endpoint : m.endpoint = e.id
  field : m.field = path
  kind : m.kind = kind
  rule : m.rule = rule
  severity : m.severity = .error

/-- Two services have a payload as a type of the same name. -/
def SharesType (payload : PayloadKind) (a b : Binding) : Prop :=
  a.key.service ≠ b.key.service ∧ ∃ s ∈ a.shape? payload, ∃ s' ∈ b.shape? payload,
    ∃ t, s.typeName = some t ∧ s'.typeName = some t

theorem undriftedMismatches_eq_undrifted (conventions : Conventions) (contract : Contract)
    (e : Endpoint) (bindings : List Binding) :
    undriftedMismatches conventions contract e bindings =
      undrifted (endpointFindings conventions contract e bindings) := by
  rw [undriftedMismatches_eq, ← undrifted_append, ← endpointFindings_eq]

theorem CleanExchange.supplies (h : CleanExchange conventions e payload fields bs supplier) :
    supplier.supplies payload = true ∧ ∃ s, supplier.shape? payload = some s := by
  have hmem : supplier ∈ bs.filter fun b => b.supplies payload && (b.shape? payload).isSome :=
    h.supplier ▸ List.mem_singleton_self supplier
  have hboth := (List.mem_filter.mp hmem).2
  rw [Bool.and_eq_true, Option.isSome_iff_exists] at hboth
  exact hboth

theorem CleanExchange.omitted
    (h : CleanExchange conventions e payload fields (before ++ supplier :: after) supplier)
    {steps : List Step} {name : String} {f : FieldSchema}
    (hat : fieldAt? fields (steps ++ [.member name]) = some f) (hrequired : f.required = true) :
    ∃ m, ErrorOn contract e (pathAlong "" (steps ++ [.member name])) .missing (shapeRule payload) m ∧
      undriftedMismatches conventions contract e
        (before ++ supplier.omitting payload steps name :: after) = [m] ∧
      ((steps = [] → ∀ other ∈ before ++ after, ¬SharesType payload supplier other) →
        compareEndpoint conventions contract e
          (before ++ supplier.omitting payload steps name :: after) = [m]) := by
  unfold Binding.omitting
  obtain ⟨hsupplies, s, hs⟩ := h.supplies
  have hroot := (h.clean supplier (by simp)).root h.declared hs
  simp only [mirrorsPayload, Bool.and_eq_true, decide_eq_true_eq] at hroot
  have hfaithful := faithfulAll_focusOn (x := ⟨conventions, contract.id, e.id, payload⟩)
    (g := Shape.update (Shape.drop name) steps) h.clean h.declared hs
  obtain ⟨p, hfindings⟩ := payloadFindings_drop h.units (distinctNames_of_declared h.names h.declared)
    hfaithful hat (by simpa [focusOn] using hsupplies) hrequired hroot.1.2
  refine ⟨omission ⟨conventions, contract.id, e.id, payload⟩
    (pathAlong "" (steps ++ [.member name])) p, ⟨rfl, rfl, rfl, rfl, ?_, rfl⟩, ?_, ?_⟩
  · cases payload <;> rfl
  · rw [undriftedMismatches_eq_undrifted, h.findings hs, hfindings, undrifted_append]
    by_cases hsteps : steps = []
    · simp only [hsteps, if_true, undrifted_drifts]
      rfl
    · simp only [hsteps, if_false]
      rfl
  · intro hshares
    rw [compareEndpoint, h.findings hs, hfindings]
    -- below the whole payload types have no names, so that only there a drift is possible
    by_cases hsteps : steps = []
    · rw [if_pos hsteps, drifts_altered rfl]
      · rfl
      · exact fun p hp => (hfaithful p (Focus.mem_all_of_others hp)).names
      · intro p hp
        obtain ⟨b', hb', s', hs', rfl⟩ := mem_others_focusOn.mp hp
        have hone := hshares hsteps b' hb'
        by_cases hservice : b'.key.service = supplier.key.service
        · exact .inl (by simpa [focusOn, Participant.service] using hservice)
        · exact .inr fun t ht ht' => hone ⟨Ne.symm hservice, s, hs, s', hs', t, ht', ht⟩
    · rw [if_neg hsteps]
      rfl

theorem suppliers_participants (payload : PayloadKind) (bs : List Binding) :
    (participants payload bs).filter (·.supplier) = participants payload
      (bs.filter fun b => b.supplies payload && (b.shape? payload).isSome) := by
  induction bs with
  | nil => rfl
  | cons b bs ih =>
    unfold participants at ih ⊢
    cases hs : b.shape? payload <;> cases hb : b.supplies payload <;> simp [hs, hb, ih]

theorem CleanExchange.mistaken {supplier reader : Binding}
    (h : CleanExchange conventions e payload fields (before ++ reader :: after) supplier)
    (hreader : reader.supplies payload = false) (hshape : (reader.shape? payload).isSome = true)
    {steps : List Step} {f : FieldSchema} {unit unit' : String}
    (hat : fieldAt? fields steps = some f) (hunit : f.unit = some unit)
    (hne : canonicalUnit unit ≠ canonicalUnit unit') :
    (converts unit unit' (reader.evidence ++ supplier.evidence) = false →
      ∃ m, ErrorOn contract e (pathAlong "" steps) .unit .strictnessParity m ∧
        compareEndpoint conventions contract e
          (before ++ reader.takingFor payload steps unit' :: after) = [m]) ∧
    ∀ needed ∈ conversion? unit unit',
      (∃ ev ∈ reader.evidence ++ supplier.evidence, ScalesField f.name needed ev) →
        compareEndpoint conventions contract e
          (before ++ reader.takingFor payload steps unit' :: after) = [] := by
  unfold Binding.takingFor
  obtain ⟨s, hs⟩ := Option.isSome_iff_exists.mp hshape
  obtain ⟨hsupplies, s', hs'⟩ := h.supplies
  have hfaithful := faithfulAll_focusOn (x := ⟨conventions, contract.id, e.id, payload⟩)
    (g := Shape.update (Shape.setUnit unit') steps) h.clean h.declared hs
  have hsuppliers : (focusOn payload before
      (reader.reshape payload (Shape.update (Shape.setUnit unit') steps)) s after).all.filter
        (·.supplier) = [⟨supplier, true, s'⟩] := by
    have hothers : (before ++ after).filter
        (fun b => b.supplies payload && (b.shape? payload).isSome) = [supplier] := by
      simpa [hreader] using h.supplier
    have hone : participants payload [supplier] = [⟨supplier, true, s'⟩] := by
      simp [participants, hs', hsupplies]
    rw [← hone, ← hothers, ← suppliers_participants]
    simp [Focus.all, focusOn, hreader, participants]
  obtain ⟨hreported, hconverted⟩ := payloadFindings_setUnit h.units
    (distinctNames_of_declared h.names h.declared) hfaithful hat (by simpa [focusOn] using hreader)
    hsuppliers hunit hne
  have hevidence : (focusOn payload before (reader.reshape payload
      (Shape.update (Shape.setUnit unit') steps)) s after).one.binding.evidence = reader.evidence :=
    Binding.evidence_reshape _ _ _
  rw [hevidence] at hreported hconverted
  rw [compareEndpoint, h.findings hs]
  constructor
  · intro hscales
    obtain ⟨location, expected, observed, hone⟩ := hreported hscales
    refine ⟨Exchange.disparity ⟨conventions, contract.id, e.id, payload⟩ .unit _ location expected
      observed, ⟨rfl, rfl, rfl, rfl, rfl, rfl⟩, ?_⟩
    rw [hone]
    rfl
  · intro needed hneeded hscales
    rw [hconverted needed hneeded hscales]
    rfl

/-- In a clean exchange, a required field that the supplier omits is reported once, as missing, and so
is the unit of a field that a reader takes for another, unless the reader or the supplier converts
it. Nothing else is reported, except that a field which is omitted from the whole payload may also
make its type drift from that of a reader. -/
theorem single_fault_exact (contract : Contract) {supplier : Binding}
    (h : CleanExchange conventions e payload fields bs supplier) :
    (∀ before after steps name f, bs = before ++ supplier :: after →
      fieldAt? fields (steps ++ [.member name]) = some f → f.required = true →
        ∃ m, ErrorOn contract e (pathAlong "" (steps ++ [.member name])) .missing (shapeRule payload)
            m ∧
          undriftedMismatches conventions contract e (before ++
            supplier.omitting payload steps name :: after) = [m] ∧
          ((steps = [] → ∀ other ∈ before ++ after, ¬SharesType payload supplier other) →
            compareEndpoint conventions contract e (before ++
              supplier.omitting payload steps name :: after) = [m])) ∧
    ∀ before reader after steps f unit unit', bs = before ++ reader :: after →
      reader.supplies payload = false → (reader.shape? payload).isSome = true →
        fieldAt? fields steps = some f → f.unit = some unit →
          canonicalUnit unit ≠ canonicalUnit unit' →
        (converts unit unit' (reader.evidence ++ supplier.evidence) = false →
          ∃ m, ErrorOn contract e (pathAlong "" steps) .unit .strictnessParity m ∧
            compareEndpoint conventions contract e (before ++
              reader.takingFor payload steps unit' :: after) = [m]) ∧
        ((unitClass? unit).isSome = true → unitClass? unit = unitClass? unit' →
          ∃ needed, conversion? unit unit' = some needed ∧
            ((∃ ev ∈ reader.evidence ++ supplier.evidence, ScalesField f.name needed ev) →
              compareEndpoint conventions contract e (before ++
                reader.takingFor payload steps unit' :: after) =
                  [])) := by
  constructor
  · rintro before after steps name f rfl hat hrequired
    exact h.omitted hat hrequired
  · rintro before reader after steps f unit unit' rfl hreader hshape hat hunit hne
    obtain ⟨hreported, hconverted⟩ := h.mistaken hreader hshape hat hunit hne
    refine ⟨hreported, fun hknown hclass => ?_⟩
    obtain ⟨needed, hneeded⟩ := exists_conversion hknown hclass hne
    exact ⟨needed, hneeded, hconverted needed hneeded⟩

def parcelFields : Payload :=
  [⟨"lines", .array, none, none, none, [], true, [],
    some ⟨"[]", .object, none, none, none, [], true,
      [⟨"weight", .number, none, some "grams", none, [], true, [], none, none, false⟩], none, none,
      false⟩, none, false⟩]

def parcelEndpoint : Endpoint where
  method := "GET"
  path := "/parcel"
  request := none
  responses := [(200, parcelFields)]
  statusCodes := []

def parcelBinding (service : String) (side : Side) (evidence : List Evidence) : Binding :=
  let weight : Shape := { Shape.plain "weight" .number default with unit := some "grams" }
  let line : Shape := { Shape.plain "[]" .object default with children := [weight] }
  let lines : Shape := { Shape.plain "lines" .array default with items := some line }
  { key := ⟨"parcels", "GET /parcel", service, .producer, side, false⟩
    request := none
    response := some { Shape.plain "" .object default with children := [lines] }
    statusCodes := []
    headersRead := []
    headersWritten := []
    evidence
    location := default
    locations := [] }

def depot : Binding := parcelBinding "depot" .server []

def label : Binding := parcelBinding "label" .client []

def scale : Binding :=
  parcelBinding "scale" .client
    [⟨.scale ⟨.div, .ofNat 1000⟩, some "weight", .call, default, ""⟩]

theorem faults_in_parcels :
    CleanExchange default parcelEndpoint .response parcelFields [depot, label, scale] depot ∧
    (∃ m, ErrorOn default parcelEndpoint "lines[].weight" .missing .responseShape m ∧
      compareEndpoint default default parcelEndpoint [depot.omitting .response
        [.member "lines", .item] "weight", label, scale] = [m]) ∧
    (∃ m, ErrorOn default parcelEndpoint "lines[].weight" .unit .strictnessParity m ∧
      compareEndpoint default default parcelEndpoint [depot, label.takingFor .response
        [.member "lines", .item, .member "weight"] "kg", scale] =
          [m]) ∧
    compareEndpoint default default parcelEndpoint [depot, label, scale.takingFor .response
      [.member "lines", .item, .member "weight"] "kg"] = [] := by
  have hclean : CleanExchange default parcelEndpoint .response parcelFields [depot, label, scale]
      depot := by
    constructor
    case units => decide
    case names =>
      constructor
      · simp [parcelEndpoint]
      · simpa [parcelEndpoint] using (⟨by decide, by decide⟩ : DistinctNames parcelFields)
    case declared => rfl
    case clean =>
      intro b hb
      simp only [List.mem_cons, List.not_mem_nil, or_false] at hb
      rcases hb with rfl | rfl | rfl <;> exact ⟨by decide +kernel, by decide⟩
    case supplier => rfl
  obtain ⟨homitted, hmistaken⟩ := single_fault_exact default hclean
  have hpath : pathAlong "" [.member "lines", .item, .member "weight"] = "lines[].weight" := by
    decide +kernel
  refine ⟨hclean, ?_, ?_, ?_⟩
  · obtain ⟨m, hm, -, hall⟩ :=
      homitted [] [label, scale] [.member "lines", .item] "weight" _ rfl rfl rfl
    exact ⟨m, hpath ▸ hm, hall fun hsteps => nomatch hsteps⟩
  · obtain ⟨hreported, -⟩ := hmistaken [depot] label [scale] [.member "lines", .item, .member "weight"]
      _ "grams" "kg" rfl rfl rfl rfl rfl (by decide +kernel)
    obtain ⟨m, hm, hone⟩ := hreported (by decide +kernel)
    exact ⟨m, hpath ▸ hm, hone⟩
  · obtain ⟨-, hconverted⟩ := hmistaken [depot, label] scale []
      [.member "lines", .item, .member "weight"] _ "grams" "kg" rfl rfl rfl rfl rfl (by decide +kernel)
    obtain ⟨needed, hneeded, hnone⟩ := hconverted (by decide +kernel) (by decide +kernel)
    have hthousand : conversion? "grams" "kg" = some ⟨.div, .ofNat 1000⟩ := by
      decide +kernel
    obtain rfl : ⟨.div, .ofNat 1000⟩ = needed := Option.some.inj (hthousand.symm.trans hneeded)
    exact hnone ⟨_, List.mem_append_left _ (List.mem_singleton_self _), rfl, rfl, by decide +kernel⟩

end Endpoint

end Comparison

end Concord
