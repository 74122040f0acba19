import Concord.Proofs.FieldTrees

/-! A document becomes a manifest exactly if it is well-formed: its services, contracts and
endpoints are named apart and refer to each other properly, and every field of a payload or of a
named type is proper at every depth. -/
namespace Concord

open Text

variable {x : Expansion} {known seen : List String} {d : ManifestDoc} {docs : List ServiceDoc}

namespace EndpointDoc

/-- The method as endpoints are told apart and looked up by. -/
def methodName (e : EndpointDoc) : String := String.ofList (asciiUpper (trim e.method.toList))

def id (e : EndpointDoc) : String := e.methodName ++ " " ++ e.path

def payloads (e : EndpointDoc) : List PayloadDoc :=
  e.request.toList ++ e.response.toList ++ e.responses.map (·.2)

def codes (e : EndpointDoc) : List Int := e.statusCodes ++ e.responses.map fun r => responseCode r.1

structure WellFormed (e : EndpointDoc) : Prop where
  method : e.methodName ∈ methods
  codes : ∀ code ∈ e.codes, 100 ≤ code ∧ code ≤ 599
  payloads_apart : ∀ p ∈ e.payloads, (p.map (·.1)).Nodup

end EndpointDoc

structure ContractDoc.WellFormed (services : List String) (c : ContractDoc) : Prop where
  parties : ∀ service ∈ c.producer :: c.consumers, service ∈ services
  direction : ∀ t ∈ c.direction, String.ofList (asciiLower t.toList) ∈ ["outbound", "inbound"]
  tolerance : ∀ v ∈ c.verification, ∀ t ∈ v.tolerance, ∃ n, t = .seconds n
  endpoints_apart : (c.endpoints.map (·.id)).Nodup
  endpoints : ∀ e ∈ c.endpoints, e.WellFormed

/-- Whether each field of a payload can be built. -/
def Expansion.Builds (x : Expansion) (p : PayloadDoc) : Prop :=
  ∀ f ∈ p, ∃ s, x.field f.1 f.1 f.2 = .ok s

theorem payload_ok_iff (scope : String) {p : PayloadDoc} :
    (∃ fields, x.payload scope p = .ok fields) ↔ (p.map (·.1)).Nodup ∧ x.Builds p := by
  unfold Expansion.payload Expansion.Builds
  rw [bind_ok_iff_and fun _ => mapM_ok_iff _ _, checkNames_ok_iff]

theorem statusCode_ok_iff (contract endpoint : String) {code : Int} :
    (∃ n, statusCode contract endpoint code = .ok n) ↔ 100 ≤ code ∧ code ≤ 599 := by
  unfold statusCode
  by_cases h : (100 ≤ code && code ≤ 599) = true
  · rw [if_pos h]
    exact iff_of_true ⟨_, rfl⟩ (by simpa using h)
  · rw [if_neg h]
    exact iff_of_false (by simp) (by simpa using h)

theorem buildEndpoint_id_method {contract : String} {d : EndpointDoc} {e : Endpoint}
    (h : buildEndpoint x contract d = .ok e) : e.id = d.id ∧ e.method ∈ methods := by
  unfold buildEndpoint at h
  dsimp only at h
  split at h
  · exact absurd h throw_ne_ok
  · next hmethod =>
    obtain ⟨statusCodes, -, h⟩ := bind_eq_ok h
    obtain ⟨request, -, h⟩ := bind_eq_ok h
    obtain ⟨response, -, h⟩ := bind_eq_ok h
    obtain ⟨responses, -, h⟩ := bind_eq_ok h
    obtain rfl := Except.ok.inj h
    exact ⟨rfl, by simpa using hmethod⟩

theorem responses_ok_iff (x : Expansion) (contract id : String) (docs : List (String × PayloadDoc))
    (plain : List (Nat × Payload)) :
    (∃ responses, docs.foldlM (fun rs r => do
        let code ← statusCode contract id (responseCode r.1)
        let p ← x.payload s!"{contract} {id} response {r.1}" r.2
        return insertResponse code p rs) plain = .ok responses) ↔
      ∀ r ∈ docs, (100 ≤ responseCode r.1 ∧ responseCode r.1 ≤ 599) ∧
        (r.2.map (·.1)).Nodup ∧ x.Builds r.2 := by
  refine foldlM_ok_iff (fun rs r _ => ?_) plain
  rw [bind_ok_iff_and fun _ => bind_pure_ok_iff, statusCode_ok_iff, payload_ok_iff]

theorem buildEndpoint_ok_iff (contract : String) {d : EndpointDoc} :
    (∃ e, buildEndpoint x contract d = .ok e) ↔ d.WellFormed ∧ ∀ p ∈ d.payloads, x.Builds p := by
  have hmethod : ¬(!methods.contains d.methodName) = true ↔ d.methodName ∈ methods := by simp
  have hcodes : (∀ code ∈ d.codes, 100 ≤ code ∧ code ≤ 599) ↔
      (∀ code ∈ d.statusCodes, 100 ≤ code ∧ code ≤ 599) ∧
        ∀ r ∈ d.responses, 100 ≤ responseCode r.1 ∧ responseCode r.1 ≤ 599 := by
    simp only [EndpointDoc.codes, List.forall_mem_append, List.forall_mem_map]
  have hpayloads {P : PayloadDoc → Prop} : (∀ p ∈ d.payloads, P p) ↔ (∀ p ∈ d.request, P p) ∧
      (∀ p ∈ d.response, P p) ∧ ∀ r ∈ d.responses, P r.2 := by
    simp only [EndpointDoc.payloads, List.forall_mem_append, List.forall_mem_map, Option.mem_toList,
      and_assoc]
    rfl
  unfold buildEndpoint
  dsimp only
  -- whether a step ends well does not depend on what the steps before it gave
  rw [ite_throw_ok_iff]
  simp only [bind_ok_iff, exists_pure_eq_ok, and_true, responses_ok_iff, exists_and_right,
    option_mapM_ok_iff, mapM_ok_iff, statusCode_ok_iff, payload_ok_iff]
  constructor
  · rintro ⟨hknown, hstatus, hrequest, hresponse, hresponses⟩
    refine ⟨⟨hmethod.mp hknown, hcodes.mpr ⟨hstatus, fun r hr => (hresponses r hr).1⟩,
      hpayloads.mpr ?_⟩, hpayloads.mpr ?_⟩
    · exact ⟨fun p hp => (hrequest p hp).1, fun p hp => (hresponse p hp).1,
        fun r hr => (hresponses r hr).2.1⟩
    · exact ⟨fun p hp => (hrequest p hp).2, fun p hp => (hresponse p hp).2,
        fun r hr => (hresponses r hr).2.2⟩
  · rintro ⟨hd, hbuilds⟩
    obtain ⟨hstatus, hkeys⟩ := hcodes.mp hd.codes
    obtain ⟨hrequest, hresponse, hresponses⟩ :=
      hpayloads.mp fun p hp => And.intro (hd.payloads_apart p hp) (hbuilds p hp)
    exact ⟨hmethod.mpr hd.method, hstatus, hrequest, hresponse,
      fun r hr => ⟨hkeys r hr, hresponses r hr⟩⟩

theorem buildEndpoints_ok_iff {contract : String} {docs : List EndpointDoc} :
    (∃ es, buildEndpoints x contract seen docs = .ok es) ↔
      Fresh seen (docs.map (·.id)) ∧ ∀ d ∈ docs, ∃ e, buildEndpoint x contract d = .ok e := by
  induction docs generalizing seen with
  | nil => exact iff_of_true ⟨[], rfl⟩ (by simp [Fresh])
  | cons d docs ih =>
    rw [buildEndpoints, bind_ok_iff, List.map_cons, fresh_cons_iff, List.forall_mem_cons]
    -- the name that is compared with those before it is that of the endpoint that was built
    have hrest (e : Endpoint) (he : buildEndpoint x contract d = .ok e) :
        (∃ es, (if seen.contains e.id then throw (.duplicateEndpoint contract e.id)
          else return e :: (← buildEndpoints x contract (e.id :: seen) docs)) = .ok es) ↔
        d.id ∉ seen ∧ Fresh (d.id :: seen) (docs.map (·.id)) ∧
          ∀ d ∈ docs, ∃ e, buildEndpoint x contract d = .ok e := by
      rw [(buildEndpoint_id_method he).1, ite_throw_ok_iff, bind_pure_ok_iff, ih, List.contains_iff_mem]
    constructor
    · rintro ⟨e, he, h⟩
      obtain ⟨hseen, hfresh, hdocs⟩ := (hrest e he).mp h
      exact ⟨⟨hseen, hfresh⟩, ⟨e, he⟩, hdocs⟩
    · rintro ⟨⟨hseen, hfresh⟩, ⟨e, he⟩, hdocs⟩
      exact ⟨e, he, (hrest e he).mpr ⟨hseen, hfresh, hdocs⟩⟩

theorem buildDirection_ok_iff (contract : String) {direction : Option String} :
    (∃ r, buildDirection contract direction = .ok r) ↔
      ∀ t ∈ direction, String.ofList (asciiLower t.toList) ∈ ["outbound", "inbound"] := by
  unfold buildDirection
  cases direction with
  | none => exact iff_of_true ⟨_, rfl⟩ (by simp)
  | some t =>
    simp only [Option.map_some, Option.mem_some_iff, forall_eq']
    split
    · next h => cases h
    · next h => exact iff_of_true ⟨_, rfl⟩ (by simp [Option.some.inj h])
    · next h => exact iff_of_true ⟨_, rfl⟩ (by simp [Option.some.inj h])
    · next other hout hin h =>
      obtain rfl := Option.some.inj h
      refine iff_of_false (by simp) ?_
      simp_all

theorem buildVerification_ok_iff (contract : String) {d : VerificationDoc} :
    (∃ v, buildVerification contract d = .ok v) ↔ ∀ t ∈ d.tolerance, ∃ n, t = .seconds n := by
  unfold buildVerification
  rcases d.tolerance with _ | (n | text)
  · exact iff_of_true ⟨_, rfl⟩ (by simp)
  · exact iff_of_true ⟨_, rfl⟩ (by simp)
  · refine iff_of_false ?_ (by simp)
    rintro ⟨v, h⟩
    obtain ⟨_, hthrow, -⟩ := bind_eq_ok h
    exact throw_ne_ok hthrow

theorem buildContract_ok_iff {d : ContractDoc} :
    (∃ c, buildContract x known d = .ok c) ↔
      d.WellFormed known ∧ ∀ e ∈ d.endpoints, ∀ p ∈ e.payloads, x.Builds p := by
  unfold buildContract
  cases hparties : (d.producer :: d.consumers).find? (!known.contains ·) with
  | some service =>
    refine iff_of_false not_exists_throw_eq_ok fun h => ?_
    have hunknown : service ∉ known := by simpa using List.find?_some hparties
    exact hunknown (h.1.parties service (List.mem_of_find?_eq_some hparties))
  | none =>
    have hparties : ∀ service ∈ d.producer :: d.consumers, service ∈ known := by
      simpa [List.find?_eq_none] using hparties
    simp only [bind_ok_iff, exists_pure_eq_ok, and_true, buildEndpoints_ok_iff, exists_and_right,
      option_mapM_ok_iff, buildDirection_ok_iff, buildVerification_ok_iff, buildEndpoint_ok_iff,
      fresh_nil_iff]
    constructor
    · rintro ⟨hdirection, htolerance, hapart, hendpoints⟩
      exact ⟨⟨hparties, hdirection, htolerance, hapart, fun e he => (hendpoints e he).1⟩,
        fun e he => (hendpoints e he).2⟩
    · rintro ⟨hd, hbuilds⟩
      exact ⟨hd.direction, hd.tolerance, hd.endpoints_apart,
        fun e he => ⟨hd.endpoints e he, hbuilds e he⟩⟩

theorem buildContracts_ok_iff {docs : List ContractDoc} :
    (∃ cs, buildContracts x known seen docs = .ok cs) ↔
      Fresh seen (docs.map (·.id)) ∧ ∀ d ∈ docs, ∃ c, buildContract x known d = .ok c := by
  induction docs generalizing seen with
  | nil => exact iff_of_true ⟨[], rfl⟩ (by simp [Fresh])
  | cons d docs ih =>
    rw [buildContracts, List.map_cons, fresh_cons_iff, List.forall_mem_cons, ite_throw_ok_iff,
      bind_ok_iff_and fun _ => bind_pure_ok_iff, ih, List.contains_iff_mem, and_assoc]
    exact and_congr_right' and_left_comm

theorem buildService_ok_iff {d : ServiceDoc} :
    (∃ s, buildService seen d = .ok s) ↔
      d.id ∉ seen ∧ (Language.ofManifest? d.language).isSome = true := by
  unfold buildService
  by_cases hseen : d.id ∈ seen
  · simp [hseen]
  · rw [if_neg (by simpa using hseen)]
    cases Language.ofManifest? d.language <;> simp [hseen]

theorem buildServices_ok_iff :
    (∃ ss, buildServices seen docs = .ok ss) ↔ Fresh seen (docs.map (·.id)) ∧
      ∀ d ∈ docs, (Language.ofManifest? d.language).isSome = true := by
  induction docs generalizing seen with
  | nil => exact iff_of_true ⟨[], rfl⟩ (by simp [Fresh])
  | cons d docs ih =>
    rw [buildServices, List.map_cons, fresh_cons_iff, List.forall_mem_cons,
      bind_ok_iff_and fun _ => bind_pure_ok_iff, buildService_ok_iff, ih]
    exact and_and_and_comm

theorem buildServices_ids {services : List Service} (h : buildServices seen docs = .ok services) :
    services.map (·.id) = docs.map (·.id) := by
  induction docs generalizing seen services with
  | nil =>
    obtain rfl : [] = services := Except.ok.inj h
    rfl
  | cons d docs ih =>
    obtain ⟨s, hs, h⟩ := bind_eq_ok h
    obtain ⟨rest, hrest, h⟩ := bind_eq_ok h
    obtain rfl := Except.ok.inj h
    have hid : s.id = d.id := by
      unfold buildService at hs
      split at hs
      · cases hs
      · split at hs
        · cases hs
        · rw [← Except.ok.inj hs]
    rw [List.map_cons, List.map_cons, hid, ih hrest]

theorem buildConventions_ok_iff {d : ConventionsDoc} :
    (∃ c, buildConventions known d = .ok c) ↔
      ∀ entry ∈ d.enumCase, entry.1 ∈ known ∧ (Casing.ofName? entry.2).isSome = true := by
  unfold buildConventions
  rw [bind_pure_ok_iff]
  refine foldlM_ok_iff (fun es entry _ => ?_) []
  dsimp only
  rw [ite_throw_ok_iff]
  refine and_congr (by simp) ?_
  cases Casing.ofName? entry.2 with
  | none => exact iff_of_false not_exists_throw_eq_ok (by simp)
  | some c => exact iff_of_true ⟨_, rfl⟩ rfl

namespace ManifestDoc

/-- The fields that trees of fields start from: the named types and the fields of all payloads. -/
def fieldTrees (d : ManifestDoc) : List FieldDoc :=
  d.types.map (·.2) ++
    d.contracts.flatMap fun c => c.endpoints.flatMap fun e => e.payloads.flatMap fun p => p.map (·.2)

structure WellFormed (d : ManifestDoc) : Prop where
  services_apart : (d.services.map (·.id)).Nodup
  languages : ∀ s ∈ d.services, (Language.ofManifest? s.language).isSome = true
  types_apart : (d.types.map (·.1)).Nodup
  contracts_apart : (d.contracts.map (·.id)).Nodup
  contracts : ∀ c ∈ d.contracts, c.WellFormed (d.services.map (·.id))
  fields : ∀ root ∈ d.fieldTrees, ∀ f ∈ root.all, f.Proper (d.types.map (·.1))
  casings : ∀ entry ∈ d.conventions.enumCase,
    entry.1 ∈ d.services.map (·.id) ∧ (Casing.ofName? entry.2).isSome = true

theorem forall_mem_fieldTrees_iff {P : FieldDoc → Prop} :
    (∀ root ∈ d.fieldTrees, P root) ↔ (∀ t ∈ d.types, P t.2) ∧
      ∀ c ∈ d.contracts, ∀ e ∈ c.endpoints, ∀ p ∈ e.payloads, ∀ f ∈ p, P f.2 := by
  simp only [fieldTrees, List.forall_mem_append, List.forall_mem_map, List.forall_mem_flatMap]

/-- A document that is well-formed as far as it can be told without looking at its fields. -/
structure Outlined (d : ManifestDoc) : Prop where
  services_apart : (d.services.map (·.id)).Nodup
  languages : ∀ s ∈ d.services, (Language.ofManifest? s.language).isSome = true
  types_apart : (d.types.map (·.1)).Nodup
  contracts_apart : (d.contracts.map (·.id)).Nodup
  contracts : ∀ c ∈ d.contracts, c.WellFormed (d.services.map (·.id))
  casings : ∀ entry ∈ d.conventions.enumCase,
    entry.1 ∈ d.services.map (·.id) ∧ (Casing.ofName? entry.2).isSome = true

theorem build_ok_iff {maxDepth : Nat} {path text : String} :
    (∃ m, d.build maxDepth path text = .ok m) ↔ d.Outlined ∧
      (∀ t ∈ d.types, ∃ s, (d.expansion maxDepth).field ("types." ++ t.1) t.1 t.2 = .ok s) ∧
      ∀ c ∈ d.contracts, ∀ e ∈ c.endpoints, ∀ p ∈ e.payloads, (d.expansion maxDepth).Builds p := by
  have hservices : (∃ services, buildServices [] d.services = .ok services) ↔
      (d.services.map (·.id)).Nodup ∧
        ∀ s ∈ d.services, (Language.ofManifest? s.language).isSome = true := by
    rw [buildServices_ok_iff, fresh_nil_iff]
  unfold build
  rw [bind_ok_iff]
  constructor
  · rintro ⟨services, hbuilt, h⟩
    dsimp only at h
    rw [buildServices_ids hbuilt,
      bind_ok_iff_and fun _ => bind_ok_iff_and fun _ => bind_ok_iff_and fun _ => bind_pure_ok_iff,
      checkNames_ok_iff, mapM_ok_iff, buildContracts_ok_iff, buildConventions_ok_iff, fresh_nil_iff] at h
    obtain ⟨htypes, hfields, ⟨hapart, hbuilds⟩, hcasings⟩ := h
    have hcontract (c : ContractDoc) (hc : c ∈ d.contracts) := buildContract_ok_iff.mp (hbuilds c hc)
    obtain ⟨hids, hlanguages⟩ := hservices.mp ⟨services, hbuilt⟩
    exact ⟨⟨hids, hlanguages, htypes, hapart, fun c hc => (hcontract c hc).1, hcasings⟩, hfields,
      fun c hc => (hcontract c hc).2⟩
  · rintro ⟨h, hfields, hpayloads⟩
    obtain ⟨services, hbuilt⟩ := hservices.mpr ⟨h.services_apart, h.languages⟩
    refine ⟨services, hbuilt, ?_⟩
    dsimp only
    rw [buildServices_ids hbuilt,
      bind_ok_iff_and fun _ => bind_ok_iff_and fun _ => bind_ok_iff_and fun _ => bind_pure_ok_iff,
      checkNames_ok_iff, mapM_ok_iff, buildContracts_ok_iff, buildConventions_ok_iff, fresh_nil_iff]
    exact ⟨h.types_apart, hfields,
      ⟨h.contracts_apart, fun c hc => buildContract_ok_iff.mpr ⟨h.contracts c hc, hpayloads c hc⟩⟩,
      h.casings⟩

/-- A well-formed document is accepted, however deep it is and whatever the depth of expansion is. -/
theorem build_of_wellFormed (h : d.WellFormed) (maxDepth : Nat) (path text : String) :
    ∃ m, d.build maxDepth path text = .ok m := by
  obtain ⟨htypes, hpayloads⟩ := forall_mem_fieldTrees_iff.mp h.fields
  have hfield := buildsProper_field htypes (max maxDepth 1)
  have houtlined : d.Outlined :=
    ⟨h.services_apart, h.languages, h.types_apart, h.contracts_apart, h.contracts, h.casings⟩
  refine build_ok_iff.mpr ⟨houtlined, fun t ht => hfield _ _ _ _ (htypes t ht), ?_⟩
  exact fun c hc e he p hp f hf => hfield _ _ _ _ (hpayloads c hc e he p hp f hf)

/-- A document that is accepted is well-formed, if building reaches every field in it. -/
theorem wellFormed_of_build {maxDepth : Nat} {path text : String} {m : Manifest}
    (hplaced : ∀ root ∈ d.fieldTrees, ∀ f ∈ root.all, f.Placed)
    (hdepth : ∀ root ∈ d.fieldTrees, root.nesting ≤ maxDepth) (h : d.build maxDepth path text = .ok m) :
    d.WellFormed := by
  obtain ⟨houtlined, htypes, hpayloads⟩ := build_ok_iff.mp ⟨m, h⟩
  have hreached : ∀ root ∈ d.fieldTrees, ∀ place name,
      (∃ s, buildField d.types (max maxDepth 1) [] place name root = .ok s) →
        root.ProperWithin d.types := fun root hroot place name hfield =>
    proper_of_buildField (hplaced root hroot) (Nat.le_trans (hdepth root hroot) (Nat.le_max_left _ _))
      hfield
  obtain ⟨hreachedTypes, hreachedPayloads⟩ := forall_mem_fieldTrees_iff.mp hreached
  exact {
    services_apart := houtlined.services_apart
    languages := houtlined.languages
    types_apart := houtlined.types_apart
    contracts_apart := houtlined.contracts_apart
    contracts := houtlined.contracts
    fields := forall_mem_fieldTrees_iff.mpr
      ⟨fun t ht => hreachedTypes t ht _ _ (htypes t ht),
        fun c hc e he p hp f hf => hreachedPayloads c hc e he p hp f hf _ _ (hpayloads c hc e he p hp f hf)⟩
    casings := houtlined.casings }

end ManifestDoc

/-- A document whose members and items are in their places, and not deeper than references are
expanded, is accepted exactly if it is well-formed. -/
theorem accepted_iff_wellFormed (path : String) {text : String} {maxDepth : Nat} {d : ManifestDoc}
    (hread : ManifestDoc.read? text = some d)
    (hplaced : ∀ root ∈ d.fieldTrees, ∀ f ∈ root.all, f.Placed)
    (hdepth : ∀ root ∈ d.fieldTrees, root.nesting ≤ maxDepth) :
    (∃ m, Manifest.parse text path maxDepth = .ok m) ↔ d.WellFormed := by
  unfold Manifest.parse
  rw [hread]
  constructor
  · rintro ⟨m, h⟩
    exact ManifestDoc.wellFormed_of_build hplaced hdepth h
  · intro h
    exact ManifestDoc.build_of_wellFormed h maxDepth path text

/-- A payload of a type that refers to itself from inside an array. -/
def threads : List Char :=
  ["types: \x7bt: \x7btype: object, fields: \x7bn: \x7btype: int, range: [1, 9]\x7d, ",
    "r: \x7btype: array, items: \x7btype: object, ref: t\x7d\x7d\x7d\x7d\x7d\n",
    "services: [\x7bid: s, language: go\x7d]\n",
    "contracts: [\x7bid: c, producer: s, endpoints: [\x7bmethod: put, path: /, ",
    "request: \x7bfields: \x7bp: \x7btype: object, ref: t\x7d\x7d\x7d\x7d]\x7d]\n"].flatMap String.toList

theorem threads_read :
    ∃ d m, ManifestDoc.read? (String.ofList threads) = some d ∧
      Manifest.parse (String.ofList threads) "m" 2 = .ok m ∧
      (∀ root ∈ d.fieldTrees, ∀ f ∈ root.all, f.Placed) ∧ d.fieldTrees.map (·.nesting) = [2, 0] := by
  have hrun : ((ManifestDoc.read? (String.ofList threads)).any fun d =>
      (d.build 2 "m" (String.ofList threads)).isOk &&
        decide ((∀ root ∈ d.fieldTrees, ∀ f ∈ root.all, f.Placed) ∧
          d.fieldTrees.map (·.nesting) = [2, 0])) = true := by
    rw [ManifestDoc.read?, String.toList_ofList]
    conv in Yaml.Document.read? _ =>
      unfold threads
      repeat rw [List.flatMap_cons, String.toList_ofList]
    decide +kernel
  obtain ⟨d, hread, hd⟩ := (Option.any_eq_true _ _).mp hrun
  obtain ⟨hok, hshape⟩ := Bool.and_eq_true_iff.mp hd
  obtain ⟨m, hm⟩ := isOk_iff.mp hok
  rw [← parse_eq_build hread] at hm
  exact ⟨d, m, hread, hm, of_decide_eq_true hshape⟩

theorem threads_wellFormed :
    ∃ d, ManifestDoc.read? (String.ofList threads) = some d ∧
      (∀ root ∈ d.fieldTrees, ∀ f ∈ root.all, f.Placed) ∧
        d.fieldTrees.map (·.nesting) = [2, 0] ∧ d.WellFormed := by
  obtain ⟨d, m, hread, hparse, hplaced, hnesting⟩ := threads_read
  have hdepth : ∀ root ∈ d.fieldTrees, root.nesting ≤ 2 := by
    intro root hroot
    have hmem : root.nesting ∈ [2, 0] := hnesting ▸ List.mem_map_of_mem hroot
    rcases List.mem_pair.mp hmem with h | h <;> omega
  exact ⟨d, hread, hplaced, hnesting,
    (accepted_iff_wellFormed "m" hread hplaced hdepth).mp ⟨m, hparse⟩⟩

end Concord
