import Concord.Proofs.Keys
import Concord.Proofs.Mirrors

/-! Where the code mirrors the manifest, the comparison of a contract finds nothing but gaps in
coverage: it is silent exactly if the status codes are handled, both sides have tests and signatures
are checked. -/
namespace Concord.Comparison

variable {manifest : Manifest} {contract : Contract} {e : Endpoint} {bindings : List Binding}

def productionAt (e : Endpoint) (bindings : List Binding) : List Binding :=
  (bindings.filter (·.key.endpoint == e.id)).filter (!·.key.inTest)

/-- Whether an endpoint declares the number that code branches on or writes, if it is one. -/
def declares (e : Endpoint) : StatusMatch → Bool
  | .code c => (declaredCodes e).contains c
  | .success => true

/-- The status codes of an endpoint are the ones that its production bindings deal with: if there are
clients they handle each that is declared, and nobody uses others. -/
@[mk_iff]
structure CodesCovered (e : Endpoint) (production : List Binding) : Prop where
  handled : ∀ client ∈ production, client.key.side = .client → ∀ code ∈ declaredCodes e,
    ∃ b ∈ production, b.key.side = .client ∧
      ∃ branch ∈ b.statusCodes, Status.covers branch.code code = true
  declared : declaredCodes e ≠ [] → ∀ b ∈ production, ∀ branch ∈ b.statusCodes,
    declares e branch.code = true

theorem firstLocation?_eq_none_iff {ls : List Location} : firstLocation? ls = none ↔ ls = [] := by
  cases ls <;> simp [firstLocation?]

theorem unhandledCodes_eq_nil_iff :
    unhandledCodes contract e bindings = [] ↔
      ∀ client ∈ bindings, client.key.side = .client → ∀ code ∈ declaredCodes e,
        ∃ b ∈ bindings, b.key.side = .client ∧
          ∃ branch ∈ b.statusCodes, Status.covers branch.code code = true := by
  unfold unhandledCodes
  dsimp only
  split
  · next hnone =>
    -- there is no client
    rw [firstLocation?_eq_none_iff, List.map_eq_nil_iff, List.filter_eq_nil_iff] at hnone
    exact iff_of_true rfl fun client hmem hside => absurd (decide_eq_true hside) (hnone client hmem)
  · next first hfirst =>
    have hclients : bindings.filter (·.key.side = .client) ≠ [] := by
      intro hnil
      rw [hnil] at hfirst
      cases hfirst
    obtain ⟨client, hclient⟩ := List.exists_mem_of_ne_nil _ hclients
    obtain ⟨hmem, hside⟩ := List.mem_filter.mp hclient
    have hcovered (code : Nat) : ((bindings.filter (·.key.side = .client)).flatMap
        (·.statusCodes)).any (Status.covers ·.code code) = true ↔
          ∃ b ∈ bindings, b.key.side = .client ∧
            ∃ branch ∈ b.statusCodes, Status.covers branch.code code = true := by
      simp
    rw [List.map_eq_nil_iff, List.filter_eq_nil_iff]
    simp only [Bool.not_eq_true', Bool.not_eq_false, hcovered]
    exact ⟨fun h _ _ _ => h, fun h => h client hmem (of_decide_eq_true hside)⟩

theorem undeclaredCodes_eq_nil_iff :
    undeclaredCodes contract e bindings = [] ↔
      ∀ b ∈ bindings, ∀ branch ∈ b.statusCodes, declares e branch.code = true := by
  unfold undeclaredCodes
  dsimp only
  rw [List.map_eq_nil_iff, Keyed.firsts_eq_nil_iff, List.flatMap_eq_nil_iff]
  refine forall₂_congr fun b hb => ?_
  rw [List.filterMap_eq_nil_iff]
  refine forall₂_congr fun branch hbranch => ?_
  cases branch.code with
  | code c => simp [declares]
  | success => simp [declares]

theorem statusMismatches_eq_nil_iff :
    statusMismatches contract e bindings = [] ↔ CodesCovered e bindings := by
  unfold statusMismatches
  split
  · next hempty =>
    have hnone : declaredCodes e = [] := List.isEmpty_iff.mp hempty
    refine iff_of_true rfl ⟨?_, fun hne => absurd hnone hne⟩
    intro client _ _ code hcode
    rw [hnone] at hcode
    cases hcode
  · next hempty =>
    have hsome : declaredCodes e ≠ [] := fun hnil => hempty (List.isEmpty_iff.mpr hnil)
    rw [List.append_eq_nil_iff, unhandledCodes_eq_nil_iff, undeclaredCodes_eq_nil_iff]
    exact ⟨fun ⟨hhandled, hdeclared⟩ => ⟨hhandled, fun _ => hdeclared⟩,
      fun h => ⟨h.handled, h.declared hsome⟩⟩

theorem mem_parties {service : String} :
    service ∈ (parties contract).map (·.1) ↔ service ∈ contract.producer :: contract.consumers := by
  rw [parties, Keyed.mem_map_firsts]
  simp

theorem dualTestMismatches_eq_nil_iff :
    dualTestMismatches manifest contract e bindings = [] ↔
      (bindings ≠ [] → ∀ service ∈ contract.producer :: contract.consumers,
        ∃ b ∈ bindings, b.key.inTest = true ∧ b.key.service = service) := by
  unfold dualTestMismatches
  split
  · next hempty =>
    exact iff_of_true rfl fun hne => absurd (List.isEmpty_iff.mp hempty) hne
  · next hempty =>
    have hbound : bindings ≠ [] := fun hnil => hempty (List.isEmpty_iff.mpr hnil)
    rw [List.map_eq_nil_iff, List.filter_eq_nil_iff]
    constructor
    · intro h _ service hservice
      obtain ⟨party, hparty, rfl⟩ := List.mem_map.mp (mem_parties.mpr hservice)
      simpa using h party hparty
    · intro h party hparty
      have hservice := mem_parties.mp (List.mem_map_of_mem hparty)
      simpa using h hbound _ hservice

theorem firstBinding?_eq_none_iff {bs : List Binding} : firstBinding? bs = none ↔ bs = [] := by
  cases bs <;> simp [firstBinding?]

theorem verificationMismatch?_eq_none_iff :
    verificationMismatch? contract bindings = none ↔
      (contract.verification ≠ none → handlers bindings ≠ [] →
        ∃ b ∈ handlers bindings, verifies b = true) := by
  unfold verificationMismatch?
  cases contract.verification with
  | none => simp
  | some v =>
    rw [Option.bind_some]
    split
    · next hany =>
      exact iff_of_true rfl fun _ _ => List.any_eq_true.mp hany
    · next hany =>
      rw [Option.map_eq_none_iff, firstBinding?_eq_none_iff]
      have hno : ¬∃ b ∈ handlers bindings, verifies b = true :=
        fun h => hany (List.any_eq_true.mpr h)
      simp [hno]

/-- A contract is covered: at each endpoint the status codes are dealt with and, if anyone is bound
to it, every party has a test; and if signatures are asked for, some handler checks one. -/
@[mk_iff]
structure Covered (contract : Contract) (bindings : List Binding) : Prop where
  codes : ∀ e ∈ contract.endpoints, CodesCovered e (productionAt e bindings)
  tested : ∀ e ∈ contract.endpoints, ∀ bound ∈ bindings, bound.key.endpoint = e.id →
    ∀ service ∈ contract.producer :: contract.consumers,
      ∃ b ∈ bindings, b.key.endpoint = e.id ∧ b.key.inTest = true ∧ b.key.service = service
  verified : contract.verification ≠ none → handlers bindings ≠ [] →
    ∃ b ∈ handlers bindings, verifies b = true

/-- The fields that the manifest declares for a payload of an endpoint. -/
def declaredFields? (e : Endpoint) : PayloadKind → Option Payload
  | .request => e.request
  | .response => e.success?

/-- A production binding whose shapes mirror the payloads of its endpoint, with evidence of signature
and time checks only, and with a casing, if any, that the values of the manifest follow. -/
@[mk_iff]
structure MirrorsEndpoint (conventions : Conventions) (e : Endpoint) (b : Binding) : Prop where
  payloads : ∀ payload, ∀ fields ∈ declaredFields? e payload, ∀ s ∈ b.shape? payload,
    mirrorsPayload fields s = true
  evidence : OnlyVerifies b
  casing : ∀ casing ∈ conventions.enumCaseOf? b.key.service, ∀ payload,
    ∀ fields ∈ declaredFields? e payload, ∀ f ∈ fields, f.every (follows casing) = true

theorem faithfulAll_of_mem_participants {x : Exchange} {fields : Payload} {p : Participant}
    (hfields : fields ∈ declaredFields? e x.payload)
    (hb : ∀ b ∈ bindings, MirrorsEndpoint x.conventions e b)
    (hp : p ∈ participants x.payload bindings) : FaithfulAll x fields p := by
  obtain ⟨b, hmem, hshape⟩ := List.mem_filterMap.mp hp
  obtain ⟨s, hs, rfl⟩ := Option.map_eq_some_iff.mp hshape
  have hroot := (hb b hmem).payloads x.payload fields hfields s hs
  rw [mirrorsPayload, Bool.and_eq_true] at hroot
  exact ⟨(hb b hmem).evidence.quiet, fun casing hcasing =>
    (hb b hmem).casing casing hcasing x.payload fields hfields, hroot.2⟩

theorem compareEndpoint_eq_nil {conventions : Conventions}
    (hunits : ∀ cls, conventions.forClass? cls = none) (he : e.NamesApart)
    (hb : ∀ b ∈ bindings, MirrorsEndpoint conventions e b) :
    compareEndpoint conventions contract e bindings = [] := by
  have hpayload (payload : PayloadKind) (fields : Payload)
      (hfields : fields ∈ declaredFields? e payload) (hnames : DistinctNames fields) :
      payloadFindings ⟨conventions, contract.id, e.id, payload⟩ fields
        (participants payload bindings) = [] :=
    payloadFindings_eq_nil hunits hnames fun p hp => faithfulAll_of_mem_participants hfields hb hp
  have hnone : endpointFindings conventions contract e bindings = [] := by
    unfold endpointFindings
    dsimp only
    refine List.append_eq_nil_iff.mpr ⟨?_, ?_⟩
    · cases hrequest : e.request with
      | none => rfl
      | some fields => exact hpayload .request fields hrequest (he.request fields hrequest)
    · cases hresponse : e.success? with
      | none => rfl
      | some fields => exact hpayload .response fields hresponse (he.success fields hresponse)
  rw [compareEndpoint, hnone]
  rfl

/-- Code that mirrors a contract whose manifest has no conventions on units. -/
@[mk_iff]
structure Mirrored (conventions : Conventions) (contract : Contract) (bindings : List Binding) :
    Prop where
  units : ∀ cls, conventions.forClass? cls = none
  endpoints : ∀ e ∈ contract.endpoints, ∀ b ∈ productionAt e bindings,
    MirrorsEndpoint conventions e b

theorem tested_iff :
    dualTestMismatches manifest contract e (bindings.filter (·.key.endpoint == e.id)) = [] ↔
      ∀ bound ∈ bindings, bound.key.endpoint = e.id →
        ∀ service ∈ contract.producer :: contract.consumers,
          ∃ b ∈ bindings, b.key.endpoint = e.id ∧ b.key.inTest = true ∧ b.key.service = service := by
  have hmem {b : Binding} : b ∈ bindings.filter (·.key.endpoint == e.id) ↔
      b ∈ bindings ∧ b.key.endpoint = e.id := by
    rw [List.mem_filter, beq_iff_eq]
  rw [dualTestMismatches_eq_nil_iff]
  constructor
  · intro h bound hbound hendpoint service hservice
    have hne := List.ne_nil_of_mem (hmem.mpr ⟨hbound, hendpoint⟩)
    obtain ⟨b, hb, htest⟩ := h hne service hservice
    exact ⟨b, (hmem.mp hb).1, (hmem.mp hb).2, htest⟩
  · intro h hne service hservice
    obtain ⟨bound, hbound⟩ := List.exists_mem_of_ne_nil _ hne
    obtain ⟨b, hb, hendpoint, htest⟩ :=
      h bound (hmem.mp hbound).1 (hmem.mp hbound).2 service hservice
    exact ⟨b, hmem.mpr ⟨hb, hendpoint⟩, htest⟩

/-- Where production code mirrors an accepted manifest, the comparison is silent exactly if the
contract is covered. -/
theorem silent_iff_covered {text path : String} {maxDepth : Nat}
    (hparse : Manifest.parse text path maxDepth = .ok manifest)
    (hcontract : contract ∈ manifest.contracts)
    (h : Mirrored manifest.conventions contract bindings) :
    contractMismatches manifest contract bindings = [] ↔ Covered contract bindings := by
  have hendpoint (e : Endpoint) (he : e ∈ contract.endpoints) :
      endpointMismatches manifest contract e (bindings.filter (·.key.endpoint == e.id)) = [] ↔
        statusMismatches contract e (productionAt e bindings) = [] ∧
          dualTestMismatches manifest contract e (bindings.filter (·.key.endpoint == e.id)) =
            [] := by
    have hwalk : compareEndpoint manifest.conventions contract e (productionAt e bindings) = [] :=
      compareEndpoint_eq_nil h.units (namesApart_of_parse hparse hcontract e he) (h.endpoints e he)
    rw [productionAt] at hwalk
    rw [endpointMismatches, productionAt, hwalk, List.nil_append, List.append_eq_nil_iff]
  rw [contractMismatches, List.append_eq_nil_iff, List.flatMap_eq_nil_iff, Option.toList_eq_nil_iff,
    verificationMismatch?_eq_none_iff]
  constructor
  · rintro ⟨hendpoints, hverified⟩
    refine ⟨fun e he => ?_, fun e he => ?_, hverified⟩
    · exact statusMismatches_eq_nil_iff.mp ((hendpoint e he).mp (hendpoints e he)).1
    · exact tested_iff.mp ((hendpoint e he).mp (hendpoints e he)).2
  · rintro ⟨hcodes, htested, hverified⟩
    refine ⟨fun e he => (hendpoint e he).mpr ⟨?_, ?_⟩, hverified⟩
    · exact statusMismatches_eq_nil_iff.mpr (hcodes e he)
    · exact tested_iff.mpr (htested e he)

instance {P : QuantityClass → Prop} [DecidablePred P] : Decidable (∀ cls, P cls) :=
  decidable_of_iff (P .money ∧ P .weight ∧ P .dimension ∧ P .countryCode ∧ P .timestamp)
    ⟨fun ⟨h₁, h₂, h₃, h₄, h₅⟩ cls => by cases cls <;> assumption,
      fun h => ⟨h _, h _, h _, h _, h _⟩⟩

instance {P : PayloadKind → Prop} [DecidablePred P] : Decidable (∀ payload, P payload) :=
  decidable_of_iff (P .request ∧ P .response)
    ⟨fun ⟨h₁, h₂⟩ payload => by cases payload <;> assumption, fun h => ⟨h _, h _⟩⟩

instance (conventions : Conventions) (e : Endpoint) (b : Binding) :
    Decidable (MirrorsEndpoint conventions e b) :=
  decidable_of_iff' _ (mirrorsEndpoint_iff conventions e b)

instance (conventions : Conventions) (contract : Contract) (bindings : List Binding) :
    Decidable (Mirrored conventions contract bindings) :=
  decidable_of_iff' _ (mirrored_iff conventions contract bindings)

instance (e : Endpoint) (production : List Binding) : Decidable (CodesCovered e production) :=
  decidable_of_iff' _ (codesCovered_iff e production)

instance (contract : Contract) (bindings : List Binding) : Decidable (Covered contract bindings) :=
  decidable_of_iff' _ (covered_iff contract bindings)

def selfCall : List Char :=
  ["services: [\x7bid: s, language: go\x7d]\n",
    "contracts: [\x7bid: c, producer: s, ",
    "consumers: [s], direction: inbound, ",
    "verification: \x7bmethod: m, header: h\x7d, ",
    "endpoints: [\x7bmethod: PUT, path: /, ",
    "status_codes: [204], request: ",
    "\x7bfields: \x7bn: \x7btype: enum, values: [a]\x7d\x7d\x7d\x7d]\x7d]\n",
    "conventions: \x7benum_case: \x7bs: snake\x7d\x7d\n"].flatMap String.toList

def selfBinding (role : Role) (side : Side) (inTest : Bool) : Binding :=
  let field : Shape := { Shape.plain "n" .enum default with enumValues := ["a"], required := false }
  { key := ⟨"c", "PUT /", "s", role, side, inTest⟩
    request := some { Shape.plain "" .object default with children := [field] }
    response := none
    statusCodes := [⟨.code 204, default⟩]
    headersRead := []
    headersWritten := []
    evidence := [⟨.signature, none, .call, default, ""⟩]
    location := default
    locations := [] }

def selfBindings : List Binding :=
  [selfBinding .producer .client false, selfBinding .consumer .server false,
    selfBinding .producer .client true]

theorem silent_on_self_call :
    ∃ manifest contract, Manifest.parse (String.ofList selfCall) "m" 8 = .ok manifest ∧
      contract ∈ manifest.contracts ∧ contract.endpoints.map (·.id) = ["PUT /"] ∧
        Mirrored manifest.conventions contract selfBindings ∧
          contractMismatches manifest contract selfBindings = [] := by
  have hrun : ((Manifest.parse (String.ofList selfCall) "m" 8).toOption.any fun manifest =>
      manifest.contracts.any fun contract => decide (contract.endpoints.map (·.id) = ["PUT /"] ∧
        Mirrored manifest.conventions contract selfBindings ∧ Covered contract selfBindings)) =
          true := by
    rw [Manifest.parse, ManifestDoc.read?, String.toList_ofList]
    conv in Yaml.Document.read? _ =>
      unfold selfCall
      repeat rw [List.flatMap_cons, String.toList_ofList]
    decide +kernel
  cases hparse : Manifest.parse (String.ofList selfCall) "m" 8 with
  | error e =>
    rw [hparse] at hrun
    cases hrun
  | ok manifest =>
    rw [hparse] at hrun
    obtain ⟨contract, hcontract, hclean⟩ := List.any_eq_true.mp hrun
    obtain ⟨hid, hmirrored, hcovered⟩ := of_decide_eq_true hclean
    exact ⟨manifest, contract, rfl, hcontract, hid, hmirrored,
      (silent_iff_covered hparse hcontract hmirrored).mpr hcovered⟩

end Concord.Comparison
