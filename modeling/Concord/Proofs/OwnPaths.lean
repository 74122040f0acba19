import Mathlib.Data.List.Nodup
import Concord.Proofs.Acceptance
import Concord.Proofs.BasePaths
import Concord.Proofs.Roles

/-! Endpoints of a contract are accepted if they are written differently, while calls are matched by
the segments of the path, read in several ways. So a path may be read as that of two endpoints. -/
namespace Concord

open Route Text

/-- The endpoints of a contract have known methods and are written differently, and its parties are known
services. -/
structure Contract.Sound (known : List String) (c : Contract) : Prop where
  parties : ∀ service ∈ c.producer :: c.consumers, service ∈ known
  methods : ∀ e ∈ c.endpoints, e.method ∈ methods
  endpoints_apart : (c.endpoints.map (·.id)).Nodup

section Built

variable {x : Expansion} {contract : String} {known seen : List String}

theorem buildEndpoints_fresh {docs : List EndpointDoc} {es : List Endpoint}
    (h : buildEndpoints x contract seen docs = .ok es) :
    Fresh seen (es.map (·.id)) ∧ ∀ e ∈ es, e.method ∈ methods := by
  induction docs generalizing seen es with
  | nil =>
    obtain rfl : [] = es := Except.ok.inj h
    simp [Fresh]
  | cons d docs ih =>
    obtain ⟨e, he, h⟩ := bind_eq_ok h
    split at h
    · exact absurd h throw_ne_ok
    · next hseen =>
      obtain ⟨rest, hrest, h⟩ := bind_eq_ok h
      obtain rfl := Except.ok.inj h
      obtain ⟨hfresh, hmethods⟩ := ih hrest
      rw [List.map_cons, fresh_cons_iff]
      exact ⟨⟨by simpa using hseen, hfresh⟩,
        List.forall_mem_cons.mpr ⟨(buildEndpoint_id_method he).2, hmethods⟩⟩

theorem buildContract_sound {d : ContractDoc} {c : Contract} (h : buildContract x known d = .ok c) :
    c.Sound known ∧ c.id = d.id := by
  unfold buildContract at h
  split at h
  · exact absurd h throw_ne_ok
  · next hparties =>
    obtain ⟨direction, -, h⟩ := bind_eq_ok h
    obtain ⟨verification, -, h⟩ := bind_eq_ok h
    obtain ⟨endpoints, hendpoints, h⟩ := bind_eq_ok h
    obtain rfl := Except.ok.inj h
    obtain ⟨hfresh, hmethods⟩ := buildEndpoints_fresh hendpoints
    refine ⟨⟨?_, hmethods, fresh_nil_iff.mp hfresh⟩, rfl⟩
    simpa [List.find?_eq_none] using hparties

theorem buildContracts_fresh {docs : List ContractDoc} {cs : List Contract}
    (h : buildContracts x known seen docs = .ok cs) :
    Fresh seen (cs.map (·.id)) ∧ ∀ c ∈ cs, c.Sound known := by
  induction docs generalizing seen cs with
  | nil =>
    obtain rfl : [] = cs := Except.ok.inj h
    simp [Fresh]
  | cons d docs ih =>
    rw [buildContracts] at h
    split at h
    · exact absurd h throw_ne_ok
    · next hseen =>
      obtain ⟨c, hc, h⟩ := bind_eq_ok h
      obtain ⟨rest, hrest, h⟩ := bind_eq_ok h
      obtain rfl := Except.ok.inj h
      obtain ⟨hsound, hid⟩ := buildContract_sound hc
      obtain ⟨hfresh, hsounds⟩ := ih hrest
      rw [List.map_cons, fresh_cons_iff, hid]
      exact ⟨⟨by simpa using hseen, hfresh⟩, List.forall_mem_cons.mpr ⟨hsound, hsounds⟩⟩

theorem sound_of_parse {text path : String} {depth : Nat} {m : Manifest}
    (h : Manifest.parse text path depth = .ok m) :
    (m.contracts.map (·.id)).Nodup ∧ ∀ c ∈ m.contracts, c.Sound (m.services.map (·.id)) := by
  unfold Manifest.parse at h
  split at h
  · cases h
  · obtain ⟨services, -, h⟩ := bind_eq_ok h
    obtain ⟨_, -, h⟩ := bind_eq_ok h
    obtain ⟨_, -, h⟩ := bind_eq_ok h
    obtain ⟨contracts, hcontracts, h⟩ := bind_eq_ok h
    obtain ⟨conventions, -, h⟩ := bind_eq_ok h
    obtain rfl := Except.ok.inj h
    obtain ⟨hfresh, hsound⟩ := buildContracts_fresh hcontracts
    exact ⟨fresh_nil_iff.mp hfresh, hsound⟩

end Built

theorem Contract.Sound.isSome_service? {m : Manifest} {c : Contract} {service : String}
    (h : c.Sound (m.services.map (·.id))) (hparty : c.rolesOf service ≠ []) :
    (m.service? service).isSome := by
  have hmem : service ∈ c.producer :: c.consumers := by
    by_contra hnot
    rw [List.mem_cons, not_or] at hnot
    exact hparty (by simp [Contract.rolesOf, Ne.symm hnot.1, hnot.2])
  obtain ⟨s, hs, rfl⟩ := List.mem_map.mp (h.parties service hmem)
  exact List.find?_isSome.mpr ⟨s, hs, beq_self_eq_true _⟩

theorem exists_roleOn? {c : Contract} {service : String} (side : Side)
    (h : c.rolesOf service ≠ []) : ∃ role, c.roleOn? service side = some role := by
  rcases rolesOf_cases c service with hnone | ⟨one, hone⟩ | hboth
  · exact absurd hnone h
  · exact ⟨one, by simp [Contract.roleOn?, hone]⟩
  · cases side with
    | server => exact ⟨c.serverRole, by simp [Contract.roleOn?, hboth]⟩
    | client => exact ⟨c.serverRole.opposite, by simp [Contract.roleOn?, hboth]⟩

/-- The path of an endpoint is read as that of another one: the segments are the same, or they are
after the base path of a server, or after parameters at the start. -/
structure Manifest.ReadsAs (m : Manifest) (c : Contract) (e e' : Endpoint) : Prop where
  method : e'.method = e.method
  path : segments e'.path = segments e.path ∨
    (∃ s, m.Serves c s ∧ segments e.path = s.baseSegments ++ segments e'.path ∧
      segments e'.path ≠ []) ∨
    segments e'.path = (segments e.path).dropWhile (· == .param)

section ReadsAs

variable {m : Manifest} {c : Contract} {e e' : Endpoint}

theorem Manifest.ReadsAs.refl (m : Manifest) (c : Contract) (e : Endpoint) : m.ReadsAs c e e :=
  ⟨rfl, .inl rfl⟩

theorem asciiSame_methods_iff {a b : String} (ha : a ∈ methods) (hb : b ∈ methods) :
    asciiSame a.toList b.toList = true ↔ b = a := by
  have hall : ∀ a ∈ methods, ∀ b ∈ methods, (asciiSame a.toList b.toList = true ↔ b = a) := by
    decide +kernel
  exact hall a ha b hb

theorem mem_pathVariants_iff {path : String} {v : List Segment} :
    v ∈ m.pathVariants c path ↔ v = segments path ∨
      (∃ s, m.Serves c s ∧ segments path = s.baseSegments ++ v ∧ v ≠ []) ∨
      v = (segments path).dropWhile (· == .param) := by
  constructor
  · rw [mem_pathVariants]
    rintro (h | ⟨s, hs, b, hb, hpath, hv⟩ | ⟨h, -⟩)
    · exact .inl h
    · exact .inr (.inl ⟨s, hs, by simpa [Service.baseSegments, hb] using hpath, hv⟩)
    · exact .inr (.inr h)
  · rintro (h | ⟨s, hs, hpath, hv⟩ | h)
    · exact mem_pathVariants.mpr (.inl h)
    · exact mem_pathVariants_of_base hs hpath hv
    · -- Where no parameter is dropped this is the path as it is.
      have hsuffix : v <:+ segments path := h ▸ List.dropWhile_suffix _
      rw [mem_pathVariants]
      rcases hsuffix.length_le.lt_or_eq with hlt | heq
      · exact .inr (.inr ⟨h, hlt⟩)
      · exact .inl (hsuffix.eq_of_length heq)

theorem answers_exact_iff (he : e.method ∈ methods) (he' : e'.method ∈ methods) :
    m.Answers (some e.method) e.path .exact ⟨c, e'⟩ ↔ m.ReadsAs c e e' := by
  have hmethod := asciiSame_methods_iff he he'
  have hpath : (∃ v ∈ m.pathVariants c e.path, MatchQuality.exact.Matches v (segments e'.path)) ↔
      segments e'.path ∈ m.pathVariants c e.path := by
    simp [MatchQuality.Matches]
  constructor
  · rintro ⟨h, hv⟩
    exact ⟨hmethod.mp (h _ rfl), mem_pathVariants_iff.mp (hpath.mp hv)⟩
  · rintro ⟨h, hv⟩
    refine ⟨?_, hpath.mpr (mem_pathVariants_iff.mpr hv)⟩
    rintro x ⟨⟩
    exact hmethod.mpr h

end ReadsAs

theorem filter_eq_singleton_of_nodup {α : Type} {p : α → Prop} [DecidablePred p] {l : List α} {a : α}
    (hl : l.Nodup) (ha : a ∈ l) (hp : p a) :
    l.filter (p ·) = [a] ↔ ∀ b ∈ l, b ≠ a → ¬p b := by
  constructor
  · intro h b hb hne hpb
    have hmem : b ∈ l.filter (p ·) := List.mem_filter.mpr ⟨hb, decide_eq_true hpb⟩
    rw [h] at hmem
    exact hne (List.mem_singleton.mp hmem)
  · intro h
    obtain ⟨before, after, rfl⟩ := List.append_of_mem ha
    have hnot : a ∉ before ++ after := (List.nodup_cons.mp (List.perm_middle.nodup_iff.mp hl)).1
    refine filter_eq_singleton_iff.mpr ⟨hp, before, after, rfl, fun b hb => ?_⟩
    refine h b ?_ (ne_of_mem_of_not_mem hb hnot)
    exact List.perm_middle.mem_iff.mpr (List.mem_cons_of_mem a hb)

theorem one_lt_length_of_mem {α : Type} {l : List α} {a b : α} (ha : a ∈ l) (hb : b ∈ l)
    (hne : a ≠ b) : 1 < l.length := by
  rcases l with _ | ⟨x, _ | ⟨y, l⟩⟩
  · cases ha
  · exact absurd ((List.mem_singleton.mp ha).trans (List.mem_singleton.mp hb).symm) hne
  · simp

section Call

variable {m : Manifest} {c : Contract} {e : Endpoint} {service : String} {o : Observation}

theorem partyContracts_eq (hapart : (m.contracts.map (·.id)).Nodup) (hc : c ∈ m.contracts)
    (hparty : c.rolesOf service ≠ [])
    (halone : ∀ c' ∈ m.contracts, c' ≠ c → c'.rolesOf service = []) :
    (m.contracts.filter fun c => !(c.rolesOf service).isEmpty) = [c] := by
  have h := (filter_eq_singleton_of_nodup (p := fun c : Contract => c.rolesOf service ≠ [])
    (List.Nodup.of_map _ hapart) hc hparty).mpr fun c' hc' hne hroles => hroles (halone c' hc' hne)
  rw [← h]
  refine List.filter_congr fun c' _ => ?_
  cases c'.rolesOf service <;> simp

/-- The candidates for a call with the path of an endpoint are those that the path is read as. -/
theorem bestCandidates_own (hsound : c.Sound (m.services.map (·.id))) (he : e ∈ c.endpoints) :
    bestCandidates (m.candidates [c] (some e.method) e.path) =
      (c.endpoints.map (Candidate.mk c)).filter
        (m.Answers (some e.method) e.path .exact ·) := by
  have hown : m.Answers (some e.method) e.path .exact ⟨c, e⟩ :=
    (answers_exact_iff (hsound.methods e he) (hsound.methods e he)).mpr (.refl m c e)
  have hends : endpointsOf [c] = c.endpoints.map (Candidate.mk c) := by simp [endpointsOf]
  have hbest : m.BestQuality [c] (some e.method) e.path .exact := by
    refine ⟨⟨⟨c, e⟩, hends ▸ List.mem_map_of_mem he, hown⟩, ?_⟩
    rintro _ _ _ _ ⟨-, h⟩
    cases h
  rw [bestCandidates_eq hbest, hends]

theorem mem_ownCandidates (hsound : c.Sound (m.services.map (·.id))) (he : e ∈ c.endpoints)
    {x : Candidate} :
    x ∈ bestCandidates (m.candidates [c] (some e.method) e.path) ↔
      x.contract = c ∧ x.endpoint ∈ c.endpoints ∧ m.ReadsAs c e x.endpoint := by
  obtain ⟨c', e'⟩ := x
  rw [bestCandidates_own hsound he, List.mem_filter, List.mem_map, decide_eq_true_iff]
  constructor
  · rintro ⟨⟨e'', he'', heq⟩, hanswers⟩
    obtain ⟨rfl, rfl⟩ := Candidate.mk.inj heq
    exact ⟨rfl, he'', (answers_exact_iff (hsound.methods e he) (hsound.methods _ he'')).mp hanswers⟩
  · rintro ⟨rfl, he', hreads⟩
    exact ⟨⟨e', he', rfl⟩,
      (answers_exact_iff (hsound.methods e he) (hsound.methods e' he')).mpr hreads⟩

theorem bestCandidates_own_iff (hsound : c.Sound (m.services.map (·.id))) (he : e ∈ c.endpoints) :
    bestCandidates (m.candidates [c] (some e.method) e.path) = [⟨c, e⟩] ↔
      ∀ e' ∈ c.endpoints, e' ≠ e → ¬m.ReadsAs c e e' := by
  have hmem (e' : Endpoint) := mem_ownCandidates (m := m) hsound he (x := ⟨c, e'⟩)
  constructor
  · intro h e' he' hne hreads
    have hx := (hmem e').mpr ⟨rfl, he', hreads⟩
    rw [h, List.mem_singleton] at hx
    exact hne (Candidate.mk.inj hx).2
  · intro h
    have hnodup : (c.endpoints.map (Candidate.mk c)).Nodup :=
      (List.Nodup.of_map _ hsound.endpoints_apart).map fun _ _ heq => (Candidate.mk.inj heq).2
    have hown := (hmem e).mpr ⟨rfl, he, .refl m c e⟩
    rw [bestCandidates_own hsound he] at hown ⊢
    obtain ⟨hlisted, hanswers⟩ := List.mem_filter.mp hown
    refine (filter_eq_singleton_of_nodup hnodup hlisted (of_decide_eq_true hanswers)).mpr ?_
    intro x hx hne hx'
    obtain ⟨e', he', rfl⟩ := List.mem_map.mp hx
    refine h e' he' (fun heq => hne (heq ▸ rfl)) ?_
    exact (answers_exact_iff (hsound.methods e he) (hsound.methods e' he')).mp hx'

variable {roots : List Root} {maxDepth : Nat} {files : List FileExtraction} {f : FileExtraction}

theorem fate_of_bestEndpoint_ok {role : Role} (howner : m.owner? roots f = some service)
    (hhint : o.hint = none) (hservice : (m.service? service).isSome)
    (hcontracts : (m.contracts.filter fun c => !(c.rolesOf service).isEmpty) = [c])
    (hrole : c.roleOn? service o.side = some role) (hbest : m.bestEndpoint [c] o = .ok ⟨c, e⟩) :
    ∃ b, m.fate roots maxDepth files f o = .bound b ∧
      b.key = ⟨c.id, e.id, service, role, o.side, o.inTest⟩ := by
  have htarget : m.target o service = .bound ⟨c, e⟩ role := by
    simp [Manifest.target, Manifest.openTarget, hhint, hcontracts, hbest, hrole]
  simp [Manifest.fate, Manifest.outcomeIn, Manifest.serviceOf?, Manifest.outcome, hhint, howner,
    Option.ne_none_iff_isSome.mpr hservice, htarget, Binding.ofObservation]

theorem fate_of_bestEndpoint_error {u : Unbound} (howner : m.owner? roots f = some service)
    (hhint : o.hint = none) (hservice : (m.service? service).isSome)
    (hcontracts : (m.contracts.filter fun c => !(c.rolesOf service).isEmpty) = [c])
    (hbest : m.bestEndpoint [c] o = .error u) :
    m.fate roots maxDepth files f o = .unbound (u.diagnostic o.location) := by
  have htarget : m.target o service = .unbound u := by
    simp [Manifest.target, Manifest.openTarget, hhint, hcontracts, hbest]
  simp [Manifest.fate, Manifest.outcomeIn, Manifest.serviceOf?, Manifest.outcome, hhint, howner,
    Option.ne_none_iff_isSome.mpr hservice, htarget]

end Call

/-- A call without a hint that a service makes with the method and the path of an endpoint, as they are
written in the one contract of the service, is bound to the endpoint exactly if the path is not read as
that of another endpoint too. Otherwise it is reported as matching all of them. -/
theorem own_path_bound_iff {text manifestPath : String} {depth maxDepth : Nat} {m : Manifest}
    {c : Contract} {e : Endpoint} {service : String} {roots : List Root}
    {files : List FileExtraction} {f : FileExtraction} {o : Observation}
    (hparse : Manifest.parse text manifestPath depth = .ok m) (hc : c ∈ m.contracts)
    (he : e ∈ c.endpoints) (hparty : c.rolesOf service ≠ [])
    (halone : ∀ c' ∈ m.contracts, c' ≠ c → c'.rolesOf service = [])
    (howner : m.owner? roots f = some service) (hhint : o.hint = none)
    (hmethod : o.method = some e.method) (hpath : o.path = some e.path) :
    ((∃ role ∈ c.rolesOf service, ∃ b, m.fate roots maxDepth files f o = .bound b ∧
        b.key = ⟨c.id, e.id, service, role, o.side, o.inTest⟩) ↔
      ∀ e' ∈ c.endpoints, e' ≠ e → ¬m.ReadsAs c e e') ∧
    ((∃ e' ∈ c.endpoints, e' ≠ e ∧ m.ReadsAs c e e') →
      ∃ cs, m.fate roots maxDepth files f o =
          .unbound ((Unbound.severalMatches e.id cs).diagnostic o.location) ∧
        ∀ x, x ∈ cs ↔ x.contract = c ∧ x.endpoint ∈ c.endpoints ∧ m.ReadsAs c e x.endpoint) := by
  obtain ⟨hapart, hsounds⟩ := sound_of_parse hparse
  have hsound := hsounds c hc
  have hservice := hsound.isSome_service? hparty
  have hcontracts := partyContracts_eq hapart hc hparty halone
  have houtcome := @bestEndpoint_outcome m [c] o _ hpath
  rw [hmethod] at houtcome
  have hseveral (h : ∃ e' ∈ c.endpoints, e' ≠ e ∧ m.ReadsAs c e e') :
      m.fate roots maxDepth files f o = .unbound ((Unbound.severalMatches e.id
        (bestCandidates (m.candidates [c] (some e.method) e.path))).diagnostic o.location) := by
    obtain ⟨e', he', hne, hreads⟩ := h
    refine fate_of_bestEndpoint_error howner hhint hservice hcontracts
      ((houtcome.2.2 _).mpr ⟨rfl, ?_⟩)
    have hmem (e' : Endpoint) := mem_ownCandidates (m := m) hsound he (x := ⟨c, e'⟩)
    refine one_lt_length_of_mem ((hmem e').mpr ⟨rfl, he', hreads⟩)
      ((hmem e).mpr ⟨rfl, he, .refl m c e⟩) fun heq => hne (Candidate.mk.inj heq).2
  constructor
  · constructor
    · rintro ⟨role, -, b, hbound, -⟩ e' he' hne hreads
      rw [hseveral ⟨e', he', hne, hreads⟩] at hbound
      cases hbound
    · intro h
      obtain ⟨role, hrole⟩ := exists_roleOn? o.side hparty
      exact ⟨role, mem_rolesOf_of_roleOn? hrole,
        fate_of_bestEndpoint_ok howner hhint hservice hcontracts hrole
          ((houtcome.1 _).mpr ((bestCandidates_own_iff hsound he).mpr h))⟩
  · intro h
    exact ⟨_, hseveral h, fun x => mem_ownCandidates hsound he⟩

/-- A shop below `/v1` that lists its orders at two paths, one of which starts with `/v1` again. -/
def versionedShop : List Char :=
  ["services: [\x7bid: shop, language: go, base_url: http://shop/v1\x7d, ",
    "\x7bid: web, language: go\x7d]\n",
    "contracts: [\x7bid: c, producer: shop, consumers: [web], endpoints: [",
    "\x7bmethod: GET, path: /v1/orders\x7d, ",
    "\x7bmethod: GET, path: /orders\x7d]\x7d]\n"].flatMap String.toList

def webFile : FileExtraction := ⟨"web/api.go", .go, false, [], []⟩

def webCall (path : String) : Observation :=
  { Observation.at .client default default with method := some "GET", path := some path }

theorem versionedShop_parsed : ∃ m, Manifest.parse (String.ofList versionedShop) "m" 8 = .ok m ∧
    m.owner? [] webFile = some "web" ∧
    m.contracts.map (fun c => (c.rolesOf "web", c.endpoints.map fun e => (e.method, e.path))) =
      [([.consumer], [("GET", "/v1/orders"), ("GET", "/orders")])] ∧
    m.contracts.map (fun c => (m.pathVariants c "/v1/orders", m.pathVariants c "/orders")) =
      [([segments "/v1/orders", segments "/orders"], [segments "/orders"])] := by
  have hrun : ((Manifest.parse (String.ofList versionedShop) "m" 8).toOption.any fun m =>
      decide (m.owner? [] webFile = some "web" ∧
        m.contracts.map (fun c => (c.rolesOf "web", c.endpoints.map fun e => (e.method, e.path))) =
          [([.consumer], [("GET", "/v1/orders"), ("GET", "/orders")])] ∧
        m.contracts.map (fun c => (m.pathVariants c "/v1/orders", m.pathVariants c "/orders")) =
          [([segments "/v1/orders", segments "/orders"], [segments "/orders"])])) = true := by
    rw [Manifest.parse, ManifestDoc.read?, String.toList_ofList]
    conv in Yaml.Document.read? _ =>
      unfold versionedShop
      repeat rw [List.flatMap_cons, String.toList_ofList]
    decide +kernel
  cases hparse : Manifest.parse (String.ofList versionedShop) "m" 8 with
  | error e =>
    rw [hparse] at hrun
    cases hrun
  | ok m =>
    rw [hparse] at hrun
    exact ⟨m, rfl, of_decide_eq_true hrun⟩

/-- Of the two ways to list the orders the web can call only one. -/
theorem versioned_orders_ambiguous :
    ∃ m c, Manifest.parse (String.ofList versionedShop) "m" 8 = .ok m ∧ m.contracts = [c] ∧
      c.endpoints.map (·.id) = ["GET /v1/orders", "GET /orders"] ∧
      (∃ b, m.fate [] 8 [webFile] webFile (webCall "/orders") = .bound b ∧
        b.key = ⟨c.id, "GET /orders", "web", .consumer, .client, false⟩) ∧
      ∃ cs, m.fate [] 8 [webFile] webFile (webCall "/v1/orders") =
          .unbound ((Unbound.severalMatches "GET /v1/orders" cs).diagnostic default) ∧
        cs.map (·.endpoint.id) ⊇ ["GET /v1/orders", "GET /orders"] := by
  obtain ⟨m, hparse, howner, hshape, hreadings⟩ := versionedShop_parsed
  obtain ⟨c, hc, hc'⟩ := List.map_eq_singleton_iff.mp hshape
  rw [hc, List.map_singleton, List.singleton_inj] at hreadings
  obtain ⟨hroles, hendpoints⟩ := Prod.mk.inj hc'
  obtain ⟨hversioned, hplain⟩ := Prod.mk.inj hreadings
  obtain ⟨versioned, rest, hrest, hv, hmap⟩ := List.map_eq_cons_iff.mp hendpoints
  obtain ⟨plain, rfl, hp⟩ := List.map_eq_singleton_iff.mp hmap
  obtain ⟨hvm, hvp⟩ := Prod.mk.inj hv
  obtain ⟨hpm, hpp⟩ := Prod.mk.inj hp
  have hmem : c ∈ m.contracts := by simp [hc]
  have hparty : c.rolesOf "web" ≠ [] := by simp [hroles]
  have halone : ∀ c' ∈ m.contracts, c' ≠ c → c'.rolesOf "web" = [] := by simp [hc]
  have hvid : versioned.id = "GET /v1/orders" := by rw [Endpoint.id, hvm, hvp]; rfl
  have hpid : plain.id = "GET /orders" := by rw [Endpoint.id, hpm, hpp]; rfl
  have hapart : segments "/v1/orders" ≠ segments "/orders" := by decide +kernel
  have hne : plain ≠ versioned := fun h => by simp [h, hvid] at hpid
  have hreads : m.ReadsAs c versioned plain := by
    refine ⟨hpm.trans hvm.symm, mem_pathVariants_iff.mp ?_⟩
    simp [hvp, hpp, hversioned]
  have hnot : ¬m.ReadsAs c plain versioned := by
    rintro ⟨-, h⟩
    have hmem := mem_pathVariants_iff.mpr h
    rw [hvp, hpp, hplain, List.mem_singleton] at hmem
    exact hapart hmem
  have hcall (e : Endpoint) (he : e ∈ c.endpoints) (hmethod : e.method = "GET") :=
    @own_path_bound_iff _ _ _ 8 m c e "web" [] [webFile] webFile (webCall e.path) hparse hmem he hparty
      halone howner rfl (congrArg some hmethod.symm) rfl
  refine ⟨m, c, hparse, hc, by simp [hrest, hvid, hpid], ?_, ?_⟩
  · obtain ⟨role, hrole, b, hbound, hkey⟩ := (hcall plain (by simp [hrest]) hpm).1.mpr (by
      intro e' he' hne' hreads'
      rw [hrest, List.mem_pair] at he'
      rcases he' with rfl | rfl
      · exact hnot hreads'
      · exact hne' rfl)
    rw [hroles, List.mem_singleton] at hrole
    rw [hpp] at hbound
    exact ⟨b, hbound, by rw [hkey, hrole, hpid]; rfl⟩
  · obtain ⟨cs, hunbound, hcs⟩ := (hcall versioned (by simp [hrest]) hvm).2
      ⟨plain, by simp [hrest], hne, hreads⟩
    rw [hvp, hvid] at hunbound
    refine ⟨cs, hunbound, ?_⟩
    have hown := (hcs ⟨c, versioned⟩).mpr ⟨rfl, by simp [hrest], .refl m c versioned⟩
    have hother := (hcs ⟨c, plain⟩).mpr ⟨rfl, by simp [hrest], hreads⟩
    simp only [List.cons_subset, List.nil_subset, and_true]
    exact ⟨List.mem_map.mpr ⟨_, hown, hvid⟩, List.mem_map.mpr ⟨_, hother, hpid⟩⟩

end Concord
