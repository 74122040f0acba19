import Concord.Proofs.Locality
import Concord.Proofs.Precedence

/-! The walk starts with the fields of a payload, and from a field that is not cut off it goes to
the members of an object and to the items of an array, together with those who have them. What it
finds at a field that it visits is reported. -/
namespace Concord.Comparison

/-- The walk through a payload visits a field, at a path and with those who have the field. -/
inductive Visited (fields : Payload) (ps : List Participant) :
    String → List Participant → FieldSchema → Prop
  | field {f : FieldSchema} (hf : f ∈ fields) :
    Visited fields ps (FieldPath.join "" f.name) (carriers (fields.map (·.name)) f ps) f
  | member {path : String} {qs : List Participant} {f c : FieldSchema}
    (h : Visited fields ps path qs f) (htype : f.type = .object) (huncut : f.truncated = false)
    (hc : c ∈ f.children) :
    Visited fields ps (FieldPath.join path c.name)
      (carriers (f.children.map (·.name)) c (qs.filter (·.shape.kind = .object))) c
  | item {path : String} {qs : List Participant} {f i : FieldSchema}
    (h : Visited fields ps path qs f) (htype : f.type = .array) (huncut : f.truncated = false)
    (hi : f.items = some i) :
    Visited fields ps (FieldPath.join path "[]") (qs.filterMap fun q => q.shape.items.map q.inside) i

section Walk

variable {x : Exchange} {fields : Payload} {ps qs : List Participant} {path : String}
  {f : FieldSchema} {y : Finding}

theorem mem_objectFindings (hf : f ∈ fields) (hy : y ∈ fieldFindings x (FieldPath.join path f.name)
      (carriers (fields.map (·.name)) f ps) f) :
    y ∈ objectFindings x fields path ps
      (memberFindings x (fields.map (·.name)) path ps fields) := by
  have hmembers : y ∈ memberFindings x (fields.map (·.name)) path ps fields := by
    rw [memberFindings_eq]
    exact List.mem_flatMap.mpr ⟨f, hf, List.mem_append_right _ hy⟩
  have hfields : fields.isEmpty = false := List.isEmpty_eq_false_iff.mpr (List.ne_nil_of_mem hf)
  rw [objectFindings, hfields]
  exact List.mem_append_right _ (List.mem_append_left _ hmembers)

theorem Visited.mem_payloadFindings (h : Visited fields ps path qs f)
    (hy : y ∈ fieldFindings x path qs f) : y ∈ payloadFindings x fields ps := by
  induction h with
  | field hf =>
    rw [payloadFindings_eq]
    exact mem_objectFindings hf hy
  | member _ htype huncut hc ih =>
    apply ih
    rw [fieldFindings_object huncut htype]
    exact List.mem_append_right _ (mem_objectFindings hc hy)
  | item _ htype huncut hi ih =>
    apply ih
    rw [fieldFindings_array huncut htype hi]
    exact List.mem_append_right _ hy

end Walk

abbrev exchangeOf (conventions : Conventions) (contract : Contract) (e : Endpoint)
    (payload : PayloadKind) : Exchange :=
  ⟨conventions, contract.id, e.id, payload⟩

section Endpoint

variable {conventions : Conventions} {contract : Contract} {e : Endpoint} {bindings : List Binding}
  {payload : PayloadKind} {fields : Payload} {path : String} {qs : List Participant} {f : FieldSchema}

theorem Visited.mem_compareEndpoint {m : Mismatch}
    (h : Visited fields (participants payload bindings) path qs f)
    (hfields : declaredFields? e payload = some fields)
    (hm : m ∈ fieldMismatches (exchangeOf conventions contract e payload) f path qs) :
    m ∈ compareEndpoint conventions contract e bindings := by
  have hfound : m ∈ undrifted (findingsOn conventions contract e bindings payload) := by
    rw [mem_undrifted, findingsOn, hfields]
    apply h.mem_payloadFindings
    rw [fieldFindings_split]
    exact List.mem_append_left _ (List.mem_map_of_mem hm)
  have hundrifted : m ∈ undriftedMismatches conventions contract e bindings := by
    rw [undriftedMismatches_eq, List.mem_append]
    cases payload with
    | request => exact .inl hfound
    | response => exact .inr hfound
  exact List.mem_of_mem_filter hundrifted

theorem Visited.mem_of_firstMismatch? {p : Participant} {m : Mismatch}
    (h : Visited fields (participants payload bindings) path qs f)
    (hfields : declaredFields? e payload = some fields) (hp : p ∈ qs)
    (hm : firstMismatch? (exchangeOf conventions contract e payload) f path qs p = some m) :
    m ∈ compareEndpoint conventions contract e bindings ∧ m.field = path := by
  have hown : m ∈ fieldMismatches (exchangeOf conventions contract e payload) f path qs :=
    (fieldMismatches_perm _ f path qs).mem_iff.mpr (List.mem_filterMap.mpr ⟨p, hp, hm⟩)
  exact ⟨h.mem_compareEndpoint hfields hown, (onField_of_firstMismatch? hp hm).field⟩

/-- A participant is told about a visited field exactly if one of its checks finds something. -/
theorem Visited.told_iff {p : Participant}
    (h : Visited fields (participants payload bindings) path qs f)
    (hfields : declaredFields? e payload = some fields) (hp : p ∈ qs) :
    (∃ m ∈ compareEndpoint conventions contract e bindings, m.field = path ∧
        firstMismatch? (exchangeOf conventions contract e payload) f path qs p = some m) ↔
      (firstMismatch? (exchangeOf conventions contract e payload) f path qs p).isSome := by
  rw [Option.isSome_iff_exists]
  refine exists_congr fun m => ⟨fun hm => hm.2.2, fun hm => ?_⟩
  obtain ⟨hreported, hfield⟩ := h.mem_of_firstMismatch? hfields hp hm
  exact ⟨hreported, hfield, hm⟩

end Endpoint

end Concord.Comparison
