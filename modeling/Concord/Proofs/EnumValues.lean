import Concord.Proofs.VisitedFields

/-! A value that a supplier declares is compared with the values of the manifest, in each form that
its code gives it. One that a reader declares is compared with the casing of its service only, and
the check of strictness does not tell cases apart. -/
namespace Concord.Comparison

/-- A declared value that the manifest has in another case only. -/
structure Miscased (f : FieldSchema) (p : Participant) (v : String) : Prop where
  declared : v ∈ p.shape.enumValues
  unlisted : Unlisted f p v
  similar : ∃ d ∈ f.enumValues, Text.asciiSame d.toList v.toList = true

/-- Of those who declare a value that the manifest has in another case only, a supplier is told, and a
reader exactly if it compares with a value that is not in the manifest, if a value is against the casing
of its service, or if a later check finds something. -/
theorem miscased_told_iff (conventions : Conventions) (contract : Contract) (e : Endpoint)
    (bindings : List Binding) (payload : PayloadKind) (fields : Payload) (path : String)
    (qs : List Participant) (f : FieldSchema) (p : Participant) (v : String)
    (hfields : declaredFields? e payload = some fields)
    (hvisited : Visited fields (participants payload bindings) path qs f) (hp : p ∈ qs)
    (hkind : compatible f p.shape = true) (hv : Miscased f p v) :
    (∃ m ∈ compareEndpoint conventions contract e bindings, m.field = path ∧
        firstMismatch? (exchangeOf conventions contract e payload) f path qs p = some m) ↔
      p.supplier = true ∨ (∃ w ∈ comparedValues p (p.names f), Unlisted f p w) ∨
        (∃ w, AgainstCasing conventions f p w ∧
          (w ∈ p.shape.enumValues ∨ w ∈ comparedValues p (p.names f))) ∨
        (unitMismatch? (exchangeOf conventions contract e payload) f p qs path).isSome ∨
          (formatMismatch? (exchangeOf conventions contract e payload) f p qs path).isSome ∨
            (strictnessMismatch? (exchangeOf conventions contract e payload) f p path).isSome := by
  obtain ⟨d, hd, -⟩ := hv.similar
  have hvalues : f.enumValues ≠ [] := List.ne_nil_of_mem hd
  rw [hvisited.told_iff hfields hp, firstMismatch?_isSome_iff, enumMismatch?_isSome_iff, hkind]
  cases hsupplier : p.supplier with
  | true =>
    have hfound : ∃ v, Unlisted f p v ∧ v ∈ p.shape.enumValues := ⟨v, hv.unlisted, hv.declared⟩
    simp [hvalues, hfound]
  | false => simp [hvalues, and_comm, or_assoc]

def orderStatus : FieldSchema :=
  ⟨"status", .enum, none, none, none, ["pending", "shipped"], true, [], none, none, false⟩

def statusEndpoint : Endpoint := { orderEndpoint with responses := [(200, [orderStatus])] }

def statusOf (service : String) (side : Side) (values : List String) : Participant where
  binding := { orderBinding service side .enum with
    response := some { Shape.plain "" .object default with
      children := [{ Shape.plain "status" .enum default with enumValues := values }] } }
  supplier := side = .server
  shape := { Shape.plain "status" .enum default with enumValues := values }

def statusSides (sent read : List String) : List Participant :=
  [statusOf "shop" .server sent, statusOf "web" .client read]

def capitals : List String := ["PENDING", "SHIPPED"]

theorem status_visited (sent read : List String) :
    Visited [orderStatus] (participants .response ((statusSides sent read).map (·.binding))) "status"
      (statusSides sent read) orderStatus :=
  .field List.mem_cons_self

theorem capitals_miscased (service : String) (side : Side) :
    Miscased orderStatus (statusOf service side capitals) "PENDING" where
  declared := List.mem_cons_self
  unlisted := fun w hw => by
    obtain rfl : w = "PENDING" := List.mem_singleton.mp hw
    decide
  similar := ⟨"pending", List.mem_cons_self, by decide⟩

/-- A client that reads capitals where small letters are sent is told nothing, and a shop that sends them
is told. -/
theorem capitals_told_to_shop_only :
    (¬∃ m ∈ compareEndpoint default default statusEndpoint
        ((statusSides orderStatus.enumValues capitals).map (·.binding)), m.field = "status" ∧
      firstMismatch? (exchangeOf default default statusEndpoint .response) orderStatus "status"
        (statusSides orderStatus.enumValues capitals) (statusOf "web" .client capitals) = some m) ∧
    ∃ m ∈ compareEndpoint default default statusEndpoint
        ((statusSides capitals orderStatus.enumValues).map (·.binding)), m.field = "status" ∧
      firstMismatch? (exchangeOf default default statusEndpoint .response) orderStatus "status"
        (statusSides capitals orderStatus.enumValues) (statusOf "shop" .server capitals) = some m := by
  constructor
  · rw [miscased_told_iff default default statusEndpoint _ .response _ _ _ orderStatus _ "PENDING" rfl
      (status_visited _ _) (List.mem_cons_of_mem _ List.mem_cons_self) rfl
      (capitals_miscased "web" .client)]
    rintro (hsupplier | ⟨w, hw, -⟩ | ⟨w, ⟨casing, hcasing, -⟩, -⟩ | hunit | hformat | hstrict)
    · cases hsupplier
    · have hquiet : Quiet (statusOf "web" .client capitals).binding := by decide
      rw [hquiet.comparedValues_eq_nil] at hw
      cases hw
    · cases hcasing
    · cases hunit
    · cases hformat
    · exact absurd hstrict (by decide +kernel)
  · exact (miscased_told_iff default default statusEndpoint _ .response _ _ _ orderStatus _ "PENDING"
      rfl (status_visited _ _) List.mem_cons_self rfl (capitals_miscased "shop" .server)).mpr (.inl rfl)

end Concord.Comparison
