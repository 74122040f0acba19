import Concord.Proofs.Accounting
import Concord.Proofs.Selection

/-! The contracts say which services take part in which roles. What is bound keeps to that as long
as hints do: a hint that gives a role is believed, whoever it is about. -/
namespace Concord

/-- A service has a role in a contract of the manifest. -/
def Manifest.HasRole (m : Manifest) (contract service : String) (role : Role) : Prop :=
  ∃ c ∈ m.contracts, c.id = contract ∧ role ∈ c.rolesOf service

theorem rolesOf_cases (c : Contract) (service : String) :
    c.rolesOf service = [] ∨ (∃ role, c.rolesOf service = [role]) ∨
      c.rolesOf service = [.producer, .consumer] := by
  unfold Contract.rolesOf
  split <;> split <;> simp

/-- The role of a service on a side is one that the contract gives it. -/
theorem mem_rolesOf_of_roleOn? {c : Contract} {service : String} {side : Side} {role : Role}
    (h : c.roleOn? service side = some role) : role ∈ c.rolesOf service := by
  rcases rolesOf_cases c service with hnone | ⟨one, hone⟩ | hboth
  · simp [Contract.roleOn?, hnone] at h
  · obtain rfl : one = role := by simpa [Contract.roleOn?, hone] using h
    simp [hone]
  · rw [hboth]
    cases role <;> simp

section Fate

variable {m : Manifest} {roots : List Root} {maxDepth : Nat} {files : List FileExtraction}
  {f : FileExtraction} {o : Observation} {b : Binding}

theorem binds_of_fate (h : m.fate roots maxDepth files f o = .bound b) :
    ∃ c, m.Binds o b.key.service c b.key.role ∧ c.contract.id = b.key.contract := by
  unfold Manifest.fate Manifest.outcomeIn at h
  split at h
  · unfold Manifest.outcome at h
    split at h
    · cases h
    · split at h
      · next contract endpoint role htarget =>
        cases h
        exact ⟨⟨contract, endpoint⟩, binds_of_target htarget, rfl⟩
      · cases h
      · cases h
  · cases h

theorem role_of_hint (h : m.fate roots maxDepth files f o = .bound b) {role : Role}
    (hhint : o.hint.bind (·.role) = some role) : b.key.role = role := by
  obtain ⟨c, hbinds, -⟩ := binds_of_fate h
  have hrole := hbinds.role
  rw [hhint, Option.some_or] at hrole
  exact (Option.some.inj hrole).symm

theorem hasRole_of_no_hint (h : m.fate roots maxDepth files f o = .bound b)
    (hhint : o.hint.bind (·.role) = none) :
    m.HasRole b.key.contract b.key.service b.key.role := by
  obtain ⟨c, hbinds, hid⟩ := binds_of_fate h
  have hrole := hbinds.role
  rw [hhint, Option.none_or] at hrole
  exact ⟨c.contract, hbinds.declared.contract, hid, mem_rolesOf_of_roleOn? hrole⟩

theorem hint_of_not_party (h : m.fate roots maxDepth files f o = .bound b)
    (hparty : ¬∃ role, m.HasRole b.key.contract b.key.service role) :
    o.hint.bind (·.contract) = some b.key.contract ∧ o.hint.bind (·.role) = some b.key.role := by
  obtain ⟨c, hbinds, hid⟩ := binds_of_fate h
  constructor
  · rcases hbinds.party with hroles | hhint
    · obtain ⟨role, hrole⟩ := List.exists_mem_of_ne_nil _ hroles
      exact absurd ⟨role, c.contract, hbinds.declared.contract, hid, hrole⟩ hparty
    · rw [hhint, hid]
  · cases hhint : o.hint.bind (·.role) with
    | none => exact absurd ⟨_, hasRole_of_no_hint h hhint⟩ hparty
    | some role => rw [role_of_hint h hhint]

end Fate

/-- All bindings are of services in roles that they have in the contract if and only if no hint gives a
bound service a role that it does not have. Services that are no parties are bound by hints only,
which name both the contract and the role. -/
theorem in_role_iff_hints_agree (m : Manifest) (roots : List Root) (maxDepth : Nat)
    (files : List FileExtraction) :
    ((∀ b ∈ (m.bind roots maxDepth files).bindings,
        m.HasRole b.key.contract b.key.service b.key.role) ↔
      ∀ f ∈ files, ∀ o ∈ f.observations, ∀ b, m.fate roots maxDepth files f o = .bound b →
        ∀ role, o.hint.bind (·.role) = some role →
          m.HasRole b.key.contract b.key.service role) ∧
    ∀ b ∈ (m.bind roots maxDepth files).bindings,
      (¬∃ role, m.HasRole b.key.contract b.key.service role) →
        ∀ f ∈ files, ∀ o ∈ f.observations, ∀ a, m.fate roots maxDepth files f o = .bound a →
          a.key = b.key → o.hint.bind (·.contract) = some b.key.contract ∧
            o.hint.bind (·.role) = some b.key.role := by
  refine ⟨⟨fun h f hf o ho b hfate role hhint => ?_, fun h b hb => ?_⟩,
    fun b _ hparty f _ o _ a hfate hkey => ?_⟩
  · obtain ⟨b', hb', hkey⟩ := exists_binding_iff.mpr ⟨f, hf, o, ho, b, hfate, rfl⟩
    have hrole := h b' hb'
    rwa [hkey, role_of_hint hfate hhint] at hrole
  · obtain ⟨f, hf, o, ho, a, hfate, hkey⟩ := exists_binding_iff.mp ⟨b, hb, rfl⟩
    rw [← hkey]
    cases hhint : o.hint.bind (·.role) with
    | none => exact hasRole_of_no_hint hfate hhint
    | some role =>
      have hrole := h f hf o ho a hfate role hhint
      rwa [← role_of_hint hfate hhint] at hrole
  · rw [← hkey] at hparty ⊢
    exact hint_of_not_party hfate hparty

def auditedShop : Manifest :=
  { orderShop with services := orderShop.services ++ [⟨"audit", .typeScript, none, none⟩] }

def auditCall : Observation :=
  { Observation.at .client ⟨"audit/api.ts", 3, 10⟩ ⟨0, 0⟩ with
    hint := some ⟨some "orders", some "GET /orders/new", some .consumer, none, default⟩ }

def auditFile : FileExtraction := ⟨"audit/api.ts", .typeScript, false, [], [auditCall]⟩

/-- The call is bound, and its service is no party to the contract. -/
theorem audit_bound_without_role :
    (∃ b, auditedShop.fate [] 8 [auditFile] auditFile auditCall = .bound b ∧
      b.key = ⟨"orders", "GET /orders/new", "audit", .consumer, .client, false⟩) ∧
    (¬∃ role, auditedShop.HasRole "orders" "audit" role) ∧
    ¬∀ b ∈ (auditedShop.bind [] 8 [auditFile]).bindings,
      auditedShop.HasRole b.key.contract b.key.service b.key.role := by
  have hkey : (auditedShop.fate [] 8 [auditFile] auditFile auditCall).binding?.map (·.key) =
      some ⟨"orders", "GET /orders/new", "audit", .consumer, .client, false⟩ := by
    decide +kernel
  obtain ⟨b, hbinding, hkey⟩ := Option.map_eq_some_iff.mp hkey
  have hfate := Outcome.binding?_eq_some_iff.mp hbinding
  have hstranger : ¬∃ role, auditedShop.HasRole "orders" "audit" role := by
    rintro ⟨role, c, hc, -, hrole⟩
    obtain rfl := List.mem_singleton.mp hc
    revert hrole
    cases role <;> decide
  refine ⟨⟨b, hfate, hkey⟩, hstranger, fun h => hstranger ⟨.consumer, ?_⟩⟩
  have hrole := (in_role_iff_hints_agree auditedShop [] 8 [auditFile]).1.mp h auditFile (by simp)
    auditCall (by simp [auditFile]) b hfate .consumer rfl
  rwa [hkey] at hrole

end Concord
