import Mathlib.Data.List.Nodup
import Concord.Proofs.Handlers

/-! A declared code is reported if there are clients and none of them handles it, and a code that is
not declared once for each service and side that uses it. Nothing else is reported, and nothing
where no code is declared. -/
namespace Concord.Comparison

/-- A branch handles a code: it is on the code itself, or it is a check for success and the code tells
success. -/
def Handles (m : StatusMatch) (code : Nat) : Prop :=
  m = .code code ∨ m = .success ∧ 200 ≤ code ∧ code < 300

/-- What is to be said about the status codes of an endpoint. -/
inductive CodeReport
  /-- No client handles a declared code. -/
  | unhandled (code : Nat)
  /-- A side of a service uses a code that is not declared. -/
  | undeclared (service : String) (side : Side) (code : Nat)
  deriving DecidableEq, Repr

namespace CodeReport

def code : CodeReport → Nat
  | .unhandled code => code
  | .undeclared _ _ code => code

def severity : CodeReport → Severity
  | .unhandled _ => .error
  | .undeclared _ _ _ => .warning

def action : Side → String
  | .client => "branches on"
  | .server => "writes"

def text : CodeReport → String
  | .unhandled code => s!"{code} is declared but no client branches on it"
  | .undeclared service side code =>
    let user := s!"{service} ({side.display})"
    s!"{user} {action side} undeclared {code}"

/-- A report is to be made of an endpoint with these production bindings. -/
def Due (e : Endpoint) (bindings : List Binding) : CodeReport → Prop
  | .unhandled code => code ∈ declaredCodes e ∧ (∃ b ∈ bindings, b.key.side = .client) ∧
      ¬∃ b ∈ bindings, b.key.side = .client ∧ ∃ s ∈ b.statusCodes, Handles s.code code
  | .undeclared service side code => declaredCodes e ≠ [] ∧ code ∉ declaredCodes e ∧
      ∃ b ∈ bindings, b.key.service = service ∧ b.key.side = side ∧
        ∃ s ∈ b.statusCodes, s.code = .code code

/-- A place that a report points to: the first client, or a place where the code is used. -/
def PointsTo (bindings : List Binding) : CodeReport → Location → Prop
  | .unhandled _, l => ∃ b, AtLeastPlace b (bindings.filter (·.key.side = .client)) ∧ b.location = l
  | .undeclared service side code, l => ∃ b ∈ bindings, b.key.service = service ∧
      b.key.side = side ∧ ⟨.code code, l⟩ ∈ b.statusCodes

/-- A finding makes a report. -/
def MadeBy (contract : Contract) (e : Endpoint) (bindings : List Binding) (m : Mismatch)
    (r : CodeReport) : Prop :=
  m = statusMismatch contract e r.code r.severity r.text m.location ∧ r.PointsTo bindings m.location

end CodeReport

open CodeReport

section Codes

variable {contract : Contract} {e : Endpoint} {bindings : List Binding}

theorem covers_iff {m : StatusMatch} {code : Nat} : Status.covers m code = true ↔ Handles m code := by
  cases m <;> simp [Status.covers, Status.isSuccess, Handles]

theorem firstLocation?_map (bs : List Binding) :
    firstLocation? (bs.map (·.location)) = (firstBinding? bs).map (·.location) := by
  cases bs with
  | nil => rfl
  | cons b bs =>
    simp only [List.map_cons, firstLocation?, firstBinding?, Option.map_some, List.foldl_map]
    congr 1
    apply List.foldl_hom Binding.location
    intro best b
    exact (apply_ite Binding.location _ _ _).symm

theorem unhandledCodes_of_no_client (h : ¬∃ b ∈ bindings, b.key.side = .client) :
    unhandledCodes contract e bindings = [] := by
  have hnone : bindings.filter (·.key.side = .client) = [] := by simpa using h
  simp [unhandledCodes, hnone, firstLocation?]

variable (contract e bindings) in
theorem exists_unhandled (hdeclared : (declaredCodes e).Nodup) :
    ∃ codes : List Nat, codes.Nodup ∧ (∀ code, code ∈ codes ↔ Due e bindings (.unhandled code)) ∧
      List.Forall₂ (MadeBy contract e bindings) (unhandledCodes contract e bindings)
        (codes.map .unhandled) := by
  by_cases hclient : ∃ b ∈ bindings, b.key.side = .client
  · have hclients : bindings.filter (·.key.side = .client) ≠ [] := by simpa using hclient
    obtain ⟨first, hfirst, hleast⟩ := exists_firstBinding hclients
    refine ⟨(declaredCodes e).filter fun code => !((bindings.filter (·.key.side = .client)).flatMap
      (·.statusCodes)).any (Status.covers ·.code code), hdeclared.filter _, ?_, ?_⟩
    · intro code
      simp [Due, hclient, covers_iff]
    · simp only [unhandledCodes, firstLocation?_map, hfirst, Option.map_some]
      rw [List.forall₂_map_left_iff, List.forall₂_map_right_iff, List.forall₂_same]
      intro code _
      exact ⟨rfl, first, hleast, rfl⟩
  · refine ⟨[], List.nodup_nil, ?_, ?_⟩
    · simp [Due, hclient]
    · rw [unhandledCodes_of_no_client hclient]
      exact .nil

/-- The service, the side and the code of a use. -/
def CodeUse.user (u : CodeUse) : String × Side × Nat :=
  (u.binding.key.service, u.binding.key.side, u.code)

def undeclaredUses (e : Endpoint) (bindings : List Binding) : List CodeUse :=
  bindings.flatMap fun b => b.statusCodes.filterMap fun s =>
    match s.code with
    | .code c => if (declaredCodes e).contains c then none else some ⟨b, c, s.location⟩
    | .success => none

theorem mem_undeclaredUses {u : CodeUse} : u ∈ undeclaredUses e bindings ↔
    u.binding ∈ bindings ∧ u.code ∉ declaredCodes e ∧
      ⟨.code u.code, u.location⟩ ∈ u.binding.statusCodes := by
  simp only [undeclaredUses, List.mem_flatMap, List.mem_filterMap]
  constructor
  · rintro ⟨b, hb, ⟨match_, l⟩, hs, hu⟩
    cases match_ with
    | success => simp at hu
    | code c =>
      obtain ⟨hc, rfl⟩ : c ∉ declaredCodes e ∧ ⟨b, c, l⟩ = u := by simpa using hu
      exact ⟨hb, hc, hs⟩
  · rintro ⟨hb, hc, hs⟩
    exact ⟨u.binding, hb, _, hs, by simp [hc]⟩

theorem mem_users_iff {service : String} {side : Side} {code : Nat} :
    (service, side, code) ∈ (undeclaredUses e bindings).map CodeUse.user ↔
      code ∉ declaredCodes e ∧ ∃ b ∈ bindings, b.key.service = service ∧ b.key.side = side ∧
        ∃ s ∈ b.statusCodes, s.code = .code code := by
  simp only [List.mem_map, mem_undeclaredUses, CodeUse.user, Prod.mk.injEq]
  constructor
  · rintro ⟨u, ⟨hb, hc, hs⟩, rfl, rfl, rfl⟩
    exact ⟨hc, u.binding, hb, rfl, rfl, _, hs, rfl⟩
  · rintro ⟨hc, b, hb, rfl, rfl, ⟨_, l⟩, hs, rfl⟩
    exact ⟨⟨b, code, l⟩, ⟨hb, hc, hs⟩, rfl, rfl, rfl⟩

variable (contract e bindings) in
theorem exists_undeclared :
    ∃ users : List (String × Side × Nat), users.Nodup ∧
      (∀ service side code, (service, side, code) ∈ users ↔ code ∉ declaredCodes e ∧
        ∃ b ∈ bindings, b.key.service = service ∧ b.key.side = side ∧
          ∃ s ∈ b.statusCodes, s.code = .code code) ∧
      List.Forall₂ (MadeBy contract e bindings) (undeclaredCodes contract e bindings)
        (users.map fun user => .undeclared user.1 user.2.1 user.2.2) := by
  let told := Keyed.firsts CodeUse.user (undeclaredUses e bindings)
  refine ⟨told.map CodeUse.user, Keyed.nodup_map_firstsFrom _ _ _, ?_, ?_⟩
  · intro service side code
    rw [Keyed.mem_map_firsts, mem_users_iff]
  · have hmade : undeclaredCodes contract e bindings = told.map fun u =>
        statusMismatch contract e u.code .warning
          (text (.undeclared u.binding.key.service u.binding.key.side u.code)) u.location := rfl
    rw [hmade, List.map_map, List.forall₂_map_left_iff, List.forall₂_map_right_iff, List.forall₂_same]
    intro u hu
    obtain ⟨hb, -, hs⟩ := mem_undeclaredUses.mp (Keyed.mem_of_mem_firstsFrom hu)
    exact ⟨rfl, u.binding, hb, rfl, rfl, hs⟩

end Codes

/-- The findings on the status codes of an endpoint and the reports that are due stand one to one: an error for
each declared code that no client handles although there is a client, and a warning for each service, side and
code that is used there and not declared. There is no finding where no code is declared. -/
theorem status_codes_told_once (contract : Contract) (e : Endpoint) (bindings : List Binding)
    (hdeclared : (declaredCodes e).Nodup) :
    (∃ reports : List CodeReport, reports.Nodup ∧ (∀ r, r ∈ reports ↔ Due e bindings r) ∧
      List.Forall₂ (MadeBy contract e bindings) (statusMismatches contract e bindings) reports) ∧
    (declaredCodes e = [] → statusMismatches contract e bindings = []) := by
  by_cases hnone : declaredCodes e = []
  · have hnothing : statusMismatches contract e bindings = [] := by simp [statusMismatches, hnone]
    refine ⟨⟨[], List.nodup_nil, ?_, hnothing ▸ .nil⟩, fun _ => hnothing⟩
    rintro (code | ⟨service, side, code⟩) <;> simp [Due, hnone]
  · refine ⟨?_, fun h => absurd h hnone⟩
    obtain ⟨codes, hcodes, hunhandled, hmade⟩ := exists_unhandled contract e bindings hdeclared
    obtain ⟨users, husers, hundeclared, hmade'⟩ := exists_undeclared contract e bindings
    refine ⟨codes.map .unhandled ++ users.map fun user => .undeclared user.1 user.2.1 user.2.2,
      ?_, ?_, ?_⟩
    · refine List.nodup_append.mpr ⟨hcodes.map ?_, husers.map ?_, ?_⟩
      · exact fun _ _ h => CodeReport.unhandled.inj h
      · rintro ⟨service, side, code⟩ ⟨service', side', code'⟩ h
        simpa using h
      · rintro r hr _ hr' rfl
        obtain ⟨code, -, rfl⟩ := List.mem_map.mp hr
        simp at hr'
    · rintro (code | ⟨service, side, code⟩)
      · simp [hunhandled]
      · simp [hundeclared, Due, hnone]
    · have hall : statusMismatches contract e bindings =
          unhandledCodes contract e bindings ++ undeclaredCodes contract e bindings := by
        simp [statusMismatches, hnone]
      rw [hall]
      exact List.rel_append hmade hmade'

def chargesEndpoint : Endpoint := ⟨"POST", "/charges", none, [], [200, 400, 402, 500]⟩

def chargesContract : Contract :=
  ⟨"payments", "bank", ["shop"], "http", .outbound, none, [chargesEndpoint]⟩

def chargesClient (role : Role) (codes : List StatusMatch) : Binding :=
  ⟨⟨"payments", "POST /charges", "shop", role, .client, false⟩, none, none,
    codes.map (⟨·, ⟨"shop/pay.ts", 12, 3⟩⟩), [], [], [], ⟨"shop/pay.ts", 10, 1⟩, []⟩

def chargesClients : List Binding :=
  [chargesClient .consumer [.success, .code 400, .code 418], chargesClient .producer [.code 418]]

theorem due_charges_iff {r : CodeReport} : Due chargesEndpoint chargesClients r ↔
    r = .unhandled 402 ∨ r = .unhandled 500 ∨ r = .undeclared "shop" .client 418 := by
  cases r with
  | unhandled code =>
    simp [Due, chargesEndpoint, chargesClients, chargesClient, declaredCodes, Handles]
    omega
  | undeclared service side code =>
    simp [Due, chargesEndpoint, chargesClients, chargesClient, declaredCodes]
    grind

/-- Two declared codes are not handled, and the unknown one is told once. -/
theorem charges_told_once :
    (declaredCodes chargesEndpoint).Nodup ∧
    ∃ reports : List CodeReport, reports.Nodup ∧
      (∀ r, r ∈ reports ↔
        r = .unhandled 402 ∨ r = .unhandled 500 ∨ r = .undeclared "shop" .client 418) ∧
      List.Forall₂ (MadeBy chargesContract chargesEndpoint chargesClients)
        (statusMismatches chargesContract chargesEndpoint chargesClients) reports := by
  have hdeclared : (declaredCodes chargesEndpoint).Nodup := by decide
  obtain ⟨⟨reports, hnodup, hdue, hmade⟩, -⟩ :=
    status_codes_told_once chargesContract chargesEndpoint chargesClients hdeclared
  exact ⟨hdeclared, reports, hnodup, fun r => (hdue r).trans due_charges_iff, hmade⟩

end Concord.Comparison
