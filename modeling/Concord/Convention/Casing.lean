import Concord.Binding.Basic
import Concord.FieldPath
import Concord.Finding.Basic
import Concord.Manifest.Schema

/-! A service without a declared casing follows the casing that most of its enum values have. -/
namespace Concord.Convention

structure EnumUse where
  value : String
  field : String
  location : Location

mutual

def enumUses (path : String) : Shape → List EnumUse
  | ⟨_, _, _, _, _, _, _, enumValues, _, _, children, items, origin, _⟩ =>
    enumValues.map (⟨·, path, origin.location⟩) ++ enumUsesOfMembers path children ++
      enumUsesOfItems path items

def enumUsesOfMembers (path : String) : List Shape → List EnumUse
  | [] => []
  | c :: rest => enumUses (FieldPath.join path c.name) c ++ enumUsesOfMembers path rest

def enumUsesOfItems (path : String) : Option Shape → List EnumUse
  | none => []
  | some item => enumUses (FieldPath.join path "[]") item

end

structure Supplied where
  use : EnumUse
  binding : Binding

def suppliedBy (b : Binding) : List Supplied :=
  [PayloadKind.request, PayloadKind.response].flatMap fun payload =>
    if b.supplies payload then
      (((b.shape? payload).map (enumUses "")).getD []).map (⟨·, b⟩)
    else []

def suppliedIn (bindings : List Binding) (service : String) : List Supplied :=
  (bindings.filter fun b => !b.key.inTest && b.key.service == service).flatMap suppliedBy

def casingMismatchesOf (bindings : List Binding) (service : String) : List Mismatch :=
  let supplied := suppliedIn bindings service
  match Casing.dominant? (Text.sortedUnique (supplied.map (·.use.value))) with
  | none => []
  | some casing =>
    (Keyed.firsts (·.use.value) (supplied.filter fun s => !casing.holds s.use.value)).map fun s => {
      contract := s.binding.key.contract
      endpoint := s.binding.key.endpoint
      field := s.use.field
      kind := .case
      expected := s!"{casing.display} (dominant in {service})"
      observed := s!"'{s.use.value}' sent by {s.binding.describe}"
      rule := .strictnessParity
      severity := .warning
      location := s.use.location }

/-- The enum values against the dominant casing of their service, for the services without a declared
casing. -/
def casingMismatches (manifest : Manifest) (bindings : List Binding) : List Mismatch :=
  let services := Text.sortedUnique (bindings.map (·.key.service))
  (services.filter fun s => (manifest.conventions.enumCaseOf? s).isNone).flatMap
    (casingMismatchesOf bindings)

end Concord.Convention
