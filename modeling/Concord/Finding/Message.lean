import Concord.Finding.Basic

/-! The wording of a finding. -/
namespace Concord.Mismatch

def body (m : Mismatch) : String :=
  let manifest := if m.expected.isEmpty then "" else s!" (manifest: {m.expected})"
  match m.kind with
  | .type => s!"type mismatch at '{m.field}': {m.observed}{manifest}"
  | .unit => s!"unit mismatch: {m.observed} at '{m.field}'{manifest}"
  | .case => s!"enum case mismatch at '{m.field}': {m.observed}, expected {m.expected}"
  | .missing => s!"missing required field '{m.field}': {m.observed}"
  | .extra => s!"undeclared field '{m.field}': {m.observed}"
  | .strictness => s!"strictness mismatch at '{m.field}': {m.observed}{manifest}"
  | .enum => s!"enum mismatch at '{m.field}': {m.observed}, manifest allows {m.expected}"
  | .format => s!"format mismatch at '{m.field}': {m.observed}{manifest}"
  | .drift => s!"shared type drift at '{m.field}': {m.observed}"
  | .tag => s!"field name mismatch at '{m.field}': {m.observed}, manifest names it {m.expected}"
  | .status => s!"status code {m.field}: {m.observed}{manifest}"
  | .dualTest => s!"missing dual-side test: {m.observed}"
  | .conformance => s!"manifest conformance: {m.observed}"

def message (m : Mismatch) : String :=
  match m.contract.isEmpty, m.endpoint.isEmpty with
  | false, false => s!"{m.contract} {m.endpoint}: {m.body}"
  | false, true => s!"{m.contract}: {m.body}"
  | true, false => s!"{m.endpoint}: {m.body}"
  | true, true => m.body

end Concord.Mismatch
