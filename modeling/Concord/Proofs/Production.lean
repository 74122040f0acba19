import Concord.Check
import Concord.Proofs.Orders

/-! All findings but those on missing tests are about production bindings and are the same without
the bindings of tests. -/
namespace Concord

variable {x : Mismatch} {manifest : Manifest} {bindings : List Binding} {contract : Contract}

def Binding.inProduction (b : Binding) : Bool := !b.key.inTest

def production (bs : List Binding) : List Binding := bs.filter (·.inProduction)

namespace Comparison

end Comparison

namespace Convention

open Comparison

theorem casingMismatchesOf_unbound {service : String} (h : service ∉ bindings.map (·.key.service)) :
    casingMismatchesOf bindings service = [] := by
  have hnone : suppliedIn bindings service = [] := by
    unfold suppliedIn
    rw [List.filter_eq_nil_iff.mpr, List.flatMap_nil]
    intro b hb hservice
    obtain ⟨-, hservice⟩ : b.key.inTest = false ∧ b.key.service = service := by simpa using hservice
    exact h (List.mem_map.mpr ⟨b, hb, hservice⟩)
  unfold casingMismatchesOf
  rw [hnone]
  dsimp only
  split
  · rfl
  · rfl

end Convention

theorem mem_violationsOf {c : Configuration} {only : Option Rule} {ms : List Mismatch} {v : Violation} :
    v ∈ violationsOf c only ms ↔
      ∃ x ∈ ms, only.all (· = x.rule) = true ∧ x.violation? c = some v := by
  simp only [violationsOf, Text.mem_dropRepeats, List.mem_mergeSort, List.mem_filterMap, List.mem_filter,
    and_assoc]

theorem rule_of_violation? {c : Configuration} {v : Violation} (h : x.violation? c = some v) :
    v.rule = x.rule := by
  obtain ⟨severity, -, rfl⟩ := Option.map_eq_some_iff.mp h
  rfl

end Concord
