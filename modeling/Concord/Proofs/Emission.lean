import Mathlib.Data.Prod.Lex
import Mathlib.Data.String.Basic
import Concord.Proofs.Production

/-! Violations come in order. Each stands for a finding whose rule is not off, and each such finding
is there. A choice of rules only leaves violations out: what stays is the same, in the same order,
as without the choice. -/
namespace Concord

open Std

namespace Text

theorem dropRepeats_cons {α : Type} [BEq α] [LawfulBEq α] {a : α} {l : List α}
    (h : l.head? ≠ some a) : dropRepeats (a :: l) = a :: dropRepeats l := by
  cases l with
  | nil => simp [dropRepeats]
  | cons b l =>
    have hne : (a == b) = false := by
      rw [beq_eq_false_iff_ne]
      rintro rfl
      exact h rfl
    rw [dropRepeats, hne, if_neg Bool.false_ne_true]

theorem dropRepeats_sublist {α : Type} [BEq α] {l : List α} : (dropRepeats l).Sublist l := by
  fun_induction dropRepeats l with
  | case1 => exact .slnil
  | case2 a => exact .refl _
  | case3 a b rest heq ih => exact ih.trans ((List.sublist_cons_self b rest).cons_cons a)
  | case4 a b rest hne ih => exact ih.cons_cons a

/-- Of a sorted list, repetitions may be dropped before or after a choice that does not tell equally
ordered elements apart. -/
theorem filter_dropRepeats {α : Type} [BEq α] [LawfulBEq α] {cmp : α → α → Ordering} [TransCmp cmp]
    {p : α → Bool} (hp : ∀ a b, cmp a b = .eq → p a = p b) {l : List α}
    (h : l.Pairwise fun a b => (cmp a b != .gt) = true) :
    (dropRepeats l).filter p = dropRepeats (l.filter p) := by
  fun_induction dropRepeats l with
  | case1 => simp [dropRepeats]
  | case2 a => cases ha : p a <;> simp [ha, dropRepeats]
  | case3 a b rest heq ih =>
    obtain rfl : a = b := by simpa using heq
    rw [ih (List.pairwise_cons.mp h).2]
    cases ha : p a <;> simp [ha, dropRepeats]
  | case4 a b rest hne ih =>
    obtain ⟨ha, hrest⟩ := List.pairwise_cons.mp h
    cases hpa : p a with
    | false => simpa [hpa] using ih hrest
    | true =>
      rw [List.filter_cons_of_pos hpa, List.filter_cons_of_pos hpa, ih hrest]
      refine (dropRepeats_cons ?_).symm
      cases hpb : p b with
      | true => simpa [hpb] using Ne.symm (by simpa using hne : a ≠ b)
      | false =>
        -- `b` is left out, so it is not ordered equally, and all after it are beyond `a`
        have hab : cmp a b = .lt := by
          cases hcmp : cmp a b with
          | lt => rfl
          | eq => simp [hp a b hcmp, hpb] at hpa
          | gt => simpa [hcmp] using ha b List.mem_cons_self
        rw [List.filter_cons_of_neg (by simp [hpb])]
        intro hhead
        have hmem : a ∈ rest := (List.mem_filter.mp (List.mem_of_mem_head? hhead)).1
        have hba := (List.pairwise_cons.mp hrest).1 a hmem
        simp [OrientedCmp.gt_of_lt hab] at hba

end Text

theorem Rule.id_injective : Function.Injective Rule.id := by
  intro r r' h
  have hall : ∀ r ∈ all, ∀ r' ∈ all, r.id = r'.id → r = r' := by decide
  exact hall r (by cases r <;> decide) r' (by cases r' <;> decide) h

namespace Violation

def sortKey (v : Violation) : String ×ₗ ℕ ×ₗ ℕ ×ₗ String ×ₗ String :=
  toLex (v.location.file, toLex (v.location.line, toLex (v.location.column,
    toLex (v.rule.id, v.message))))

theorem compare_eq_lex : Violation.compare =
    compareLex (fun a b => a.location.compare b.location)
      (compareLex (compareOn (·.rule.id)) (compareOn (·.message))) := rfl

instance : TransCmp fun a b : Violation => a.location.compare b.location where
  eq_swap := OrientedCmp.eq_swap
  isLE_trans := TransCmp.isLE_trans

instance : TransCmp Violation.compare := by
  rw [compare_eq_lex]
  infer_instance

theorem isLE_then_iff {a b : Ordering} :
    (a.then b).isLE = true ↔ a = .lt ∨ a = .eq ∧ b.isLE = true := by
  cases a <;> simp [Ordering.then]

theorem isLE_compare_iff {a b : Violation} :
    (a.compare b).isLE = true ↔ a.sortKey ≤ b.sortKey := by
  have hmessage : (Ord.compare a.message b.message).isLE = true ↔ a.message ≤ b.message := by
    rw [Ordering.isLE_iff_ne_gt]
    exact compare_le_iff_le
  simp only [Violation.compare, Location.compare, Ordering.then_assoc, isLE_then_iff, sortKey,
    Prod.Lex.toLex_le_toLex, compare_lt_iff_lt, Std.compare_eq_iff_eq, hmessage]

theorem rule_of_compare {a b : Violation} (h : a.compare b = .eq) : a.rule = b.rule := by
  simp only [Violation.compare, Ordering.then_eq_eq, Std.compare_eq_iff_eq] at h
  exact Rule.id_injective h.2.1

end Violation

/-- The severity of a finding under the action on its rule, if it is reported at all. -/
def Configuration.severityOf (c : Configuration) (m : Mismatch) : Severity :=
  match c.action? m.rule with
  | some .error => .error
  | some .warn => .warning
  | _ => m.severity

/-- The violation that a finding becomes if its rule is not off. -/
def Mismatch.reportedAs (c : Configuration) (m : Mismatch) : Violation :=
  ⟨m.rule, c.severityOf m, m.message, m.location⟩

/-- `c'` is `c` with a rule switched off. -/
structure Configuration.SwitchesOff (c : Configuration) (r : Rule) (c' : Configuration) : Prop where
  off : c'.action? r = some .off
  others : ∀ r', r' ≠ r → c'.action? r' = c.action? r'

theorem Rule.ofId?_id (r : Rule) : Rule.ofId? r.id = some r := by
  cases r <;> decide +kernel

theorem Configuration.switchesOff_cons (c : Configuration) (r : Rule) :
    c.SwitchesOff r { c with rules := (r.id, .off) :: c.rules } where
  off := by simp [action?, Rule.ofId?_id]
  others r' hne := by simp [action?, Rule.ofId?_id, hne.symm]

section Choice

variable {c c' : Configuration} {only : Option Rule} {ms : List Mismatch}

theorem violation?_eq_some_iff {m : Mismatch} {v : Violation} :
    m.violation? c = some v ↔ c.action? m.rule ≠ some .off ∧ m.reportedAs c = v := by
  unfold Mismatch.violation? Configuration.severity? Mismatch.reportedAs Configuration.severityOf
  cases c.action? m.rule with
  | none => simp
  | some action => cases action <;> simp [RuleAction.apply]

theorem violation?_congr {m : Mismatch} (h : c'.action? m.rule = c.action? m.rule) :
    m.violation? c' = m.violation? c := by
  rw [Mismatch.violation?, Mismatch.violation?, Configuration.severity?, Configuration.severity?, h]

theorem sorted_violationsOf :
    (violationsOf c only ms).Pairwise fun a b => a.sortKey ≤ b.sortKey := by
  apply List.Pairwise.imp ?_ ((Text.pairwise_mergeSort _).sublist Text.dropRepeats_sublist)
  intro a b hab
  rw [← Violation.isLE_compare_iff, Ordering.isLE_iff_ne_gt]
  simpa using hab

theorem filterMap_of_leftOut {α β : Type} {p q : α → Bool} {f g : α → Option β}
    (h : ∀ a, f a = if p a then g a else none) (l : List α) :
    (l.filter q).filterMap f = ((l.filter p).filter q).filterMap g := by
  simp only [h]
  rw [← List.filterMap_filter, List.filter_comm]

/-- The violations of some rules are those of the findings of these rules. -/
theorem filter_violationsOf (p : Rule → Bool) :
    (violationsOf c only ms).filter (p ·.rule) = violationsOf c only (ms.filter (p ·.rule)) := by
  have hrule (m : Mismatch) : (m.violation? c).filter (p ·.rule) =
      if p m.rule then m.violation? c else none := by
    cases hm : m.violation? c with
    | none => simp
    | some v => simp [Option.filter, rule_of_violation? hm]
  unfold violationsOf
  rw [Text.filter_dropRepeats (fun a b h => congrArg p (Violation.rule_of_compare h))
      (Text.pairwise_mergeSort _),
    filter_mergeSort (fun _ _ _ => ne_gt_trans) (fun _ _ => ne_gt_total _ _), List.filter_filterMap,
    filterMap_of_leftOut hrule]

theorem violationsOf_some (r : Rule) :
    violationsOf c (some r) ms = violationsOf c none (ms.filter (·.rule = r)) := by
  simp [violationsOf, eq_comm]

theorem violationsOf_of_switchesOff {r : Rule} (h : c.SwitchesOff r c') :
    violationsOf c' only ms = violationsOf c only (ms.filter (·.rule ≠ r)) := by
  have hoff (m : Mismatch) :
      m.violation? c' = if decide (m.rule ≠ r) then m.violation? c else none := by
    by_cases hm : m.rule = r
    · simp [Mismatch.violation?, Configuration.severity?, hm, h.off, RuleAction.apply]
    · simp [hm, violation?_congr (h.others m.rule hm)]
  simp only [violationsOf]
  rw [filterMap_of_leftOut hoff]

end Choice

/-- Violations come in the order of file, line, column, rule and message. What is there are the violations of
the findings that have the rule asked for, if one is asked for, and whose rule is not off. To ask for a rule is
to take its violations out of all of them, and to switch a rule off is to leave its violations out. -/
theorem violations_follow_rules (c : Configuration) (only : Option Rule) (ms : List Mismatch) :
    ((violationsOf c only ms).Pairwise fun a b => a.sortKey ≤ b.sortKey) ∧
    (∀ v, v ∈ violationsOf c only ms ↔ ∃ m ∈ ms, (∀ r ∈ only, m.rule = r) ∧
      c.action? m.rule ≠ some .off ∧ m.reportedAs c = v) ∧
    (∀ r, violationsOf c (some r) ms = (violationsOf c none ms).filter (·.rule = r)) ∧
    ∀ r c', c.SwitchesOff r c' →
      violationsOf c' only ms = (violationsOf c only ms).filter (·.rule ≠ r) := by
  refine ⟨sorted_violationsOf, ?_, ?_, ?_⟩
  · intro v
    have hasked (m : Mismatch) : only.all (· = m.rule) = true ↔ ∀ r ∈ only, m.rule = r := by
      cases only <;> simp [eq_comm]
    simp only [mem_violationsOf, violation?_eq_some_iff, hasked]
  · intro r
    rw [violationsOf_some, filter_violationsOf fun rule => rule = r]
  · intro r c' h
    rw [violationsOf_of_switchesOff h, filter_violationsOf fun rule => rule ≠ r]

def orderFinding (rule : Rule) (severity : Severity) (line : Nat) : Mismatch :=
  ⟨"orders", "GET /orders", "total", .conformance, "", "left out", rule, severity, ⟨"a.go", line, 1⟩⟩

/-- Of one place and rule, an error, a warning and again the error; and a missing test in between. -/
def orderFindings : List Mismatch :=
  [orderFinding .responseShape .error 7, orderFinding .dualTest .error 7,
    orderFinding .responseShape .warning 7, orderFinding .responseShape .error 7]

/-- Without the tests, the violations of the responses stay as they are. -/
theorem order_responses_stay :
    Configuration.standard.SwitchesOff .dualTest
      { Configuration.standard with rules := [(Rule.dualTest.id, .off)] } ∧
    violationsOf { Configuration.standard with rules := [(Rule.dualTest.id, .off)] } none
        orderFindings =
      (violationsOf Configuration.standard none orderFindings).filter (·.rule ≠ .dualTest) ∧
    (orderFinding .responseShape .warning 7).reportedAs Configuration.standard ∈
      violationsOf Configuration.standard none orderFindings := by
  have hoff := Configuration.standard.switchesOff_cons .dualTest
  have hfollow := violations_follow_rules Configuration.standard none orderFindings
  refine ⟨hoff, hfollow.2.2.2 .dualTest _ hoff, (hfollow.2.1 _).mpr ?_⟩
  exact ⟨orderFinding .responseShape .warning 7, by simp [orderFindings], by simp, by decide, rfl⟩

end Concord
