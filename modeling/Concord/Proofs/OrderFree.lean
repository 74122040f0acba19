import Concord.Proofs.Emission

/-! A report and the policy on rules are read off lists, but the order does not count as long as
findings that read alike, and entries that name one rule, agree. -/
namespace Concord

open Std

variable {r : Rule} {m : Mismatch} {e : String × RuleAction}

theorem Text.head?_dropRepeats {α : Type} [BEq α] [LawfulBEq α] (l : List α) :
    (dropRepeats l).head? = l.head? := by
  fun_induction dropRepeats l with
  | case1 => rfl
  | case2 => rfl
  | case3 a b rest heq ih => exact ih
  | case4 a b rest hne ih => rfl

/-- Two findings read alike in a report: nothing but their severities tells them apart. -/
structure Mismatch.ReadsLike (m m' : Mismatch) : Prop where
  rule : m.rule = m'.rule
  message : m.message = m'.message
  location : m.location = m'.location

/-- A finding is reported with the severity that it has: its rule is the one asked for, if one is, and there is
no action on it. -/
structure Mismatch.KeepsSeverity (c : Configuration) (only : Option Rule) (m : Mismatch) : Prop where
  asked : ∀ r ∈ only, m.rule = r
  unset : c.action? m.rule = none

section Findings

variable {c : Configuration} {only : Option Rule} {ms : List Mismatch}

theorem Violation.compare_eq_iff {v v' : Violation} :
    v.compare v' = .eq ↔ v.rule = v'.rule ∧ v.message = v'.message ∧ v.location = v'.location := by
  simp only [Violation.compare, Ordering.then_eq_eq, LawfulEqCmp.compare_eq_iff_eq,
    Rule.id_injective.eq_iff]
  tauto

def violationsFound (c : Configuration) (only : Option Rule) (ms : List Mismatch) : List Violation :=
  (ms.filter fun m => only.all (· = m.rule)).filterMap (·.violation? c)

theorem violationsOf_eq : violationsOf c only ms =
    Text.dropRepeats ((violationsFound c only ms).mergeSort fun a b => a.compare b != .gt) := rfl

theorem mem_violationsFound {v : Violation} : v ∈ violationsFound c only ms ↔
    ∃ m ∈ ms, (∀ r ∈ only, m.rule = r) ∧ c.action? m.rule ≠ some .off ∧ m.reportedAs c = v := by
  have hasked (m : Mismatch) : only.all (· = m.rule) = true ↔ ∀ r ∈ only, m.rule = r := by
    cases only <;> simp [eq_comm]
  simp only [violationsFound, List.mem_filterMap, List.mem_filter, violation?_eq_some_iff, hasked,
    and_assoc]

theorem violationsFound_cons (h : m.KeepsSeverity c only) (ms : List Mismatch) :
    violationsFound c only (m :: ms) = m.reportedAs c :: violationsFound c only ms := by
  have hasked : only.all (· = m.rule) = true := by
    cases only with
    | none => rfl
    | some r => simp [h.asked r rfl]
  have hviolation : m.violation? c = some (m.reportedAs c) :=
    violation?_eq_some_iff.mpr ⟨by simp [h.unset], rfl⟩
  simp [violationsFound, hasked, hviolation]

theorem severityOf_of_unset (h : c.action? m.rule = none) : c.severityOf m = m.severity := by
  simp [Configuration.severityOf, h]

/-- Of findings that read alike, the severity is what an action sets or what they have. -/
theorem severityOf_eq_of_readsLike {m m' : Mismatch} (h : m.ReadsLike m')
    (hoff : c.action? m.rule ≠ some .off)
    (hsame : c.action? m.rule = none → m.severity = m'.severity) :
    c.severityOf m = c.severityOf m' := by
  unfold Configuration.severityOf
  rw [← h.rule]
  cases haction : c.action? m.rule with
  | none => exact hsame haction
  | some action =>
    cases action with
    | error => rfl
    | warn => rfl
    | off => exact absurd haction hoff

/-- Violations that read alike stand in the order in which they are found. -/
theorem filter_ties_violationsOf (c : Configuration) (only : Option Rule) (ms : List Mismatch)
    (v : Violation) :
    (violationsOf c only ms).filter (fun x => v.compare x == .eq) =
      Text.dropRepeats ((violationsFound c only ms).filter fun x => v.compare x == .eq) := by
  have hties (a b : Violation) (hab : a.compare b = .eq) :
      (v.compare a == .eq) = (v.compare b == .eq) := by
    rw [TransCmp.congr_right hab]
  have hsorted : ((violationsFound c only ms).filter fun x => v.compare x == .eq).Pairwise
      fun a b => (a.compare b != .gt) = true := by
    refine List.pairwise_iff_forall_sublist.mpr fun {a b} hsub => ?_
    have ha : v.compare a = .eq := by simpa using (List.mem_filter.mp (hsub.subset (by simp))).2
    have hb : v.compare b = .eq := by simpa using (List.mem_filter.mp (hsub.subset (by simp))).2
    simp [← TransCmp.congr_left ha, hb]
  rw [violationsOf_eq, Text.filter_dropRepeats hties (Text.pairwise_mergeSort _),
    filter_mergeSort (fun _ _ _ => ne_gt_trans) (fun _ _ => ne_gt_total _ _),
    List.mergeSort_of_pairwise hsorted]

theorem find?_violationsOf_cons (h : m.KeepsSeverity c only) {v : Violation}
    (hv : v.compare (m.reportedAs c) = .eq) (ms : List Mismatch) :
    (violationsOf c only (m :: ms)).find? (fun x => v.compare x == .eq) = some (m.reportedAs c) := by
  rw [← List.head?_filter, filter_ties_violationsOf, Text.head?_dropRepeats, List.head?_filter,
    violationsFound_cons h]
  exact List.find?_cons_of_pos (by simp [hv])

end Findings

/-- Whatever the order of the findings, the report on them is the same and says nothing twice: this is so exactly
if findings that read alike, and whose severities no action sets, are equally severe. -/
theorem violations_order_free_iff (c : Configuration) (only : Option Rule) (ms : List Mismatch) :
    (∀ ms', ms'.Perm ms →
      violationsOf c only ms' = violationsOf c only ms ∧ (violationsOf c only ms').Nodup) ↔
    ∀ m ∈ ms, ∀ m' ∈ ms, m.KeepsSeverity c only → m.ReadsLike m' → m.severity = m'.severity := by
  constructor
  · intro h m hm m' hm' hkeeps hlike
    have hkeeps' : m'.KeepsSeverity c only :=
      ⟨fun r hr => hlike.rule ▸ hkeeps.asked r hr, hlike.rule ▸ hkeeps.unset⟩
    -- whichever of the two is found first comes first
    have hself : (m.reportedAs c).compare (m.reportedAs c) = .eq := ReflCmp.compare_self
    have htie : (m.reportedAs c).compare (m'.reportedAs c) = .eq :=
      Violation.compare_eq_iff.mpr ⟨hlike.rule, hlike.message, hlike.location⟩
    have hfirst := find?_violationsOf_cons hkeeps hself (ms.erase m)
    have hfirst' := find?_violationsOf_cons hkeeps' htie (ms.erase m')
    rw [(h _ (List.perm_cons_erase hm).symm).1] at hfirst
    rw [(h _ (List.perm_cons_erase hm').symm).1, hfirst] at hfirst'
    have hseverity : c.severityOf m = c.severityOf m' :=
      congrArg Violation.severity (Option.some.inj hfirst')
    rwa [severityOf_of_unset hkeeps.unset, severityOf_of_unset hkeeps'.unset] at hseverity
  · intro h ms' hperm
    have hties : ∀ v ∈ violationsFound c only ms, ∀ v' ∈ violationsFound c only ms,
        v.compare v' = .eq → v = v' := by
      intro v hv v' hv' hcmp
      obtain ⟨m, hm, hasked, hoff, rfl⟩ := mem_violationsFound.mp hv
      obtain ⟨m', hm', -, -, rfl⟩ := mem_violationsFound.mp hv'
      obtain ⟨hrule, hmessage, hlocation⟩ := Violation.compare_eq_iff.mp hcmp
      have hseverity := severityOf_eq_of_readsLike ⟨hrule, hmessage, hlocation⟩ hoff fun hunset =>
        h m hm m' hm' ⟨hasked, hunset⟩ ⟨hrule, hmessage, hlocation⟩
      simp only [Mismatch.reportedAs] at hrule hmessage hlocation ⊢
      rw [hrule, hmessage, hlocation, hseverity]
    have hfound : (violationsFound c only ms).Perm (violationsFound c only ms') :=
      ((hperm.symm.filter _).filterMap _)
    have hsame : violationsOf c only ms' = violationsOf c only ms := by
      rw [violationsOf_eq, violationsOf_eq, mergeSort_eq_of_perm (fun _ _ _ => ne_gt_trans)
        (fun _ _ => ne_gt_total _ _) (fun v hv v' hv' h₁ h₂ => hties v hv v' hv' (eq_of_ne_gt h₁ h₂))
        hfound]
    have hascends : (violationsOf c only ms).Pairwise fun v v' => v.compare v' = .lt :=
      Text.pairwise_dropRepeats
        (fun v hv v' hv' => hties v (List.mem_mergeSort.mp hv) v' (List.mem_mergeSort.mp hv'))
        (Text.pairwise_mergeSort _)
    exact ⟨hsame, hsame ▸ nodup_of_ascending hascends⟩

def orderReport (rule : Rule) (severity : Severity) : Violation :=
  (orderFinding rule severity 7).reportedAs .standard

/-- An error, a warning that reads like it and the error again: the error is told twice, and in another order the
report is another one. -/
theorem order_told_twice :
    ¬(violationsOf .standard none orderFindings).Nodup ∧
    ¬∀ ms', ms'.Perm orderFindings →
      violationsOf .standard none ms' = violationsOf .standard none orderFindings ∧
        (violationsOf .standard none ms').Nodup := by
  constructor
  · intro h
    have hfound : violationsFound .standard none orderFindings =
        [orderReport .responseShape .error, orderReport .dualTest .error,
          orderReport .responseShape .warning, orderReport .responseShape .error] := rfl
    have hself : (orderReport .responseShape .error).compare (orderReport .responseShape .error) = .eq :=
      ReflCmp.compare_self
    have htie : (orderReport .responseShape .error).compare (orderReport .responseShape .warning) = .eq :=
      Violation.compare_eq_iff.mpr ⟨rfl, rfl, rfl⟩
    have hother : (orderReport .responseShape .error).compare (orderReport .dualTest .error) ≠ .eq :=
      fun heq => by cases (Violation.compare_eq_iff.mp heq).1
    have hties := filter_ties_violationsOf .standard none orderFindings (orderReport .responseShape .error)
    rw [hfound] at hties
    simp only [List.filter_cons, hself, htie, hother, List.filter_nil, beq_iff_eq, if_true, if_false] at hties
    have htwice := h.filter fun x => (orderReport .responseShape .error).compare x == .eq
    have hne : orderReport .responseShape .error ≠ orderReport .responseShape .warning :=
      fun heq => by cases congrArg Violation.severity heq
    rw [hties] at htwice
    simp [Text.dropRepeats, hne, hne.symm] at htwice
  · rw [violations_order_free_iff]
    intro h
    have := h (orderFinding .responseShape .error 7) (by simp [orderFindings])
      (orderFinding .responseShape .warning 7) (by simp [orderFindings])
      ⟨by simp, rfl⟩ ⟨rfl, rfl, rfl⟩
    simp [orderFinding] at this

namespace Rule

/-- Two texts are the same but for blanks around them and the case of ASCII letters. -/
def SpeltAlike (a b : String) : Prop :=
  Text.asciiSame (Text.trim a.toList) (Text.trim b.toList) = true

theorem lower_id_injective {r r' : Rule}
    (h : Text.asciiLower r.id.toList = Text.asciiLower r'.id.toList) : r = r' := by
  have hall : ∀ r ∈ all, ∀ r' ∈ all,
      Text.asciiLower r.id.toList = Text.asciiLower r'.id.toList → r = r' := by decide +kernel
  exact hall r (by cases r <;> decide) r' (by cases r' <;> decide) h

theorem spelt_of_ofId? {raw : String} (h : ofId? raw = some r) :
    Text.asciiSame r.id.toList (Text.trim raw.toList) = true :=
  List.find?_some (p := fun r : Rule => Text.asciiSame r.id.toList (Text.trim raw.toList)) h

theorem ofId?_eq_some_iff {raw : String} :
    ofId? raw = some r ↔ Text.asciiSame r.id.toList (Text.trim raw.toList) = true := by
  constructor
  · exact spelt_of_ofId?
  · intro h
    obtain ⟨r', hr'⟩ : ∃ r', ofId? raw = some r' :=
      Option.isSome_iff_exists.mp (List.find?_isSome.mpr ⟨r, by cases r <;> decide, h⟩)
    have hsame : Text.asciiLower r'.id.toList = Text.asciiLower r.id.toList :=
      (beq_iff_eq.mp (spelt_of_ofId? hr')).trans (beq_iff_eq.mp h).symm
    rw [hr', lower_id_injective hsame]

/-- A text names the rule that another one names exactly if the two are spelt alike. -/
theorem ofId?_eq_iff {a b : String} (h : ofId? a = some r) : ofId? b = some r ↔ SpeltAlike a b := by
  have ha := beq_iff_eq.mp (ofId?_eq_some_iff.mp h)
  rw [ofId?_eq_some_iff, SpeltAlike, Text.asciiSame, Text.asciiSame, ha]

end Rule

namespace Configuration

variable {c : Configuration}

theorem exists_rule_of_mem (h : c.unknownRule? = none) (he : e ∈ c.rules) :
    ∃ r, Rule.ofId? e.1 = some r := by
  have hnone : c.rules.find? (fun e => (Rule.ofId? e.1).isNone) = none := Option.map_eq_none_iff.mp h
  have := List.find?_eq_none.mp hnone e he
  simpa [Option.eq_none_iff_forall_ne_some] using this

theorem action?_cons (h : Rule.ofId? e.1 = some r) (rest : List (String × RuleAction)) :
    { c with rules := e :: rest }.action? r = some e.2 := by
  simp [action?, h]

theorem action?_eq_some_iff (h : ∀ e ∈ c.rules, ∀ e' ∈ c.rules, Rule.SpeltAlike e.1 e'.1 → e.2 = e'.2)
    {action : RuleAction} :
    c.action? r = some action ↔ ∃ e ∈ c.rules, Rule.ofId? e.1 = some r ∧ e.2 = action := by
  constructor
  · intro haction
    obtain ⟨e, hfind, rfl⟩ := Option.map_eq_some_iff.mp haction
    exact ⟨e, List.mem_of_find?_eq_some hfind, by simpa using List.find?_some hfind, rfl⟩
  · rintro ⟨e, he, hrule, rfl⟩
    obtain ⟨e', hfind⟩ : ∃ e', c.rules.find? (fun e => Rule.ofId? e.1 = some r) = some e' :=
      Option.isSome_iff_exists.mp (List.find?_isSome.mpr ⟨e, he, by simpa using hrule⟩)
    have hrule' : Rule.ofId? e'.1 = some r := by simpa using List.find?_some hfind
    rw [action?, hfind, Option.map_some,
      h e' (List.mem_of_find?_eq_some hfind) e he ((Rule.ofId?_eq_iff hrule').mp hrule)]

end Configuration

theorem RuleAction.apply_injective : Function.Injective RuleAction.apply := by
  intro a b h
  cases a <;> cases b <;> first | rfl | cases h

/-- The severities under a policy whose entries all name rules do not depend on the order of the entries exactly
if entries that are spelt alike have the same action. -/
theorem policy_order_free_iff {c : Configuration} (h : c.unknownRule? = none) :
    (∀ rules₁ rules₂, rules₁.Perm c.rules → rules₂.Perm c.rules → ∀ rule severity,
      { c with rules := rules₁ }.severity? rule severity =
        { c with rules := rules₂ }.severity? rule severity) ↔
    ∀ e ∈ c.rules, ∀ e' ∈ c.rules, Rule.SpeltAlike e.1 e'.1 → e.2 = e'.2 := by
  constructor
  · intro hfree e he e' he' halike
    obtain ⟨r, hr⟩ := Configuration.exists_rule_of_mem h he
    have hr' : Rule.ofId? e'.1 = some r := (Rule.ofId?_eq_iff hr).mpr halike
    have hsame := hfree _ _ (List.perm_cons_erase he).symm (List.perm_cons_erase he').symm r .error
    rw [Configuration.severity?, Configuration.severity?, Configuration.action?_cons hr,
      Configuration.action?_cons hr'] at hsame
    exact RuleAction.apply_injective hsame
  · intro hagree rules₁ rules₂ hperm₁ hperm₂ rule severity
    have haction {rules : List (String × RuleAction)} (hperm : rules.Perm c.rules) (a : RuleAction) :
        { c with rules }.action? rule = some a ↔
          ∃ e ∈ c.rules, Rule.ofId? e.1 = some rule ∧ e.2 = a := by
      rw [Configuration.action?_eq_some_iff fun e he e' he' =>
        hagree e (hperm.mem_iff.mp he) e' (hperm.mem_iff.mp he')]
      simp only [hperm.mem_iff]
    have hsame : { c with rules := rules₁ }.action? rule = { c with rules := rules₂ }.action? rule :=
      Option.ext fun a => (haction hperm₁ a).trans (haction hperm₂ a).symm
    rw [Configuration.severity?, Configuration.severity?, hsame]

def wavering : Configuration :=
  { Configuration.standard with rules := [("CTR-dual-test", .off), (" ctr-Dual-test", .error)] }

/-- The two entries have different keys, and both are accepted; the one that comes first decides. -/
theorem wavering_decided_by_order :
    (wavering.rules.map (·.1)).Nodup ∧ wavering.unknownRule? = none ∧
    ¬∀ rules₁ rules₂, rules₁.Perm wavering.rules → rules₂.Perm wavering.rules → ∀ rule severity,
      { wavering with rules := rules₁ }.severity? rule severity =
        { wavering with rules := rules₂ }.severity? rule severity := by
  have haccepted : wavering.unknownRule? = none := by decide +kernel
  refine ⟨by decide, haccepted, ?_⟩
  rw [policy_order_free_iff haccepted]
  intro h
  have := h ("CTR-dual-test", .off) (by simp [wavering]) (" ctr-Dual-test", .error) (by simp [wavering])
    (by unfold Rule.SpeltAlike; decide +kernel)
  cases this

end Concord
