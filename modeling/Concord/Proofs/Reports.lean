import Mathlib.Data.List.Nodup
import Concord.Check
import Concord.Project.Tree
import Concord.Proofs.Orders
import Concord.Proofs.Outcomes

/-! A report is on the files that can be used. It is the same in whatever order and in whatever
batches the files are read, and a file that cannot be used adds its own diagnostic and nothing else.
-/
namespace Concord

open Std

variable {f : FileExtraction}

theorem Diagnostic.compare_eq_lex : Diagnostic.compare =
    compareLex (compareOn (·.kind.rank)) (compareLex (fun a b => a.location.compare b.location)
      (compareOn (·.message))) := rfl

instance : TransCmp fun a b : Diagnostic => a.location.compare b.location where
  eq_swap := OrientedCmp.eq_swap
  isLE_trans := TransCmp.isLE_trans

instance : TransCmp Diagnostic.compare := by
  rw [Diagnostic.compare_eq_lex]
  infer_instance

instance : LawfulEqCmp Diagnostic.compare where
  eq_of_compare {a b} h := by
    cases a with | mk kind location message => ?_
    cases b with | mk kind' location' message' => ?_
    simp only [Diagnostic.compare, Ordering.then_eq_eq, Std.compare_eq_iff_eq] at h
    have hkind : kind = kind' := by
      cases kind <;> cases kind' <;> simp_all [DiagnosticKind.rank]
    rw [hkind, LawfulEqCmp.eq_of_compare h.2.1, h.2.2]

namespace Report

@[simp] theorem mem_sortedDiagnostics {d : Diagnostic} {ds : List Diagnostic} :
    d ∈ sortedDiagnostics ds ↔ d ∈ ds := by
  simp [sortedDiagnostics]

theorem ascending_sortedDiagnostics (ds : List Diagnostic) :
    (sortedDiagnostics ds).Pairwise fun a b => a.compare b = .lt :=
  Text.ascending_dropRepeats_mergeSort ds

end Report

theorem usableFiles_eq (xs : List Contribution) :
    usableFiles xs =
      (xs.filterMap Except.toOption).mergeSort fun a b => compare a.path b.path != .gt := by
  unfold usableFiles
  congr
  funext x
  cases x <;> rfl

theorem mem_usable {xs : List Contribution} : f ∈ xs.filterMap Except.toOption ↔ .ok f ∈ xs := by
  rw [List.mem_filterMap]
  constructor
  · rintro ⟨x, hx, hf⟩
    cases x with
    | error d => cases hf
    | ok g => exact Option.some.inj hf ▸ hx
  · intro h
    exact ⟨.ok f, h, rfl⟩

@[simp] theorem mem_unusableFiles {xs : List Contribution} {d : Diagnostic} :
    d ∈ unusableFiles xs ↔ .error d ∈ xs := by
  unfold unusableFiles
  rw [List.mem_filterMap]
  constructor
  · rintro ⟨x, hx, hd⟩
    cases x with
    | error e => exact Option.some.inj hd ▸ hx
    | ok f => cases hd
  · intro h
    exact ⟨.error d, h, rfl⟩

theorem usableFiles_eq_of_perm {xs ys : List Contribution}
    (hpaths : ∀ f, .ok f ∈ xs → ∀ g, .ok g ∈ xs → f.path = g.path → f = g) (h : xs.Perm ys) :
    usableFiles xs = usableFiles ys := by
  rw [usableFiles_eq, usableFiles_eq]
  apply mergeSort_key_eq_of_perm
  · intro f hf g hg
    exact hpaths f (mem_usable.mp hf) g (mem_usable.mp hg)
  · exact h.filterMap _

theorem usableFiles_append {xs ys : List Contribution} (hys : ∀ f, .ok f ∉ ys) :
    usableFiles (xs ++ ys) = usableFiles xs := by
  have hnone : ys.filterMap Except.toOption = [] :=
    List.eq_nil_iff_forall_not_mem.mpr fun f hf => hys f (mem_usable.mp hf)
  rw [usableFiles_eq, usableFiles_eq, List.filterMap_append, hnone, List.append_nil]

section Report

variable (manifest : Manifest) (c : Configuration) (only : Option Rule) {xs ys : List Contribution}

theorem violations_eq_of_usableFiles (h : usableFiles xs = usableFiles ys) :
    (Report.of manifest c only xs).violations = (Report.of manifest c only ys).violations := by
  simp only [Report.of, h]

theorem ascending_diagnostics :
    (Report.of manifest c only xs).diagnostics.Pairwise fun a b => a.compare b = .lt :=
  Report.ascending_sortedDiagnostics _

/-- Beside what is bound to nothing, the diagnostics are those of the files that cannot be used. -/
theorem mem_diagnostics_iff (h : usableFiles xs = usableFiles ys) (ds : List Diagnostic)
    (hds : ∀ d, .error d ∈ xs ↔ .error d ∈ ys ∨ d ∈ ds) (d : Diagnostic) :
    d ∈ (Report.of manifest c only xs).diagnostics ↔
      d ∈ (Report.of manifest c only ys).diagnostics ∨ d ∈ ds := by
  simp only [Report.of, Report.mem_sortedDiagnostics, List.mem_append, mem_unusableFiles, h, hds]
  tauto

theorem report_eq_of_perm
    (hpaths : ∀ f, .ok f ∈ xs → ∀ g, .ok g ∈ xs → f.path = g.path → f = g) (h : xs.Perm ys) :
    Report.of manifest c only xs = Report.of manifest c only ys := by
  have hfiles := usableFiles_eq_of_perm hpaths h
  have hdiagnostics : (Report.of manifest c only xs).diagnostics =
      (Report.of manifest c only ys).diagnostics := by
    apply eq_of_ascending (ascending_diagnostics ..) (ascending_diagnostics ..)
    intro d
    simpa using mem_diagnostics_iff manifest c only hfiles [] (by simp [h.mem_iff]) d
  have hviolations := violations_eq_of_usableFiles manifest c only hfiles
  cases hx : Report.of manifest c only xs
  cases hy : Report.of manifest c only ys
  simp_all

end Report

theorem flatten_batches {α : Type} (size : Nat) (l : List α) : (batches size l).flatten = l := by
  fun_induction batches size l with
  | case1 => rfl
  | case2 a rest ih => simp [ih]

section Gather

variable {files : Access Id} {contribution : SourceCandidate → Contribution}
  {candidates : List SourceCandidate}

theorem gather_eq (size : Nat) : gather files size candidates =
    (candidates.map fun s => s.contribution (files.read s.path)).mapM fun x => x := by
  have hread : ((batches size candidates).mapM fun batch => batch.mapM fun s =>
      s.contribution <$> files.read s.path) =
        pure ((batches size candidates).map fun batch => batch.map fun s =>
          s.contribution (files.read s.path)) := by
    rw [← List.mapM_pure]
    congr
    funext batch
    rw [← List.mapM_pure]
    rfl
  calc gather files size candidates
    _ = ((batches size candidates).map fun batch => batch.map fun s =>
          s.contribution (files.read s.path)).flatten.mapM fun x => x := by
      simp only [gather, bind_pure_comp, hread]
      rfl
    _ = (candidates.map fun s => s.contribution (files.read s.path)).mapM fun x => x := by
      rw [← List.map_flatten, flatten_batches]

theorem gather_of_settled (size : Nat)
    (h : ∀ s ∈ candidates, s.contribution (files.read s.path) = .ok (contribution s)) :
    gather files size candidates = .ok (candidates.map contribution) := by
  have hread : (candidates.map fun s => s.contribution (files.read s.path)) =
      (candidates.map contribution).map .ok := by
    simpa using h
  calc gather files size candidates
    _ = candidates.mapM fun s => pure (contribution s) := by
      rw [gather_eq, hread, List.mapM_map, List.mapM_map]
      rfl
    _ = .ok (candidates.map contribution) := List.mapM_pure

theorem path_of_contribution {s : SourceCandidate} {content : Except ReadFailure String}
    (h : s.contribution content = .ok (.ok f)) : f.path = s.relative := by
  cases content with
  | error e => simp [SourceCandidate.contribution] at h
  | ok text =>
    unfold SourceCandidate.contribution at h
    dsimp only at h
    split at h
    · next file hfile =>
      obtain rfl : file = f := by simpa using h
      unfold extract at hfile
      split at hfile
      · cases hfile
      · split at hfile
        · cases hfile
        · next found hfound =>
          obtain rfl := Except.ok.inj hfile
          obtain ⟨_, -, hrest⟩ := bind_eq_ok hfound
          obtain ⟨_, -, hrest⟩ := bind_eq_ok hrest
          obtain rfl := Except.ok.inj hrest
          rfl
    · simp at h
    · simp at h

/-- Source files with different paths contribute files with different paths. -/
theorem eq_of_path_eq (hpaths : (candidates.map (·.relative)).Nodup)
    (hsettled : ∀ s ∈ candidates, s.contribution (files.read s.path) = .ok (contribution s)) :
    ∀ f, .ok f ∈ candidates.map contribution → ∀ g, .ok g ∈ candidates.map contribution →
      f.path = g.path → f = g := by
  intro f hf g hg hpath
  obtain ⟨s, hs, hsf⟩ := List.mem_map.mp hf
  obtain ⟨t, ht, htg⟩ := List.mem_map.mp hg
  have hsame : s.relative = t.relative := by
    rw [← path_of_contribution (hsf ▸ hsettled s hs), ← path_of_contribution (htg ▸ hsettled t ht),
      hpath]
  have hst : s = t := List.inj_on_of_nodup_map hpaths hs ht hsame
  rw [hst, htg] at hsf
  exact (Except.ok.inj hsf).symm

end Gather

def reportOn (files : Access Id) (manifest : Manifest) (c : Configuration) (only : Option Rule)
    (size : Nat) (candidates : List SourceCandidate) : Except BadCut Report :=
  (gather files size candidates).run.map (Report.of manifest c only)

theorem reportOn_of_settled (manifest : Manifest) (c : Configuration) (only : Option Rule) (size : Nat)
    {files : Access Id} {contribution : SourceCandidate → Contribution}
    {candidates : List SourceCandidate}
    (h : ∀ s ∈ candidates, s.contribution (files.read s.path) = .ok (contribution s)) :
    reportOn files manifest c only size candidates =
      .ok (Report.of manifest c only (candidates.map contribution)) := by
  rw [reportOn, gather_of_settled size h]
  rfl

/-- Where every file is read and taken apart or left out with a diagnostic, there is one report on
source files with different paths, whatever their order and the size of the batches. With files that
are left out added among them, the violations are the same, and the diagnostics, which ascend
strictly, are those of before and of the added files. -/
theorem report_on_usable_files (manifest : Manifest) (c : Configuration) (only : Option Rule)
    {files : Access Id} {contribution : SourceCandidate → Contribution}
    {candidates failing : List SourceCandidate}
    (hpaths : (candidates.map (·.relative)).Nodup)
    (hsettled : ∀ s ∈ candidates ++ failing,
      s.contribution (files.read s.path) = .ok (contribution s))
    (hfailing : ∀ s ∈ failing, ∃ d, contribution s = .error d) :
    ∃ report,
      (∀ size candidates', candidates'.Perm candidates →
        reportOn files manifest c only size candidates' = .ok report) ∧
      ∀ size candidates', candidates'.Perm (candidates ++ failing) →
        ∃ report', reportOn files manifest c only size candidates' = .ok report' ∧
          report'.violations = report.violations ∧
          (report'.diagnostics.Pairwise fun a b => a.compare b = .lt) ∧
          ∀ d, d ∈ report'.diagnostics ↔
            d ∈ report.diagnostics ∨ ∃ s ∈ failing, contribution s = .error d := by
  have hused : ∀ s ∈ candidates, s.contribution (files.read s.path) = .ok (contribution s) :=
    fun s hs => hsettled s (List.mem_append_left _ hs)
  have hinj := eq_of_path_eq hpaths hused
  refine ⟨Report.of manifest c only (candidates.map contribution), ?_, ?_⟩
  · intro size candidates' hperm
    rw [reportOn_of_settled manifest c only size fun s hs => hused s (hperm.mem_iff.mp hs),
      report_eq_of_perm manifest c only hinj (hperm.symm.map contribution)]
  · intro size candidates' hperm
    have hleft : ∀ f, .ok f ∉ failing.map contribution := by
      intro f hf
      obtain ⟨s, hs, hsf⟩ := List.mem_map.mp hf
      obtain ⟨d, hd⟩ := hfailing s hs
      simp [hd] at hsf
    have hperm' : ((candidates ++ failing).map contribution).Perm (candidates'.map contribution) :=
      hperm.symm.map contribution
    have hfiles : usableFiles (candidates'.map contribution) =
        usableFiles (candidates.map contribution) := by
      rw [List.map_append] at hperm'
      have hsame := usableFiles_eq_of_perm (fun f hf g hg => hinj f
        ((List.mem_append.mp hf).resolve_right (hleft f)) g
        ((List.mem_append.mp hg).resolve_right (hleft g))) hperm'
      exact hsame.symm.trans (usableFiles_append hleft)
    have hdiagnostics : ∀ d, .error d ∈ candidates'.map contribution ↔
        .error d ∈ candidates.map contribution ∨ d ∈ unusableFiles (failing.map contribution) := by
      intro d
      rw [← hperm'.mem_iff, List.map_append, List.mem_append, mem_unusableFiles]
    refine ⟨_, reportOn_of_settled manifest c only size fun s hs =>
      hsettled s (hperm.mem_iff.mp hs), ?_, ?_, ?_⟩
    · exact violations_eq_of_usableFiles manifest c only hfiles
    · exact ascending_diagnostics manifest c only
    · intro d
      rw [mem_diagnostics_iff manifest c only hfiles _ hdiagnostics, mem_unusableFiles, List.mem_map]

def threeModules : Access Id :=
  Tree.access ⟨[.ofText "a.go" "package a\n", .ofText "b.py" "f(\n",
    .ofText "c.ts" "let c = 1;\n"]⟩ none

def moduleAt (path : String) (language : Language) : SourceCandidate := ⟨path, path, language⟩

def usedModules : List SourceCandidate := [moduleAt "a.go" .go, moduleAt "c.ts" .typeScript]

def failingModules : List SourceCandidate := [moduleAt "b.py" .python, moduleAt "d.java" .java]

def threeContributions (s : SourceCandidate) : Contribution :=
  (s.contribution (threeModules.read s.path)).toOption.getD (.error default)

theorem report_on_three_modules :
    ∃ report report',
      reportOn threeModules default .standard none 4 usedModules = .ok report ∧
      reportOn threeModules default .standard none 1 usedModules.reverse = .ok report ∧
      reportOn threeModules default .standard none 3 (failingModules ++ usedModules) = .ok report' ∧
      report'.violations = report.violations ∧
      ⟨.sourceParse, ⟨"b.py", 1, 1⟩, "'(' is never closed"⟩ ∈ report'.diagnostics := by
  have hsettled : ∀ s ∈ usedModules ++ failingModules,
      s.contribution (threeModules.read s.path) = .ok (threeContributions s) := by
    have hok : ∀ s ∈ usedModules ++ failingModules,
        (s.contribution (threeModules.read s.path)).isOk = true := by
      decide +kernel
    intro s hs
    have h := hok s hs
    unfold threeContributions
    cases hx : s.contribution (threeModules.read s.path) with
    | error r => simp [hx, Except.isOk, Except.toBool] at h
    | ok x => rfl
  have hfailing : ∀ s ∈ failingModules, ∃ d, threeContributions s = .error d := by
    have hleft : ∀ s ∈ failingModules, (threeContributions s).isOk = false := by
      decide +kernel
    intro s hs
    have h := hleft s hs
    cases hx : threeContributions s with
    | error d => exact ⟨d, rfl⟩
    | ok f => simp [hx, Except.isOk, Except.toBool] at h
  obtain ⟨report, hsame, hmore⟩ := report_on_usable_files default .standard none (by decide) hsettled
    hfailing
  obtain ⟨report', hreport', hviolations, -, hdiagnostics⟩ := hmore 3 _ List.perm_append_comm
  refine ⟨report, report', hsame 4 _ (.refl _), hsame 1 _ (List.reverse_perm _), hreport', hviolations,
    (hdiagnostics _).mpr (.inr ⟨moduleAt "b.py" .python, List.mem_cons_self, ?_⟩)⟩
  have hparse : unusableFiles [threeContributions (moduleAt "b.py" .python)] =
      [⟨.sourceParse, ⟨"b.py", 1, 1⟩, "'(' is never closed"⟩] := by
    decide +kernel
  have hb := mem_unusableFiles.mp (hparse ▸ List.mem_singleton_self _)
  exact (List.mem_singleton.mp hb).symm

end Concord
