import Concord.Proofs.Locations
import Concord.Proofs.Members
import Concord.Proofs.Outcomes

/-! Reading a record fails exactly if an object type in it, at any depth, is not closed inside its
member. Everything else a record may hold is read or left out. The boundaries of a source are
refused exactly if one of them is told by an offset inside a character. -/
namespace Concord.TypeScript

open Source Text Pattern

variable {s : Source}

/-- An object type in the record, or in one of its object types, is not closed inside its member. -/
inductive Overruns (s : Source) : (opening close : Nat) → Prop
  | here {opening close : Nat} {span : Span} {brace k : Nat}
      (h : ObjectIn s opening close span brace k) (hk : span.stop ≤ k) : Overruns s opening close
  | inside {opening close : Nat} {span : Span} {brace k : Nat}
      (h : ObjectIn s opening close span brace k) (hinner : Overruns s brace k) :
      Overruns s opening close

theorem overruns_iff {opening close : Nat} : Overruns s opening close ↔
    ∃ span brace k, ObjectIn s opening close span brace k ∧
      (Overruns s brace k ∨ span.stop ≤ k) := by
  constructor
  · intro h
    cases h with
    | here h hk => exact ⟨_, _, _, h, .inr hk⟩
    | inside h hinner => exact ⟨_, _, _, h, .inl hinner⟩
  · rintro ⟨span, brace, k, h, hinner | hk⟩
    · exact .inside h hinner
    · exact .here h hk

/-- Adding a member fails exactly if it holds an object type that cannot be read or that is not
closed inside the member. -/
theorem add_error_iff
    {inner : (opening close : Nat) → String → Except BadCut (List FieldDecl × List TypeDecl)}
    {Bad : Nat → Nat → Prop} {span : Span}
    (hinner : ∀ brace k owner, objectBrace? s span = some brace → s.closing? brace = some k →
      ((∃ e, inner brace k owner = .error e) ↔ Bad brace k))
    (owner : String) (r : RecordSoFar) :
    (∃ e, r.add s inner owner span = .error e) ↔
      ∃ brace k, objectBrace? s span = some brace ∧ s.closing? brace = some k ∧
        (Bad brace k ∨ span.stop ≤ k) := by
  unfold RecordSoFar.add
  unfold objectBrace? at hinner ⊢
  cases hrest : decoratorsOf s span with
  | mk decorators rest =>
    by_cases hempty : rest.isEmpty = true
    · simp [hempty]
    · cases hmember : memberOf? span rest with
      | none => simp [hempty, hmember]
      | some m =>
        cases hbrace : m.brace? with
        | none => simp [hempty, hmember, hbrace]
        | some brace =>
          cases hclose : s.closing? brace with
          | none => simp [hempty, hmember, hbrace, hclose]
          | some k =>
            have hbad := hinner brace k (owner ++ "$" ++ String.ofList m.name)
              (by simp [hrest, hempty, hmember, hbrace]) hclose
            cases hrun : inner brace k (owner ++ "$" ++ String.ofList m.name) with
            | error e =>
              have := hbad.mp ⟨e, hrun⟩
              simp [hempty, hmember, hbrace, hclose, hrun, bind, Except.bind, this]
            | ok found =>
              have hgood : ¬Bad brace k := fun h => by simpa [hrun] using hbad.mpr h
              by_cases hstop : span.stop < k + 1
              · have : span.stop ≤ k := by omega
                simp [hempty, hmember, hbrace, hclose, hrun, bind, Except.bind, hstop, this, throw,
                  throwThe, MonadExceptOf.throw]
              · have : ¬span.stop ≤ k := by omega
                simp [hempty, hmember, hbrace, hclose, hrun, bind, Except.bind, hstop, this, hgood,
                  pure, Except.pure]

theorem lt_size_of_closing? (hs : Aligned s) (hn : Nested s.skeleton.toList) {opening close : Nat}
    (h : s.closing? opening = some close) : opening < s.text.size := by
  obtain ⟨o, -, ho, -⟩ := ((closing?_eq_some_iff hn).mp h).closingFrom?
  obtain ⟨hlt, -⟩ := List.getElem?_eq_some_iff.mp ho
  rwa [Array.length_toList, hs.skeleton_size] at hlt

theorem recordFields_error_iff (hs : Aligned s) (hn : Nested s.skeleton.toList) {fuel : Nat}
    {opening close : Nat} (hclose : s.closing? opening = some close)
    (hfuel : s.text.size < opening + fuel) (owner : String) :
    (∃ e, recordFields s fuel opening close owner = .error e) ↔ Overruns s opening close := by
  induction fuel generalizing opening close owner with
  | zero =>
    have := lt_size_of_closing? hs hn hclose
    omega
  | succ fuel ih =>
    have hstep : ∀ r, ∀ span ∈ members s opening close,
        (∃ e, RecordSoFar.add s (recordFields s fuel) owner r span = .error e) ↔
          ∃ brace k, objectBrace? s span = some brace ∧ s.closing? brace = some k ∧
            (Overruns s brace k ∨ span.stop ≤ k) := by
      intro r span hspan
      refine add_error_iff (fun brace k owner hbrace hk => ih hk ?_ owner) owner r
      have := (ObjectIn.mk hspan hbrace hk).place hs hn hclose
      omega
    have hfold := foldlM_error_iff hstep ⟨[], [], []⟩
    rw [recordFields, bind_error_iff (by exact fun _ => ⟨_, rfl⟩), hfold, overruns_iff]
    constructor
    · rintro ⟨span, hspan, brace, k, hbrace, hk, hover⟩
      exact ⟨span, brace, k, ⟨hspan, hbrace, hk⟩, hover⟩
    · rintro ⟨span, brace, k, ⟨hspan, hbrace, hk⟩, hover⟩
      exact ⟨span, hspan, brace, k, hbrace, hk, hover⟩

theorem fieldsOf_error_iff (hs : Aligned s) (hn : Nested s.skeleton.toList) {opening close : Nat}
    (hclose : s.closing? opening = some close) (owner : String) :
    (∃ e, fieldsOf s opening close owner = .error e) ↔ Overruns s opening close := by
  have hfuel : s.text.size < opening + (s.text.size + 1) := by omega
  exact recordFields_error_iff hs hn hclose hfuel owner

/-- The braces of a record: of an interface or a class, of an alias of an object type, or of an
object type in a member. -/
inductive Body (s : Source) : (opening close : Nat) → Prop
  | record {m : Match} {close : Nat} (hm : m ∈ s.matchesOf interfaceHead ++ s.matchesOf classHead)
      (hclose : s.closing? (m.stop - 1) = some close) : Body s (m.stop - 1) close
  | synonym {m : Match} {close : Nat} (hm : m ∈ s.matchesOf aliasHead)
      (hbrace : s.code[m.stop]? = some Byte.openBrace) (hclose : s.closing? m.stop = some close) :
      Body s m.stop close
  | object {opening close : Nat} {span : Span} {brace k : Nat} (houter : Body s opening close)
      (h : ObjectIn s opening close span brace k) : Body s brace k

theorem Body.closing_eq {opening close : Nat} (h : Body s opening close) :
    s.closing? opening = some close := by
  cases h with
  | record hm hclose => exact hclose
  | synonym hm hbrace hclose => exact hclose
  | object houter h => exact h.closing_eq

theorem recordDecls_error_iff (hs : Aligned s) (hn : Nested s.skeleton.toList) (m : Match) :
    (∃ e, recordDecls s m = .error e) ↔
      ∃ close, s.closing? (m.stop - 1) = some close ∧ Overruns s (m.stop - 1) close := by
  unfold recordDecls
  cases hclose : s.closing? (m.stop - 1) with
  | none => simp
  | some close =>
    dsimp only
    rw [bind_error_iff (by exact fun _ => ⟨_, rfl⟩), fieldsOf_error_iff hs hn hclose]
    simp

theorem aliasDecls_error_iff (hs : Aligned s) (hn : Nested s.skeleton.toList) (m : Match) :
    (∃ e, aliasDecls s m = .error e) ↔ s.code[m.stop]? = some Byte.openBrace ∧
      ∃ close, s.closing? m.stop = some close ∧ Overruns s m.stop close := by
  unfold aliasDecls
  dsimp only
  by_cases hbrace : s.code[m.stop]? = some Byte.openBrace
  · rw [if_pos (by simpa using hbrace)]
    cases hclose : s.closing? m.stop with
    | none => simp [pure, Except.pure]
    | some close =>
      dsimp only
      rw [bind_error_iff (by exact fun _ => ⟨_, rfl⟩), fieldsOf_error_iff hs hn hclose]
      simp [hbrace]
  · rw [if_neg (by simpa using hbrace)]
    split <;> simp [pure, Except.pure, hbrace]

/-- A record that overruns holds a record with an object type that is not closed inside its member.
-/
theorem Overruns.exists_body {opening close : Nat} (h : Overruns s opening close)
    (hbody : Body s opening close) :
    ∃ opening close span brace k, Body s opening close ∧ ObjectIn s opening close span brace k ∧
      span.stop ≤ k := by
  induction h with
  | here h hk => exact ⟨_, _, _, _, _, hbody, h, hk⟩
  | inside h hinner ih => exact ih (.object hbody h)

theorem declarations_error_iff (hs : Aligned s) (hn : Nested s.skeleton.toList) :
    (∃ e, declarations s = .error e) ↔
      ∃ opening close span brace k, Body s opening close ∧ ObjectIn s opening close span brace k ∧
        span.stop ≤ k := by
  have hheads : (∃ e, declarations s = .error e) ↔
      (∃ m ∈ s.matchesOf interfaceHead ++ s.matchesOf classHead, ∃ e, recordDecls s m = .error e) ∨
        ∃ m ∈ s.matchesOf aliasHead, ∃ e, aliasDecls s m = .error e := by
    unfold declarations
    rw [← mapM_error_iff, ← mapM_error_iff]
    cases (s.matchesOf interfaceHead ++ s.matchesOf classHead).mapM (recordDecls s) with
    | error e => simp [bind, Except.bind]
    | ok records =>
      change (∃ e, ((s.matchesOf aliasHead).mapM (aliasDecls s) >>= _) = Except.error e) ↔ _
      rw [bind_error_iff (by exact fun _ => ⟨_, rfl⟩)]
      simp
  rw [hheads]
  constructor
  · rintro (⟨m, hm, herr⟩ | ⟨m, hm, herr⟩)
    · obtain ⟨close, hclose, hover⟩ := (recordDecls_error_iff hs hn m).mp herr
      exact hover.exists_body (.record hm hclose)
    · obtain ⟨hbrace, close, hclose, hover⟩ := (aliasDecls_error_iff hs hn m).mp herr
      exact hover.exists_body (.synonym hm hbrace hclose)
  · rintro ⟨opening, close, span, brace, k, hbody, hobject, hk⟩
    have hover : Overruns s opening close := .here hobject hk
    -- an object type that overruns makes the record around it overrun, up to a declaration
    clear hobject hk
    induction hbody with
    | record hm hclose =>
      exact .inl ⟨_, hm, (recordDecls_error_iff hs hn _).mpr ⟨_, hclose, hover⟩⟩
    | synonym hm hbrace hclose =>
      exact .inr ⟨_, hm, (aliasDecls_error_iff hs hn _).mpr ⟨hbrace, _, hclose, hover⟩⟩
    | object houter h ih => exact ih (.inside h hover)

theorem FoundPayload.located_ok_iff (p : FoundPayload) :
    (∃ r, p.located s = .ok r) ↔ ∃ l, s.location p.offset = .ok l := by
  unfold FoundPayload.located
  exact bind_pure_ok_iff

theorem FoundBoundary.located_ok_iff (f : FoundBoundary) :
    (∃ r, f.located s = .ok r) ↔ ∀ o ∈ f.offsets, ∃ l, s.location o = .ok l := by
  unfold FoundBoundary.located
  rw [bind_ok_iff_and fun _ => bind_ok_iff_and fun _ => bind_pure_ok_iff, option_mapM_ok_iff,
    option_mapM_ok_iff]
  simp only [FoundPayload.located_ok_iff, FoundBoundary.offsets, List.forall_mem_cons,
    List.forall_mem_map, List.forall_mem_append, Option.mem_toList, Option.mem_def]

theorem observations_ok_iff (htext : IsUtf8 s.text.toList) (rs : List Routine) :
    (∃ r, observations s rs = .ok r) ↔
      ∀ f ∈ boundaries s rs, ∀ o ∈ f.offsets, ¬SplitsCharacter s o := by
  unfold observations
  simp only [mapM_ok_iff, FoundBoundary.located_ok_iff, location_ok_iff htext]

/-- An object type is closed inside its member exactly if no other member starts inside it, and if it
is not then it holds a closing angle that is no arrow. An extraction gives a result or says why the
text cannot be read exactly if every object type in a record is closed inside its member and no
boundary is told by an offset inside a character. -/
theorem objects_closed_inside_iff (path content : String) :
    (∀ s opening close span brace k, read Language.typeScript.lexis path content = .ok s →
        Body s opening close → ObjectIn s opening close span brace k →
        (k < span.stop ↔ ∀ q ∈ members s opening close, ¬(brace < q.start ∧ q.start ≤ k)) ∧
          (span.stop ≤ k → ∃ j, brace ≤ j ∧ j + 1 < k ∧ s.skeleton[j + 1]? = some Byte.greater ∧
            s.skeleton[j]? ≠ some Byte.equals)) ∧
      (((∃ x, extract .typeScript path content = .ok x) ∨
          ∃ e, extract .typeScript path content = .error (.parse e)) ↔
        ∀ s, read Language.typeScript.lexis path content = .ok s →
          (∀ opening close span brace k, Body s opening close →
            ObjectIn s opening close span brace k → k < span.stop) ∧
          ∀ f ∈ boundaries s (routines s), ∀ o ∈ f.offsets, ¬SplitsCharacter s o) := by
  constructor
  · intro s opening close span brace k hread hbody h
    have hs := aligned_of_read hread
    have hn := nested_of_read hread
    exact ⟨h.closed_inside_iff hs hn hbody.closing_eq, h.exists_angle hs hn hbody.closing_eq⟩
  · rw [extract_settled_iff]
    refine forall₂_congr fun s hread => and_congr ?_ ?_
    · have hrefused := declarations_error_iff (aligned_of_read hread) (nested_of_read hread)
      refine exists_ok_iff.trans ((not_congr hrefused).trans ?_)
      simp only [not_exists, not_and, Nat.not_le]
    · exact observations_ok_iff (text_utf8_of_read hread) _

/-- Two comparisons in the code of a method: the first brings the depth down to that of members, and
the second ends inside its braces what then reads as the member `x`. -/
def labelledBlock : String := "class A \x7b f() \x7b a > 1; x: \x7b b > 2; \x7d \x7d \x7d"

theorem labelledBlock_refused :
    ∃ s, read Language.typeScript.lexis "m.ts" labelledBlock = .ok s ∧ ∃ e, declarations s = .error e := by
  have hview : (read Language.typeScript.lexis "m.ts" labelledBlock).map
      (fun s => (declarations s).isOk) = .ok false := by decide +kernel
  cases hread : read Language.typeScript.lexis "m.ts" labelledBlock with
  | error e => simp [hread, Except.map] at hview
  | ok s =>
    have hrefused : (declarations s).isOk = false := by simpa [hread, Except.map] using hview
    refine ⟨s, rfl, not_not.mp (exists_ok_iff.not.mp ?_)⟩
    rw [← isOk_iff, hrefused]
    simp

/-- A cast whose type is left out. What stands for it is the last byte of the comment, which the code
shows as a blank. -/
def castToComment : String := "let r = fetch('/a');\nlet d = r.json() as // é"

theorem castToComment_refused :
    ∃ s, read Language.typeScript.lexis "m.ts" castToComment = .ok s ∧
      ¬∃ found, observations s (routines s) = .ok found := by
  have hview : (read Language.typeScript.lexis "m.ts" castToComment).map (fun s =>
      (s.matchesOf function ++ s.matchesOf method ++ s.matchesOf arrowBody).isEmpty &&
        !(observations s []).isOk) = .ok true := by decide +kernel
  cases hread : read Language.typeScript.lexis "m.ts" castToComment with
  | error e => simp [hread, Except.map] at hview
  | ok s =>
    obtain ⟨⟨hfunctions, hmethods, harrows⟩, hrefused⟩ : (s.matchesOf function = [] ∧
        s.matchesOf method = [] ∧ s.matchesOf arrowBody = []) ∧
        (observations s []).isOk = false := by
      simpa [hread, Except.map] using hview
    have hroutines : routines s = [] := by
      simp [routines, hfunctions, hmethods, harrows, Routine.dropSameSpans]
    refine ⟨s, rfl, ?_⟩
    rw [hroutines, ← isOk_iff, hrefused]
    simp

/-- The object type is cut by another member, and the type of the cast starts inside a character. -/
theorem object_cut_at_comparison :
    (¬((∃ x, extract .typeScript "m.ts" labelledBlock = .ok x) ∨
        ∃ e, extract .typeScript "m.ts" labelledBlock = .error (.parse e)) ∧
      ∃ s opening close span brace k, read Language.typeScript.lexis "m.ts" labelledBlock = .ok s ∧
        Body s opening close ∧ ObjectIn s opening close span brace k ∧ span.stop ≤ k ∧
        (∃ q ∈ members s opening close, brace < q.start ∧ q.start ≤ k) ∧
        ∃ j, brace ≤ j ∧ j + 1 < k ∧ s.skeleton[j + 1]? = some Byte.greater) ∧
    ¬((∃ x, extract .typeScript "m.ts" castToComment = .ok x) ∨
        ∃ e, extract .typeScript "m.ts" castToComment = .error (.parse e)) ∧
      ∃ s, read Language.typeScript.lexis "m.ts" castToComment = .ok s ∧
        ∃ f ∈ boundaries s (routines s), ∃ o ∈ f.offsets, SplitsCharacter s o := by
  obtain ⟨s, hread, hrefused⟩ := labelledBlock_refused
  obtain ⟨s', hread', hrefused'⟩ := castToComment_refused
  constructor
  · obtain ⟨opening, close, span, brace, k, hbody, hobject, hk⟩ :=
      (declarations_error_iff (aligned_of_read hread) (nested_of_read hread)).mp hrefused
    obtain ⟨hplace, hsettled⟩ := objects_closed_inside_iff "m.ts" labelledBlock
    obtain ⟨hinside, hangle⟩ := hplace s opening close span brace k hread hbody hobject
    obtain ⟨j, hbj, hjk, hj, -⟩ := hangle hk
    refine ⟨fun h => ?_, s, opening, close, span, brace, k, hread, hbody, hobject, hk, ?_, j, hbj, hjk,
      hj⟩
    · have := (hsettled.mp h s hread).1 opening close span brace k hbody hobject
      omega
    · have hcut := hinside.not.mp (Nat.not_lt.mpr hk)
      simpa only [not_forall, not_not, exists_prop] using hcut
  · rw [observations_ok_iff (text_utf8_of_read hread')] at hrefused'
    refine ⟨fun h => ?_, s', hread', by simpa only [not_forall, not_not, exists_prop] using hrefused'⟩
    exact hrefused' ((objects_closed_inside_iff "m.ts" castToComment).2.mp h s' hread').2

end Concord.TypeScript
