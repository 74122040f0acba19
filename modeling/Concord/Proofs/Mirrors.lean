import Mathlib.Tactic.MkIffOfInductiveProp
import Concord.Comparison.Contract
import Concord.Proofs.Orders
import Concord.Proofs.Schemas

/-! A shape mirrors a field if it tells the same about it, and so do the shapes inside. All checks
of the walk are silent where every participant mirrors the payload. -/
namespace Concord.Comparison

/-- The kind of value that a type of the manifest is found as in code. -/
def kindOf : FieldType → ShapeKind
  | .string => .string
  | .integer => .integer
  | .number => .number
  | .boolean => .boolean
  | .object => .object
  | .array => .array
  | .enum => .enum

/-- A shape that tells the same as a field, but for what is inside. -/
@[mk_iff]
structure Agrees (f : FieldSchema) (s : Shape) : Prop where
  name : s.name = f.name
  kind : s.kind = kindOf f.type
  format : s.format = f.format
  unit : s.unit = f.unit
  range : s.range = f.range
  enumValues : s.enumValues = f.enumValues
  required : s.required = f.required
  validated : s.validated = true → f.required = true
  declared : s.confidence = .declared
  anonymous : s.typeName = none

instance (f : FieldSchema) (s : Shape) : Decidable (Agrees f s) :=
  decidable_of_iff' _ (agrees_iff f s)

mutual

/-- Whether a shape tells the same as a field, at every depth. A field that is cut off is mirrored
without anything inside. -/
def mirrors : FieldSchema → Shape → Bool
  | f@⟨_, _, _, _, _, _, _, children, items, _, truncated⟩, s =>
    decide (Agrees f s) &&
      if truncated then s.children.isEmpty && s.items.isNone
      else mirrorsAll children s.children && mirrorsItem items s.items

/-- Whether shapes mirror fields one by one, in their order. -/
def mirrorsAll : List FieldSchema → List Shape → Bool
  | [], [] => true
  | f :: fs, s :: ss => mirrors f s && mirrorsAll fs ss
  | _, _ => false

def mirrorsItem : Option FieldSchema → Option Shape → Bool
  | none, none => true
  | some f, some s => mirrors f s
  | _, _ => false

end

def mirrorsPayload (fields : Payload) (s : Shape) : Bool :=
  s.kind = .object && s.confidence = .declared && mirrorsAll fields s.children

theorem mirrors_iff {f : FieldSchema} {s : Shape} :
    mirrors f s = true ↔ Agrees f s ∧
      if f.truncated then s.children = [] ∧ s.items = none
      else mirrorsAll f.children s.children = true ∧ mirrorsItem f.items s.items = true := by
  obtain ⟨name, type, format, unit, range, values, required, children, items, ref, truncated⟩ := f
  cases truncated with
  | true => simp [mirrors]
  | false => simp [mirrors]

theorem mirrorsAll_iff {fs : List FieldSchema} {ss : List Shape} :
    mirrorsAll fs ss = true ↔ List.Forall₂ (fun f s => mirrors f s = true) fs ss := by
  induction fs generalizing ss with
  | nil => cases ss <;> simp [mirrorsAll]
  | cons f fs ih => cases ss <;> simp [mirrorsAll, ih]

theorem agrees_of_mirrors {f : FieldSchema} {s : Shape} (h : mirrors f s = true) : Agrees f s :=
  (mirrors_iff.mp h).1

/-- A binding of which the evidence says nothing about values. -/
def OnlyVerifies (b : Binding) : Prop :=
  ∀ e ∈ b.evidence, e.kind = .signature ∨ e.kind = .timestampCheck

instance (b : Binding) : Decidable (OnlyVerifies b) := List.decidableBAll _ _

/-- Whether evidence tells how a value is written or what it is compared with. -/
def tellsForm : EvidenceKind → Bool
  | .render _ | .case _ | .enumLiteral _ => true
  | _ => false

/-- A binding whose evidence tells nothing about the form of values. -/
def Quiet (b : Binding) : Prop := ∀ e ∈ b.evidence, tellsForm e.kind = false

instance (b : Binding) : Decidable (Quiet b) := List.decidableBAll _ _

theorem OnlyVerifies.quiet {b : Binding} (h : OnlyVerifies b) : Quiet b := by
  intro e he
  rcases h e he with hk | hk <;> simp [hk, tellsForm]

/-- A value that the manifest lists in none of the forms that a participant gives it. -/
def Unlisted (f : FieldSchema) (p : Participant) (v : String) : Prop :=
  ∀ w ∈ forms (caseTransforms p (p.names f)) v, w ∉ f.enumValues

/-- A value that follows the casing of its service in none of the forms that a participant gives it. -/
def AgainstCasing (conventions : Conventions) (f : FieldSchema) (p : Participant) (v : String) : Prop :=
  ∃ casing ∈ conventions.enumCaseOf? p.service,
    ∀ w ∈ forms (caseTransforms p (p.names f)) v, casing.holds w = false

section Checks

variable {x : Exchange} {field : FieldSchema} {path : String} {p : Participant}
  {ps : List Participant}

theorem Quiet.comparedValues_eq_nil (h : Quiet p.binding) (names : List String) :
    comparedValues p names = [] := by
  unfold comparedValues
  split
  · rfl
  · refine List.eq_nil_iff_forall_not_mem.mpr fun v hv => ?_
    obtain ⟨e, he, hvalue⟩ := List.mem_filterMap.mp (Text.mem_sortedUnique.mp hv)
    have hform := h e he
    cases hk : e.kind <;> simp [hk, tellsForm] at hvalue hform

theorem Quiet.evidenceOn (h : Quiet p.binding) {names : List String} {e : Evidence}
    (he : e ∈ p.evidenceOn names) : tellsForm e.kind = false :=
  h e (List.mem_of_mem_filter he)

theorem Quiet.caseTransforms_eq_nil (h : Quiet p.binding) (names : List String) :
    caseTransforms p names = [] := by
  refine List.filterMap_eq_nil_iff.mpr fun e he => ?_
  have hform := h.evidenceOn he
  cases hk : e.kind <;> simp [hk, tellsForm] at hform ⊢

theorem Quiet.bareCents?_eq_none (h : Quiet p.binding) (names : List String) :
    bareCents? p names = none := by
  rw [bareCents?]
  split
  · rfl
  · refine List.find?_eq_none.mpr fun e he => ?_
    have hform := h.evidenceOn he
    cases hk : e.kind <;> simp [hk, tellsForm] at hform ⊢

theorem kindMismatch?_eq_none (h : Agrees field p.shape) : kindMismatch? x field p path = none := by
  have hfits : compatible field p.shape = true := by
    unfold compatible
    rw [h.kind]
    cases field.type <;> rfl
  rw [kindMismatch?, if_pos hfits]

theorem mem_checked {v : String} : v ∈ (if field.enumValues.isEmpty then [] else
      if p.supplier then Text.sortedUnique p.shape.enumValues else comparedValues p (p.names field)) ↔
    field.enumValues ≠ [] ∧
      if p.supplier then v ∈ p.shape.enumValues else v ∈ comparedValues p (p.names field) := by
  cases hvalues : field.enumValues <;> cases hsupplier : p.supplier <;> simp

theorem casing_isSome_iff {display : Casing → String → Mismatch} :
    ((x.conventions.enumCaseOf? p.service).bind fun casing =>
      ((Text.sortedUnique (Text.sortedUnique p.shape.enumValues ++
        comparedValues p (p.names field))).find? fun v =>
          !(forms (caseTransforms p (p.names field)) v).any casing.holds).map (display casing)).isSome ↔
    ∃ v, AgainstCasing x.conventions field p v ∧
      (v ∈ p.shape.enumValues ∨ v ∈ comparedValues p (p.names field)) := by
  unfold AgainstCasing
  cases x.conventions.enumCaseOf? p.service with
  | none => simp
  | some casing => simp [and_comm]

/-- Of a supplier the declared values are looked up in the manifest and of a reader those that it
compares with; the casing is that of both. -/
theorem enumMismatch?_isSome_iff : (enumMismatch? x field p path).isSome ↔
    (field.enumValues ≠ [] ∧ ∃ v, Unlisted field p v ∧
      if p.supplier then v ∈ p.shape.enumValues else v ∈ comparedValues p (p.names field)) ∨
    ∃ v, AgainstCasing x.conventions field p v ∧
      (v ∈ p.shape.enumValues ∨ v ∈ comparedValues p (p.names field)) := by
  have hunlisted (v : String) : (!(forms (caseTransforms p (p.names field)) v).any
      field.enumValues.contains) = true ↔ Unlisted field p v := by
    simp [Unlisted]
  unfold enumMismatch?
  dsimp only
  split
  · next v hfind =>
    obtain ⟨hvalues, hv⟩ := mem_checked.mp (List.mem_of_find?_eq_some hfind)
    have hfound := List.find?_some hfind
    exact iff_of_true rfl (.inl ⟨hvalues, v, (hunlisted v).mp hfound, hv⟩)
  · next hfind =>
    rw [or_iff_right, casing_isSome_iff]
    rintro ⟨hvalues, v, hv, hmem⟩
    exact List.find?_eq_none.mp hfind v (mem_checked.mpr ⟨hvalues, hmem⟩) ((hunlisted v).mpr hv)

theorem enumMismatch?_eq_none (h : Agrees field p.shape) (hb : Quiet p.binding)
    (hcase : ∀ casing ∈ x.conventions.enumCaseOf? p.service,
      ∀ v ∈ field.enumValues, casing.holds v = true) :
    enumMismatch? x field p path = none := by
  have hforms (v : String) : forms (caseTransforms p (p.names field)) v = [v] := by
    rw [forms, hb.caseTransforms_eq_nil, List.map_nil]
  rw [← Option.not_isSome_iff_eq_none, enumMismatch?_isSome_iff, hb.comparedValues_eq_nil,
    h.enumValues]
  rintro (⟨-, v, hunlisted, hv⟩ | ⟨v, ⟨casing, hcasing, hagainst⟩, hv⟩)
  · split at hv
    · exact hunlisted v (by simp [hforms]) hv
    · cases hv
  · have hv : v ∈ field.enumValues := hv.resolve_right List.not_mem_nil
    simpa [hcase casing hcasing v hv] using hagainst v (by simp [hforms])

theorem mem_arrivals {readerUnit : String} {a : Arrival}
    (hx : ∀ cls, x.conventions.forClass? cls = none) (hps : ∀ q ∈ ps, q.shape.unit = field.unit)
    (ha : a ∈ arrivals x field readerUnit ps) : field.unit = some a.unit := by
  have hpromised (cls : Option QuantityClass) :
      (cls.bind x.conventions.forClass?).or field.unit = field.unit := by
    cases cls <;> simp [hx]
  unfold arrivals at ha
  dsimp only at ha
  rw [hpromised] at ha
  split at ha
  · obtain ⟨u, hu, rfl⟩ := List.mem_map.mp ha
    exact Option.mem_toList.mp hu
  · obtain ⟨q, hq, hsome⟩ := List.mem_filterMap.mp ha
    obtain ⟨u, hu, rfl⟩ := Option.map_eq_some_iff.mp hsome
    have hunit := hps q (List.mem_of_mem_filter hq)
    rwa [hunit, Option.or_self] at hu

theorem unitMismatch?_eq_none (hx : ∀ cls, x.conventions.forClass? cls = none)
    (h : Agrees field p.shape) (hb : Quiet p.binding)
    (hps : ∀ q ∈ ps, Agrees field q.shape) : unitMismatch? x field p ps path = none := by
  unfold unitMismatch?
  refine Option.bind_eq_none_iff.mpr fun readerUnit hreader => ?_
  have hunit : field.unit = some readerUnit := by
    rwa [h.unit, Option.or_self] at hreader
  dsimp only
  rw [hb.bareCents?_eq_none, ite_self]
  refine Option.map_eq_none_iff.mpr (List.find?_eq_none.mpr fun a ha => ?_)
  have harrival := mem_arrivals hx (fun q hq => (hps q hq).unit) ha
  have hsame : readerUnit = a.unit := Option.some.inj (hunit.symm.trans harrival)
  simp [arrivesAs, hsame]

theorem formatMismatch?_eq_none (h : Agrees field p.shape) :
    formatMismatch? x field p ps path = none := by
  unfold formatMismatch?
  refine Option.bind_eq_none_iff.mpr fun mine hmine => ?_
  have hformat : field.format = some mine := by
    rw [properFormat?, h.format] at hmine
    exact (Option.filter_eq_some_iff.mp hmine).1
  have hsame : sameFormat mine mine = true := by simp [sameFormat]
  simp [hformat, hsame]

theorem lt_irrefl (a : Binary64) : ¬a < a := by
  have hself : Binary64.lt a a = false := by
    cases a with
    | nan => rfl
    | inf neg => cases neg <;> rfl
    | finite neg m e => simp [Binary64.lt]
  exact fun h => Bool.false_ne_true (hself.symm.trans h)

theorem narrowerThan_self (r : Range) : r.narrowerThan r = false := by
  obtain ⟨min, max⟩ := r
  cases min <;> cases max <;>
    simp [Bounds.narrowerThan, Bounds.minTighter, Bounds.maxTighter, lt_irrefl]

theorem looser?_eq_none (h : Agrees field p.shape) : looser? field p = none := by
  unfold looser?
  rw [h.range, h.required]
  cases field.range with
  | none => simp
  | some r => simp [Bounds.broaderThan, narrowerThan_self]

theorem stricter?_eq_none (h : Agrees field p.shape) : stricter? field p = none := by
  have hrange : (p.shape.range.filter (·.narrowerThan (field.range.getD .unbounded))) = none := by
    rw [h.range]
    cases field.range with
    | none => rfl
    | some r => simp [narrowerThan_self]
  have hvalidated : (p.shape.validated && !field.required) = false := by
    cases hv : p.shape.validated with
    | false => rfl
    | true => simp [h.validated hv]
  have hrefused : (field.enumValues.find? fun v =>
      !field.enumValues.any fun s => Text.asciiSame s.toList v.toList) = none := by
    refine List.find?_eq_none.mpr fun v hv => ?_
    simpa using ⟨v, hv, by simp [Text.asciiSame]⟩
  have hkind : ¬(field.type = .number ∧ p.shape.kind = .integer) := by
    rintro ⟨htype, hkind⟩
    simp [h.kind, htype, kindOf] at hkind
  unfold stricter?
  dsimp only
  rw [hrange, hvalidated, h.enumValues, hrefused]
  simpa using hkind

theorem strictnessMismatch?_eq_none (h : Agrees field p.shape) :
    strictnessMismatch? x field p path = none := by
  rw [strictnessMismatch?, looser?_eq_none h, stricter?_eq_none h, ite_self, Option.map_none]

end Checks

theorem names_of_mirrors {fields : List FieldSchema} {shapes : List Shape}
    (h : mirrorsAll fields shapes = true) : shapes.map (·.name) = fields.map (·.name) := by
  rw [← List.forall₂_eq_eq_eq, List.forall₂_map_left_iff, List.forall₂_map_right_iff]
  exact .flip ((mirrorsAll_iff.mp h).imp fun f s hs => (agrees_of_mirrors hs).name)

/-- As names are apart, the member of a field's name is the one that mirrors it. -/
theorem find?_mirrored {fields : List FieldSchema} {shapes : List Shape}
    (hnames : (fields.map (·.name)).Nodup) (h : mirrorsAll fields shapes = true)
    {f : FieldSchema} (hf : f ∈ fields) :
    ∃ s, shapes.find? (·.name == f.name) = some s ∧ mirrors f s = true := by
  replace h := mirrorsAll_iff.mp h
  induction h with
  | nil => cases hf
  | @cons g s fields shapes hgs _ ih =>
    have hname : s.name = g.name := (agrees_of_mirrors hgs).name
    rw [List.map_cons, List.nodup_cons] at hnames
    rcases List.mem_cons.mp hf with rfl | hf
    · exact ⟨s, by simp [hname], hgs⟩
    · have hne : (s.name == f.name) = false := by
        refine beq_false_of_ne fun heq => hnames.1 ?_
        exact List.mem_map.mpr ⟨f, hf, heq.symm.trans hname⟩
      rw [List.find?_cons, hne]
      exact ih hnames.2 hf

def follows (casing : Casing) (f : FieldSchema) : Bool := f.enumValues.all casing.holds

/-- A participant that gives no occasion for a finding on a field itself. -/
structure Accords (x : Exchange) (f : FieldSchema) (p : Participant) : Prop where
  quiet : Quiet p.binding
  casing : ∀ casing ∈ x.conventions.enumCaseOf? p.service, follows casing f = true
  agrees : Agrees f p.shape

/-- A participant that gives no occasion for a finding on a field or below it. -/
structure Faithful (x : Exchange) (f : FieldSchema) (p : Participant) : Prop where
  quiet : Quiet p.binding
  casing : ∀ casing ∈ x.conventions.enumCaseOf? p.service, f.every (follows casing) = true
  mirrors : mirrors f p.shape = true

/-- A participant that gives no occasion for a finding on the members of an object. -/
structure FaithfulAll (x : Exchange) (fields : List FieldSchema) (p : Participant) : Prop where
  quiet : Quiet p.binding
  casing : ∀ casing ∈ x.conventions.enumCaseOf? p.service,
    ∀ f ∈ fields, f.every (follows casing) = true
  mirrors : mirrorsAll fields p.shape.children = true

section Walk

variable {x : Exchange} {path : String} {p : Participant} {ps : List Participant}
  {f : FieldSchema} {fields : List FieldSchema}

theorem Faithful.agrees (h : Faithful x f p) : Agrees f p.shape := agrees_of_mirrors h.mirrors

theorem Faithful.accords (h : Faithful x f p) : Accords x f p :=
  ⟨h.quiet, fun casing hcasing => (FieldSchema.every_iff.mp (h.casing casing hcasing)).1, h.agrees⟩

theorem Accords.valueMismatch?_eq_none (h : Accords x f p) :
    valueMismatch? x f path p = none := by
  have hcase : ∀ casing ∈ x.conventions.enumCaseOf? p.service,
      ∀ v ∈ f.enumValues, casing.holds v = true :=
    fun casing hcasing => List.all_eq_true.mp (h.casing casing hcasing)
  rw [valueMismatch?, kindMismatch?_eq_none h.agrees,
    enumMismatch?_eq_none h.agrees h.quiet hcase]
  rfl

theorem Accords.quantityMismatch?_eq_none (hx : ∀ cls, x.conventions.forClass? cls = none)
    (h : Accords x f p) (hps : ∀ q ∈ ps, Accords x f q) :
    quantityMismatch? x f path ps p = none := by
  rw [quantityMismatch?, formatMismatch?_eq_none h.agrees,
    unitMismatch?_eq_none hx h.agrees h.quiet fun q hq => (hps q hq).agrees]
  exact ite_self _

theorem fieldMismatches_eq_nil (hx : ∀ cls, x.conventions.forClass? cls = none)
    (hps : ∀ p ∈ ps, Accords x f p) : fieldMismatches x f path ps = [] := by
  have hvalue : ps.filterMap (valueMismatch? x f path) = [] :=
    List.filterMap_eq_nil_iff.mpr fun p hp => (hps p hp).valueMismatch?_eq_none
  have hquantity : (ps.filter fun p => (valueMismatch? x f path p).isNone).filterMap
      (quantityMismatch? x f path ps) = [] :=
    List.filterMap_eq_nil_iff.mpr fun p hp =>
      (hps p (List.mem_of_mem_filter hp)).quantityMismatch?_eq_none hx hps
  unfold fieldMismatches
  dsimp only
  rw [hvalue, hquantity, List.nil_append, List.nil_append]
  refine List.filterMap_eq_nil_iff.mpr fun p hp => ?_
  have hmem := List.mem_of_mem_filter (List.mem_of_mem_filter hp)
  exact strictnessMismatch?_eq_none (hps p hmem).agrees

theorem FaithfulAll.exists_child (hnames : (fields.map (·.name)).Nodup) (h : FaithfulAll x fields p)
    (hf : f ∈ fields) : ∃ s, p.shape.child? f.name = some s ∧ Faithful x f (p.inside s) := by
  obtain ⟨s, hs, hmirrors⟩ := find?_mirrored hnames h.mirrors hf
  exact ⟨s, hs, h.quiet, fun casing hcasing => h.casing casing hcasing f hf, hmirrors⟩

theorem exists_child_of_mem {s : Shape} {name : String} (h : name ∈ s.children.map (·.name)) :
    ∃ c, s.child? name = some c ∧ c.name = name := by
  obtain ⟨c, hc, rfl⟩ := List.mem_map.mp h
  have hfound : (s.child? c.name).isSome = true := List.find?_isSome.mpr ⟨c, hc, by simp⟩
  obtain ⟨c', hc'⟩ := Option.isSome_iff_exists.mp hfound
  exact ⟨c', hc', by simpa using List.find?_some hc'⟩

theorem extras_eq_nil (h : ∀ name ∈ p.shape.children.map (·.name), name ∈ fields.map (·.name)) :
    extras x fields path p = [] := by
  have hrest : p.shape.children.filter (fun c => !(fields.filterMap fun f =>
      (carrier? (fields.map (·.name)) f p.shape).map (·.name)).contains c.name) = [] := by
    refine List.filter_eq_nil_iff.mpr fun c hc => ?_
    have hname : c.name ∈ p.shape.children.map (·.name) := List.mem_map_of_mem hc
    obtain ⟨f, hf, hfc⟩ := List.mem_map.mp (h _ hname)
    obtain ⟨s, hs, hsc⟩ := exists_child_of_mem hname
    have hcarrier : carrier? (fields.map (·.name)) f p.shape = some s := by
      rw [carrier?, hfc, hs, Option.some_or]
    have hmem : c.name ∈ fields.filterMap fun f =>
        (carrier? (fields.map (·.name)) f p.shape).map (·.name) :=
      List.mem_filterMap.mpr ⟨f, hf, by rw [hcarrier, ← hsc]; rfl⟩
    simpa using hmem
  unfold extras
  dsimp only
  rw [hrest, List.mergeSort_nil, List.map_nil]

theorem driftBetween?_eq_none {q : Participant}
    (h : p.shape.children.map (·.name) = q.shape.children.map (·.name)) :
    driftBetween? x path p q = none := by
  have hnames : memberNames p.shape = memberNames q.shape := by
    rw [memberNames, memberNames, h]
  unfold driftBetween?
  split
  · rfl
  · split
    · simp [hnames]
    · rfl

theorem drifts_eq_nil_iff :
    drifts x path ps = [] ↔ ps.Pairwise fun p q => driftBetween? x path p q = none := by
  induction ps with
  | nil => simp [drifts]
  | cons p ps ih =>
    rw [drifts, List.append_eq_nil_iff, List.filterMap_eq_nil_iff, List.pairwise_cons, ih]

theorem drifts_eq_nil {names : List String}
    (hps : ∀ p ∈ ps, p.shape.children.map (·.name) = names) : drifts x path ps = [] := by
  rw [drifts_eq_nil_iff]
  apply List.pairwise_of_forall_mem_list
  intro p hp q hq
  exact driftBetween?_eq_none ((hps p hp).trans (hps q hq).symm)

theorem FaithfulAll.names (h : FaithfulAll x fields p) :
    p.shape.children.map (·.name) = fields.map (·.name) := names_of_mirrors h.mirrors

/-- Whether the walk is silent below a field where all participants are faithful to it. -/
def SilentOn (x : Exchange) (f : FieldSchema) : Prop :=
  ∀ (path : String) (ps : List Participant), (∀ p ∈ ps, Faithful x f p) →
    fieldFindings x path ps f = []

theorem memberFindings_eq_nil {rest : List FieldSchema} (hnames : (fields.map (·.name)).Nodup)
    (hps : ∀ p ∈ ps, FaithfulAll x fields p) (hrest : ∀ f ∈ rest, f ∈ fields ∧ SilentOn x f) :
    memberFindings x (fields.map (·.name)) path ps rest = [] := by
  induction rest with
  | nil => rfl
  | cons f rest ih =>
    obtain ⟨⟨hf, hsilent⟩, hrest⟩ := List.forall_mem_cons.mp hrest
    have hpresence : ps.flatMap (presence x (fields.map (·.name)) f (FieldPath.join path f.name)) =
        [] := by
      refine List.flatMap_eq_nil_iff.mpr fun p hp => ?_
      obtain ⟨s, hs, -⟩ := (hps p hp).exists_child hnames hf
      rw [presence, hs]
    have hinside : fieldFindings x (FieldPath.join path f.name) (ps.filterMap fun p =>
        (carrier? (fields.map (·.name)) f p.shape).map p.inside) f = [] := by
      refine hsilent _ _ fun q hq => ?_
      obtain ⟨p, hp, hcarrier⟩ := List.mem_filterMap.mp hq
      obtain ⟨s, hs, hfaithful⟩ := (hps p hp).exists_child hnames hf
      rw [carrier?, hs, Option.some_or, Option.map_some] at hcarrier
      exact Option.some.inj hcarrier ▸ hfaithful
    rw [memberFindings, hpresence, hinside, ih hrest]
    rfl

theorem objectFindings_eq_nil (hnames : (fields.map (·.name)).Nodup)
    (hps : ∀ p ∈ ps, FaithfulAll x fields p) (hsilent : ∀ f ∈ fields, SilentOn x f) :
    objectFindings x fields path ps (memberFindings x (fields.map (·.name)) path ps fields) =
      [] := by
  have hextras : ps.flatMap (extras x fields path) = [] :=
    List.flatMap_eq_nil_iff.mpr fun p hp => extras_eq_nil fun _ h => (hps p hp).names ▸ h
  have hmembers : memberFindings x (fields.map (·.name)) path ps fields = [] :=
    memberFindings_eq_nil hnames hps fun f hf => ⟨hf, hsilent f hf⟩
  rw [objectFindings, drifts_eq_nil fun p hp => (hps p hp).names, hextras, hmembers]
  exact ite_self _

theorem Faithful.members (h : Faithful x f p) (htruncated : f.truncated = false) :
    FaithfulAll x f.children p := by
  have hinside := (mirrors_iff.mp h.mirrors).2
  rw [htruncated] at hinside
  exact ⟨h.quiet,
    fun casing hcasing => (FieldSchema.every_iff.mp (h.casing casing hcasing)).2.1, hinside.1⟩

theorem Faithful.item {i : FieldSchema} {s : Shape} (h : Faithful x f p)
    (htruncated : f.truncated = false) (hi : f.items = some i) (hs : p.shape.items = some s) :
    Faithful x i (p.inside s) := by
  have hinside := (mirrors_iff.mp h.mirrors).2
  rw [htruncated] at hinside
  refine ⟨h.quiet, fun casing hcasing => ?_, ?_⟩
  · exact (FieldSchema.every_iff.mp (h.casing casing hcasing)).2.2 i hi
  · have hmirrors := hinside.2
    rwa [hi, hs, mirrorsItem] at hmirrors

theorem fieldFindings_eq : fieldFindings x path ps f =
    (fieldMismatches x f path ps).map .plain ++
      if f.truncated then []
      else
        match f.type with
        | .object =>
          match ps.filter (·.shape.kind = .object) with
          | [] => []
          | members =>
            objectFindings x f.children path members
              (memberFindings x (f.children.map (·.name)) path members f.children)
        | .array =>
          itemFindings x (FieldPath.join path "[]")
            (ps.filterMap fun p => p.shape.items.map p.inside) f.items
        | _ => [] := by
  obtain ⟨name, type, format, unit, range, values, required, children, items, ref, truncated⟩ := f
  rfl

/-- A participant that gives no occasion for a finding below a field. -/
structure FaithfulInside (x : Exchange) (f : FieldSchema) (p : Participant) : Prop where
  members : f.truncated = false → FaithfulAll x f.children p
  item : f.truncated = false → ∀ i ∈ f.items, ∀ s ∈ p.shape.items, Faithful x i (p.inside s)

theorem Faithful.inside (h : Faithful x f p) : FaithfulInside x f p :=
  ⟨h.members, fun htruncated _ hi _ hs => h.item htruncated hi hs⟩

/-- The findings on a field itself are all there are if the walk is silent below it. -/
theorem fieldFindings_eq_own (hnames : (f.children.map (·.name)).Nodup)
    (hmembers : ∀ c ∈ f.children, SilentOn x c) (hitem : ∀ i ∈ f.items, SilentOn x i)
    (hps : ∀ p ∈ ps, FaithfulInside x f p) :
    fieldFindings x path ps f = (fieldMismatches x f path ps).map .plain := by
  rw [fieldFindings_eq]
  apply List.append_right_eq_self.mpr
  cases htruncated : f.truncated with
  | true => rfl
  | false =>
    cases f.type with
    | object =>
      have hobjects : ∀ p ∈ ps.filter (·.shape.kind = .object), FaithfulAll x f.children p :=
        fun p hp => (hps p (List.mem_of_mem_filter hp)).members htruncated
      generalize ps.filter (·.shape.kind = .object) = qs at hobjects
      cases qs with
      | nil => rfl
      | cons q qs => exact objectFindings_eq_nil hnames hobjects hmembers
    | array =>
      cases hitems : f.items with
      | none => rfl
      | some i =>
        refine hitem i hitems _ _ fun q hq => ?_
        obtain ⟨p, hp, hinside⟩ := List.mem_filterMap.mp hq
        obtain ⟨s, hs, rfl⟩ := Option.map_eq_some_iff.mp hinside
        exact (hps p hp).item htruncated i hitems s hs
    | _ => rfl

/-- The walk is silent where all participants are faithful to a field whose names are apart. -/
theorem silentOn_of_distinct (hx : ∀ cls, x.conventions.forClass? cls = none)
    (hf : f.every FieldSchema.distinctMembers = true) : SilentOn x f := by
  induction f using FieldSchema.induction_inside with
  | step f members item =>
    intro path ps hps
    obtain ⟨hdistinct, hitem⟩ := FieldSchema.every_distinctMembers_iff.mp hf
    have hown : fieldMismatches x f path ps = [] :=
      fieldMismatches_eq_nil hx fun p hp => (hps p hp).accords
    rw [fieldFindings_eq_own hdistinct.names (fun c hc => members c hc (hdistinct.inside c hc))
      (fun i hi => item i hi (hitem i hi)) fun p hp => (hps p hp).inside, hown, List.map_nil]

theorem silentOn_members (hx : ∀ cls, x.conventions.forClass? cls = none)
    (hfields : DistinctNames fields) : ∀ f ∈ fields, SilentOn x f :=
  fun f hf => silentOn_of_distinct hx (hfields.inside f hf)

theorem payloadFindings_eq_nil (hx : ∀ cls, x.conventions.forClass? cls = none)
    (hfields : DistinctNames fields) (hps : ∀ p ∈ ps, FaithfulAll x fields p) :
    payloadFindings x fields ps = [] := by
  unfold payloadFindings
  split
  · rfl
  · exact objectFindings_eq_nil hfields.names hps (silentOn_members hx hfields)

end Walk

end Concord.Comparison
