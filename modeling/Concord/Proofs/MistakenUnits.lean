import Concord.Proofs.Locality

/-! A reader that takes the unit of a field for another, and is faithful otherwise, is told of that
field and of nothing else, and of nothing at all if it or the supplier converts the one unit into
the other. -/
namespace Concord

variable {needed : Conversion} {names : List String}

def Shape.setUnit (unit : String) (s : Shape) : Shape := { s with unit := some unit }

namespace Comparison

open Quantity

theorem ofUnits_zero (e : Int) : Binary64.ofUnits 0 e = .zero false := by
  unfold Binary64.ofUnits
  by_cases he : 0 ≤ e
  · rw [if_pos he, Int.natAbs_zero, Nat.zero_mul]
    rfl
  · rw [if_neg he]
    rfl

theorem near_self {a : Binary64} (h : a.isFinite = true) :
    near (.ofDecimal false 1 (-6)) a a = true := by
  cases a with
  | nan => cases h
  | inf neg => cases h
  | finite neg m e hfits =>
    have hzero : Binary64.finite neg m e hfits - .finite neg m e hfits = .zero false := by
      change Binary64.ofUnits (Binary64.units neg m e (min e e) - Binary64.units neg m e (min e e))
        (min e e) = .zero false
      rw [Int.sub_self, ofUnits_zero]
    rw [near, hzero]
    decide +kernel

theorem exists_units_of_conversion? {unit unit' : String} (h : conversion? unit unit' = some needed) :
    ∃ a ∈ units, ∃ b ∈ units, a.cls = b.cls ∧ ¬a.base < b.base ∧ needed.factor = a.base / b.base := by
  have hasymm : ∀ a ∈ units, ∀ b ∈ units, a.base < b.base → ¬b.base < a.base := by
    decide +kernel
  obtain ⟨a, ha, h⟩ := Option.bind_eq_some_iff.mp h
  obtain ⟨b, hb, h⟩ := Option.bind_eq_some_iff.mp h
  have ha := List.mem_of_find?_eq_some ha
  have hb := List.mem_of_find?_eq_some hb
  split at h
  · cases h
  · next hsame =>
    simp only [Bool.or_eq_true, not_or, bne_iff_ne, not_not] at hsame
    split at h
    · next hlt =>
      obtain rfl := Option.some.inj h
      exact ⟨b, hb, a, ha, hsame.1.symm, hasymm a ha b hb hlt, rfl⟩
    · next hlt =>
      obtain rfl := Option.some.inj h
      exact ⟨a, ha, b, hb, hsame.1, hlt, rfl⟩

theorem isFinite_of_conversion? {unit unit' : String} (h : conversion? unit unit' = some needed) :
    needed.factor.isFinite = true := by
  have hunits : ∀ a ∈ units, ∀ b ∈ units, (a.base / b.base).isFinite = true := by
    decide +kernel
  obtain ⟨a, ha, b, hb, -, -, hfactor⟩ := exists_units_of_conversion? h
  rw [hfactor]
  exact hunits a ha b hb

/-- Two different units of one class can be converted. -/
theorem exists_conversion {unit unit' : String} (hknown : (unitClass? unit).isSome = true)
    (hclass : unitClass? unit = unitClass? unit') (hne : canonicalUnit unit ≠ canonicalUnit unit') :
    ∃ needed, conversion? unit unit' = some needed := by
  obtain ⟨cls, hcls⟩ := Option.isSome_iff_exists.mp hknown
  obtain ⟨a, ha, rfl⟩ := Option.map_eq_some_iff.mp hcls
  obtain ⟨b, hb, hsame⟩ := Option.map_eq_some_iff.mp (hclass.symm.trans hcls)
  have hcanonical : a.canonical ≠ b.canonical := by
    simpa [canonicalUnit, ha, hb] using hne
  by_cases hlt : a.base < b.base <;> simp [conversion?, ha, hb, hsame, hcanonical, hlt]

theorem mentions_cons {found : Option String} {name : String}
    (h : Identifier.mentions found [name] = true) :
    Identifier.mentions found (name :: names) = true := by
  unfold Identifier.mentions at h ⊢
  cases hfold : found.map Identifier.fold with
  | none => simp [hfold] at h
  | some field =>
    simp only [hfold, List.any_cons, List.any_nil, Bool.or_false] at h
    simp [h]

/-- Whether evidence holds the scaling that turns a unit into another. -/
def converts (unit unit' : String) (evidence : List Evidence) : Bool :=
  (conversion? unit unit').any fun needed => scalesBy (.ofDecimal false 1 (-6)) needed evidence

theorem converts_mono {unit unit' : String} {part evidence : List Evidence}
    (hpart : ∀ ev ∈ part, ev ∈ evidence) (h : converts unit unit' part = true) :
    converts unit unit' evidence = true := by
  unfold converts at h ⊢
  cases hneeded : conversion? unit unit' with
  | none => simp [hneeded] at h
  | some needed =>
    rw [hneeded] at h
    obtain ⟨ev, hev, hscales⟩ := List.any_eq_true.mp h
    exact List.any_eq_true.mpr ⟨ev, hpart ev hev, hscales⟩

section Reader

variable {x : Exchange} {path : String} {f : FieldSchema} {fields : List FieldSchema} {c : Focus}
  {p t : Participant} {ps : List Participant} {unit unit' : String}

theorem quantityMismatch?_setUnit (h : Agrees f p.shape) (hreader : p.supplier = false) :
    quantityMismatch? x f path ps (p.inside (p.shape.setUnit unit')) =
      unitMismatch? x f (p.inside (p.shape.setUnit unit')) ps path := by
  have hformat : formatMismatch? x f p ps path = none := formatMismatch?_eq_none h
  change formatMismatch? x f (p.inside (p.shape.setUnit unit')) ps path = none at hformat
  have hside : ¬(p.inside (p.shape.setUnit unit')).supplier = true := by
    simp [Participant.inside, hreader]
  rw [quantityMismatch?, if_neg hside, hformat, Option.or_none]

/-- In another unit, a reader is judged as before but for the unit. -/
theorem fieldMismatches_setUnit (hx : ∀ cls, x.conventions.forClass? cls = none)
    (hc : ∀ p ∈ c.all, Accords x f p) (hreader : c.one.supplier = false) :
    fieldMismatches x f path (c.altered (Shape.setUnit unit')) =
      (unitMismatch? x f (c.one.inside (c.one.shape.setUnit unit')) c.all path).toList := by
  have hone : Accords x f c.one := hc _ c.one_mem_all
  have hvalue : ∀ p ∈ c.altered (Shape.setUnit unit'), valueMismatch? x f path p = none := by
    apply Focus.forall_altered
    · exact fun p hp => (hc p hp).valueMismatch?_eq_none
    · exact id
  have hstrictness : ∀ p ∈ c.altered (Shape.setUnit unit'),
      strictnessMismatch? x f p path = none := by
    apply Focus.forall_altered
    · exact fun p hp => strictnessMismatch?_eq_none (hc p hp).agrees
    · exact id
  have hsuppliers : (c.altered (Shape.setUnit unit')).filter (·.supplier) =
      c.all.filter (·.supplier) := by
    simp [Focus.altered, Focus.all, Participant.inside, hreader]
  have hquantity : ∀ p ∈ c.others, quantityMismatch? x f path c.all p = none :=
    fun p hp => (hc p (Focus.mem_all_of_others hp)).quantityMismatch?_eq_none hx hc
  have hpassed : (c.altered (Shape.setUnit unit')).filter
      (fun p => (valueMismatch? x f path p).isNone) = c.altered (Shape.setUnit unit') := by
    apply List.filter_eq_self.mpr
    intro p hp
    rw [hvalue p hp]
    rfl
  -- the first and the last check do not look at units
  unfold fieldMismatches
  dsimp only
  rw [quantityMismatch?_congr hsuppliers, hpassed, List.filterMap_eq_nil_iff.mpr hvalue,
    Focus.filterMap_altered hquantity, quantityMismatch?_setUnit hone.agrees hreader, List.nil_append]
  apply List.append_right_eq_self.mpr
  apply List.filterMap_eq_nil_iff.mpr
  exact fun p hp => hstrictness p (List.mem_of_mem_filter hp)

theorem arrivals_eq (hunit : f.unit = some unit) (hsuppliers : ps.filter (·.supplier) = [t])
    (ht : t.shape.unit = f.unit) : arrivals x f unit' ps = [⟨unit, some t⟩] := by
  simp [arrivals, hsuppliers, ht, hunit]

/-- A reader in another unit is reported unless the unit arrives as that one. -/
theorem unitMismatch?_setUnit (path : String) (hquiet : Quiet p.binding)
    (harrivals : arrivals x f unit' ps = [⟨unit, some t⟩]) :
    ∃ location expected observed,
      unitMismatch? x f (p.inside (p.shape.setUnit unit')) ps path =
        if arrivesAs p (p.names f) unit' ⟨unit, some t⟩ then none
        else some (x.disparity .unit path location expected observed) := by
  have hbare : bareCents? (p.inside (p.shape.setUnit unit'))
      ((p.inside (p.shape.setUnit unit')).names f) = none :=
    Quiet.bareCents?_eq_none hquiet _
  have hunit : (p.inside (p.shape.setUnit unit')).shape.unit.or f.unit = some unit' := rfl
  refine ⟨p.location, (f.unit.map canonicalUnit).getD "", ?_⟩
  unfold unitMismatch?
  rw [hunit, Option.bind_some]
  dsimp only
  rw [hbare, ite_self, harrivals]
  dsimp only
  change ∃ observed, Option.map _ (([⟨unit, some t⟩] : List Arrival).find? fun a =>
    !arrivesAs p (p.names f) unit' a) = _
  cases harrives : arrivesAs p (p.names f) unit' ⟨unit, some t⟩ with
  | true => exact ⟨"", by simp [harrives]⟩
  | false =>
    rw [List.find?_cons, harrives]
    exact ⟨_, rfl⟩

theorem arrivesAs_eq (hne : canonicalUnit unit ≠ canonicalUnit unit') :
    arrivesAs p names unit' ⟨unit, some t⟩ =
      converts unit unit' (p.evidenceOn names ++ t.evidenceOn names) := by
  simp [arrivesAs, hne, converts]

theorem mem_evidenceOn {ev : Evidence} :
    ev ∈ p.evidenceOn names ↔
      ev ∈ p.binding.evidence ∧ ev.atBoundary = true ∧ Identifier.mentions ev.field names = true := by
  simp [Participant.evidenceOn]

/-- Evidence of a scaling between two units, at the boundary and on a field of a name. -/
structure ScalesField (name : String) (needed : Conversion) (ev : Evidence) : Prop where
  kind : ev.kind = .scale needed
  boundary : ev.atBoundary = true
  field : Identifier.mentions ev.field [name] = true

theorem converts_of_scale {evidence : List Evidence} {ev : Evidence}
    (hneeded : conversion? unit unit' = some needed) (hev : ev ∈ evidence)
    (hkind : ev.kind = .scale needed) : converts unit unit' evidence = true := by
  have hnear := near_self (isFinite_of_conversion? hneeded)
  rw [converts, hneeded]
  apply List.any_eq_true.mpr
  exact ⟨ev, hev, by simp [hkind, hnear]⟩

theorem fieldFindings_setUnit (hx : ∀ cls, x.conventions.forClass? cls = none)
    (hf : f.every FieldSchema.distinctMembers = true) (hc : ∀ p ∈ c.all, Faithful x f p)
    (hreader : c.one.supplier = false) (hsuppliers : c.all.filter (·.supplier) = [t])
    (hunit : f.unit = some unit) (hne : canonicalUnit unit ≠ canonicalUnit unit') :
    (converts unit unit' (c.one.binding.evidence ++ t.binding.evidence) = false →
      ∃ location expected observed, fieldFindings x path (c.altered (Shape.setUnit unit')) f =
        [.plain (x.disparity .unit path location expected observed)]) ∧
    ∀ needed ∈ conversion? unit unit',
      (∃ ev ∈ c.one.binding.evidence ++ t.binding.evidence, ScalesField f.name needed ev) →
        fieldFindings x path (c.altered (Shape.setUnit unit')) f = [] := by
  obtain ⟨hdistinct, hitem⟩ := FieldSchema.every_distinctMembers_iff.mp hf
  have ht : t ∈ c.all := List.mem_of_mem_filter (hsuppliers ▸ List.mem_singleton_self t)
  have hinside : ∀ p ∈ c.altered (Shape.setUnit unit'), FaithfulInside x f p := by
    apply Focus.forall_altered
    · exact fun p hp => (hc p hp).inside
    · intro h
      exact ⟨fun htruncated => ⟨(h.members htruncated).quiet, (h.members htruncated).casing,
        (h.members htruncated).mirrors⟩, h.item⟩
  have hown : fieldFindings x path (c.altered (Shape.setUnit unit')) f =
      (fieldMismatches x f path (c.altered (Shape.setUnit unit'))).map .plain :=
    fieldFindings_eq_own hdistinct.names (silentOn_members hx hdistinct)
      (fun i hi => silentOn_of_distinct hx (hitem i hi)) hinside
  obtain ⟨location, expected, observed, hmismatch⟩ :=
    unitMismatch?_setUnit path (hc _ c.one_mem_all).quiet
      (arrivals_eq hunit hsuppliers (hc t ht).agrees.unit)
  rw [hown, fieldMismatches_setUnit hx (fun p hp => (hc p hp).accords) hreader, hmismatch,
    arrivesAs_eq hne]
  constructor
  · intro hscales
    have hno : ¬converts unit unit' (c.one.evidenceOn (c.one.names f) ++
        t.evidenceOn (c.one.names f)) = true := by
      intro h
      rw [converts_mono (fun ev hev => ?_) h] at hscales
      · cases hscales
      · exact List.mem_append.mpr ((List.mem_append.mp hev).imp (fun h => (mem_evidenceOn.mp h).1)
          fun h => (mem_evidenceOn.mp h).1)
    exact ⟨location, expected, observed, by simp [hno]⟩
  · rintro needed hneeded ⟨ev, hev, hscales⟩
    have hmem : ev ∈ c.one.evidenceOn (c.one.names f) ++ t.evidenceOn (c.one.names f) := by
      have hon : ev.atBoundary = true ∧ Identifier.mentions ev.field (c.one.names f) = true :=
        ⟨hscales.boundary, mentions_cons hscales.field⟩
      exact List.mem_append.mpr ((List.mem_append.mp hev).imp
        (fun h => mem_evidenceOn.mpr ⟨h, hon⟩) fun h => mem_evidenceOn.mpr ⟨h, hon⟩)
    simp [converts_of_scale hneeded hmem hscales.kind]

theorem payloadFindings_setUnit (hx : ∀ cls, x.conventions.forClass? cls = none)
    (hfields : DistinctNames fields) (hc : ∀ p ∈ c.all, FaithfulAll x fields p) {steps : List Step}
    (hat : fieldAt? fields steps = some f) (hreader : c.one.supplier = false)
    (hsuppliers : c.all.filter (·.supplier) = [t]) (hunit : f.unit = some unit)
    (hne : canonicalUnit unit ≠ canonicalUnit unit') :
    (converts unit unit' (c.one.binding.evidence ++ t.binding.evidence) = false →
      ∃ location expected observed,
        payloadFindings x fields (c.altered (Shape.update (Shape.setUnit unit') steps)) =
          [.plain (x.disparity .unit (pathAlong "" steps) location expected observed)]) ∧
    ∀ needed ∈ conversion? unit unit',
      (∃ ev ∈ c.one.binding.evidence ++ t.binding.evidence, ScalesField f.name needed ev) →
        payloadFindings x fields (c.altered (Shape.update (Shape.setUnit unit') steps)) = [] := by
  obtain ⟨hdistinct, d, hsame, hd, hfindings⟩ := exists_fieldAt hx hat hfields hc
  obtain ⟨t', hsuppliers', ht'⟩ := hsame.suppliers hsuppliers
  have hreader' : d.one.supplier = false := (congrArg Prod.snd hsame.one).trans hreader
  have hbinding : d.one.binding = c.one.binding := congrArg Prod.fst hsame.one
  rw [hfindings (Shape.setUnit unit') fun _ => rfl, ← ht', ← hbinding]
  exact fieldFindings_setUnit hx hdistinct hd hreader' hsuppliers' hunit hne

end Reader

end Comparison

end Concord
