import Concord.Proofs.AddedEvidence
import Concord.Proofs.MistakenUnits
import Concord.Proofs.Rounding

/-! A reader is told once that it takes a field for another unit than it is sent in, unless the code
of either side converts it. The evidence of a supplier is looked for under the names that the reader
has for the field, so a supplier that converts the field under a name of its own counts as if it did
not. -/
namespace Concord.Comparison

open Quantity

variable {tolerance : ℚ} {needed : Conversion} {a : Arrival}

/-- Evidence at the boundary that refers to a field by one of its names. -/
def Bears (names : List String) (e : Evidence) : Prop :=
  e.atBoundary = true ∧ Identifier.mentions e.field names = true

/-- Evidence of the operation that a conversion needs, with a factor within a tolerance of the needed
one. -/
def ScalesWithin (tolerance : ℚ) (needed : Conversion) (e : Evidence) : Prop :=
  ∃ c r s, e.kind = .scale c ∧ c.op = needed.op ∧ c.factor.toRat? = some r ∧
    needed.factor.toRat? = some s ∧ |r - s| < tolerance

theorem ScalesWithin.isScale {e : Evidence} (h : ScalesWithin tolerance needed e) : e.kind.IsScale := by
  obtain ⟨c, -, -, hkind, -⟩ := h
  exact ⟨c, hkind⟩

/-- A factor that others can be compared with as rationals: a number from one on. -/
def isFactor : Binary64 → Bool
  | .finite false m e h => e ≤ 970 && !(Binary64.finite false m e h < .ofNat 1)
  | _ => false

theorem isFactor_cases {b : Binary64} (h : isFactor b = true) :
    ∃ m e hfits, b = .finite false m e hfits ∧ e ≤ 970 ∧ (1 : ℚ) ≤ m * 2 ^ e := by
  cases b with
  | nan => cases h
  | inf neg => cases h
  | finite neg m e hfits =>
    cases neg with
    | true => cases h
    | false =>
      simp only [isFactor, Bool.and_eq_true, decide_eq_true_eq, Bool.not_eq_true',
        decide_eq_false_iff_not] at h
      obtain ⟨he, hone⟩ := h
      have honeRat : (Binary64.ofNat 1).toRat? = some 1 := by
        have hfinite : Binary64.ofNat 1 = .finite false 4503599627370496 (-52) (by decide) := by decide
        norm_num [hfinite, Binary64.toRat?]
      have hrat : (Binary64.finite false m e hfits).toRat? = some ((m : ℚ) * 2 ^ e) := by
        simp [Binary64.toRat?]
      rw [Binary64.lt_iff_toRat hrat honeRat, not_lt] at hone
      exact ⟨m, e, hfits, rfl, he, hone⟩

theorem isFactor_of_conversion? {unit unit' : String} (h : conversion? unit unit' = some needed) :
    isFactor needed.factor = true := by
  have hunits : ∀ a ∈ units, ∀ b ∈ units, a.cls = b.cls → ¬a.base < b.base →
      isFactor (a.base / b.base) = true := by decide +kernel
  obtain ⟨a, ha, b, hb, hcls, hle, hfactor⟩ := exists_units_of_conversion? h
  rw [hfactor]
  exact hunits a ha b hb hcls hle

/-- The tolerance `rounded` stands for `tolerance` where factors are compared. -/
def Tolerates (rounded : Binary64) (tolerance : ℚ) : Prop :=
  ∀ {a b : Binary64}, isFactor b = true →
    (near rounded a b = true ↔
      ∃ r s, a.toRat? = some r ∧ b.toRat? = some s ∧ |r - s| < tolerance)

theorem tolerates {m n : ℕ} {k : ℤ} (hm : FitsBinary64 m k) (hn : n < 2 ^ 52)
    (hrounded : (n : ℚ) < m * 2 ^ k * 2 ^ 53 ∧ (m : ℚ) * 2 ^ k * 2 ^ 53 ≤ n + 1)
    (hexact : (n : ℚ) < tolerance * 2 ^ 53 ∧ tolerance * 2 ^ 53 ≤ n + 1) :
    Tolerates (.finite false m k hm) tolerance := by
  intro a b hb
  obtain ⟨mb, eb, hfits, rfl, heb, hone⟩ := isFactor_cases hb
  have hs : (Binary64.finite false mb eb hfits).toRat? = some ((mb : ℚ) * 2 ^ eb) := by
    simp [Binary64.toRat?]
  rw [near, decide_eq_true_iff,
    Binary64.abs_sub_lt_iff_toRat a hfits heb hone hm hn hrounded hexact]
  simp [hs]

theorem tolerates_millionth : Tolerates (.ofDecimal false 1 (-6)) (1 / 10 ^ 6) := by
  have hfinite : Binary64.ofDecimal false 1 (-6) =
      .finite false 4722366482869645 (-72) (by decide) := by decide +kernel
  rw [hfinite]
  apply tolerates (n := 9007199254) <;> norm_num

theorem tolerates_billionth : Tolerates (.ofDecimal false 1 (-9)) (1 / 10 ^ 9) := by
  have hfinite : Binary64.ofDecimal false 1 (-9) =
      .finite false 4835703278458517 (-82) (by decide) := by decide +kernel
  rw [hfinite]
  apply tolerates (n := 9007199) <;> norm_num

theorem scalesBy_iff {rounded : Binary64} (htolerates : Tolerates rounded tolerance)
    (hneeded : isFactor needed.factor = true) {evidence : List Evidence} :
    scalesBy rounded needed evidence = true ↔ ∃ e ∈ evidence, ScalesWithin tolerance needed e := by
  rw [scalesBy, List.any_eq_true]
  refine exists_congr fun e => and_congr_right fun _ => ?_
  cases hkind : e.kind with
  | scale c =>
    simp only [Bool.and_eq_true, decide_eq_true_eq, htolerates hneeded]
    simp [ScalesWithin, hkind]
  | _ => simp [ScalesWithin, hkind]

/-- Cents that a participant writes with decimals and never divides by a hundred, as far as its evidence
refers to a field by some names. -/
def RendersCents (names : List String) (p : Participant) (unit : String) : Prop :=
  canonicalUnit unit = "cents" ∧
    (∃ e ∈ p.binding.evidence, Bears names e ∧ ∃ decimals, e.kind = .render decimals ∧ 0 < decimals) ∧
    ¬∃ e ∈ p.binding.evidence, Bears names e ∧ ScalesWithin (1 / 10 ^ 9) centsToWhole e

/-- The unit that the conventions give a field, by the class of its unit or its format, or else of the
unit that the reader has. -/
def conventionalUnit? (x : Exchange) (f : FieldSchema) (readerUnit : String) : Option String :=
  ((fieldClass? f.unit f.format).or (unitClass? readerUnit)).bind x.conventions.forClass?

/-- The units that a reader is sent: that of each supplier, or what the manifest promises if there is no
supplier. -/
inductive Arrives (x : Exchange) (f : FieldSchema) (ps : List Participant) (readerUnit : String) :
    Arrival → Prop
  | supplied {s : Participant} {unit : String} (hs : s ∈ ps) (hsupplier : s.supplier = true)
    (hunit : s.shape.unit.or ((conventionalUnit? x f readerUnit).or f.unit) = some unit) :
    Arrives x f ps readerUnit ⟨unit, some s⟩
  | promised {unit : String} (hreaders : ∀ s ∈ ps, s.supplier = false)
    (hunit : (conventionalUnit? x f readerUnit).or f.unit = some unit) :
    Arrives x f ps readerUnit ⟨unit, none⟩

/-- A unit that arrives is another one than the reader takes it for, and neither the reader nor the
supplier converts it. The evidence of each is looked for under the names that `called` gives. -/
structure Unconverted (called : Participant → List String) (p : Participant) (readerUnit : String)
    (a : Arrival) : Prop where
  differs : canonicalUnit a.unit ≠ canonicalUnit readerUnit
  unscaled : ∀ needed ∈ conversion? a.unit readerUnit, ∀ q ∈ p :: a.supplier.toList,
    ¬∃ e ∈ q.binding.evidence, Bears (called q) e ∧ ScalesWithin (1 / 10 ^ 6) needed e

/-- A reader mistakes the unit of a field: it shows cents as a whole currency, or takes what it is sent
for another unit. -/
def MistakesUnit (x : Exchange) (f : FieldSchema) (ps : List Participant)
    (called : Participant → List String) (p : Participant) : Prop :=
  ∃ readerUnit, p.shape.unit.or f.unit = some readerUnit ∧
    (RendersCents (called p) p readerUnit ∨
      ∃ a, Arrives x f ps readerUnit a ∧ Unconverted called p readerUnit a)

section Checks

variable {x : Exchange} {f : FieldSchema} {path : String} {ps : List Participant} {p : Participant}
  {names : List String} {readerUnit : String}

theorem mem_evidenceOn_iff {e : Evidence} :
    e ∈ p.evidenceOn names ↔ e ∈ p.binding.evidence ∧ Bears names e := by
  rw [Participant.evidenceOn, List.mem_filter, Bool.and_eq_true, Bears]

theorem exists_evidenceOn_iff {P : Evidence → Prop} :
    (∃ e ∈ p.evidenceOn names, P e) ↔ ∃ e ∈ p.binding.evidence, Bears names e ∧ P e := by
  simp only [mem_evidenceOn_iff, and_assoc]

theorem scalesBy_evidenceOn_iff {rounded : Binary64} (htolerates : Tolerates rounded tolerance)
    (hneeded : isFactor needed.factor = true) :
    scalesBy rounded needed (p.evidenceOn names) = true ↔
      ∃ e ∈ p.binding.evidence, Bears names e ∧ ScalesWithin tolerance needed e := by
  rw [← exists_evidenceOn_iff]
  exact scalesBy_iff htolerates hneeded

theorem isSome_bareCents?_iff :
    (isMinorCurrency readerUnit = true ∧ (bareCents? p names).isSome) ↔
      RendersCents names p readerUnit := by
  have hdivided : scalesBy (.ofDecimal false 1 (-9)) centsToWhole (p.evidenceOn names) = true ↔
      ∃ e ∈ p.binding.evidence, Bears names e ∧ ScalesWithin (1 / 10 ^ 9) centsToWhole e :=
    scalesBy_evidenceOn_iff tolerates_billionth (by decide +kernel)
  rw [isMinorCurrency, beq_iff_eq, RendersCents, ← hdivided, ← exists_evidenceOn_iff]
  refine and_congr_right fun _ => ?_
  unfold bareCents?
  dsimp only
  split
  · next hscaled => simp [hscaled]
  · next hscaled =>
    simp only [List.find?_isSome, hscaled, Bool.false_eq_true, not_false_eq_true, and_true]
    refine exists_congr fun e => and_congr_right fun _ => ?_
    cases e.kind <;> simp

theorem mem_arrivals_iff : a ∈ arrivals x f readerUnit ps ↔ Arrives x f ps readerUnit a := by
  have hsuppliers : ps.filter (·.supplier) = [] ↔ ∀ s ∈ ps, s.supplier = false := by
    simp [List.filter_eq_nil_iff]
  have hmem (s : Participant) : s ∈ ps.filter (·.supplier) ↔ s ∈ ps ∧ s.supplier = true :=
    List.mem_filter
  unfold arrivals
  dsimp only
  constructor
  · intro ha
    split at ha
    · next hnone =>
      obtain ⟨unit, hunit, rfl⟩ := List.mem_map.mp ha
      exact .promised (hsuppliers.mp hnone) (Option.mem_toList.mp hunit)
    · obtain ⟨s, hs, hsent⟩ := List.mem_filterMap.mp ha
      obtain ⟨unit, hunit, rfl⟩ := Option.map_eq_some_iff.mp hsent
      exact .supplied ((hmem s).mp hs).1 ((hmem s).mp hs).2 hunit
  · intro ha
    cases ha with
    | promised hreaders hunit =>
      rw [hsuppliers.mpr hreaders]
      exact List.mem_map.mpr ⟨_, Option.mem_toList.mpr hunit, rfl⟩
    | @supplied s unit hs hsupplier hunit =>
      split
      · next hnone => simp [hsuppliers.mp hnone s hs] at hsupplier
      · exact List.mem_filterMap.mpr
          ⟨s, (hmem s).mpr ⟨hs, hsupplier⟩, Option.map_eq_some_iff.mpr ⟨unit, hunit, rfl⟩⟩

theorem arrivesAs_eq_false_iff :
    arrivesAs p names readerUnit a = false ↔ Unconverted (fun _ => names) p readerUnit a := by
  have hscales {needed : Conversion} (hneeded : conversion? a.unit readerUnit = some needed) :
      scalesBy (.ofDecimal false 1 (-6)) needed
          (p.evidenceOn names ++ (a.supplier.map (·.evidenceOn names)).getD []) = true ↔
        ∃ q ∈ p :: a.supplier.toList,
          ∃ e ∈ q.binding.evidence, Bears names e ∧ ScalesWithin (1 / 10 ^ 6) needed e := by
    have hfactor := isFactor_of_conversion? hneeded
    rw [scalesBy, List.any_append, Bool.or_eq_true, ← scalesBy, ← scalesBy,
      scalesBy_evidenceOn_iff tolerates_millionth hfactor]
    cases a.supplier with
    | none => simp [scalesBy]
    | some s => simp [scalesBy_evidenceOn_iff tolerates_millionth hfactor]
  rw [arrivesAs, Bool.or_eq_false_iff, beq_eq_false_iff_ne, Option.any_eq_false]
  constructor
  · rintro ⟨hdiffers, hunscaled⟩
    refine ⟨hdiffers, fun needed hneeded q hq he => ?_⟩
    exact Bool.eq_false_iff.mp (hunscaled needed hneeded) ((hscales hneeded).mpr ⟨q, hq, he⟩)
  · rintro ⟨hdiffers, hunscaled⟩
    refine ⟨hdiffers, fun needed hneeded => Bool.eq_false_iff.mpr fun hscaled => ?_⟩
    obtain ⟨q, hq, he⟩ := (hscales hneeded).mp hscaled
    exact hunscaled needed hneeded q hq he

theorem Arrives.supplier_mem (ha : Arrives x f ps readerUnit a) :
    ∀ s ∈ a.supplier, s ∈ ps ∧ s.supplier = true := by
  cases ha with
  | supplied hs hsupplier =>
    rintro _ ⟨⟩
    exact ⟨hs, hsupplier⟩
  | promised => simp

/-- The check finds what the reader mistakes, with all evidence looked for under its own names. -/
theorem isSome_unitMismatch?_iff :
    (unitMismatch? x f p ps path).isSome ↔ MistakesUnit x f ps (fun _ => p.names f) p := by
  rw [unitMismatch?_isSome_iff]
  refine exists_congr fun unit => and_congr_right fun _ => ?_
  refine or_congr isSome_bareCents?_iff (exists_congr fun a => ?_)
  rw [mem_arrivals_iff, arrivesAs_eq_false_iff]

variable {called called' : Participant → List String}

theorem Unconverted.rename (h : Unconverted called p readerUnit a)
    (hnames : ∀ q ∈ p :: a.supplier.toList, ∀ e ∈ q.binding.evidence, e.kind.IsScale →
      (Bears (called q) e ↔ Bears (called' q) e)) :
    Unconverted called' p readerUnit a := by
  refine ⟨h.differs, fun needed hneeded q hq => ?_⟩
  rintro ⟨e, he, hbears, hscales⟩
  exact h.unscaled needed hneeded q hq
    ⟨e, he, (hnames q hq e he hscales.isScale).mpr hbears, hscales⟩

/-- Whose names evidence is looked for under matters only for the scalings of suppliers. -/
theorem MistakesUnit.rename (h : MistakesUnit x f ps called p) (hp : called p = called' p)
    (hsuppliers : ∀ s ∈ ps, s.supplier = true → ∀ e ∈ s.binding.evidence, e.kind.IsScale →
      (Bears (called s) e ↔ Bears (called' s) e)) : MistakesUnit x f ps called' p := by
  obtain ⟨unit, hunit, hcents | ⟨a, ha, hunconverted⟩⟩ := h
  · exact ⟨unit, hunit, .inl (hp ▸ hcents)⟩
  · refine ⟨unit, hunit, .inr ⟨a, ha, hunconverted.rename fun q hq => ?_⟩⟩
    rcases List.mem_cons.mp hq with rfl | hq
    · exact fun e _ _ => by rw [hp]
    · obtain ⟨hs, hsupplier⟩ := ha.supplier_mem q (Option.mem_toList.mp hq)
      exact hsuppliers q hs hsupplier

end Checks

/-- A reader that no check of its values flags is told once of its unit, exactly if it mistakes the unit
as its own names for the field show the evidence. That is what each side's names show where the scalings
of the suppliers bear on the field under both. A supplier is never told of a unit. -/
theorem unit_told_iff (x : Exchange) (f : FieldSchema) (path : String) (ps : List Participant) :
    fieldFindings x path ps f =
        (fieldMismatches x f path ps).map .plain ++ insideFindings x path ps f ∧
      (fieldMismatches x f path ps).Perm (ps.filterMap (firstMismatch? x f path ps)) ∧
      (∀ p, p.supplier = true → ∀ m ∈ firstMismatch? x f path ps p, m.kind ≠ .unit) ∧
      ∀ p ∈ ps, p.supplier = false → kindMismatch? x f p path = none →
        enumMismatch? x f p path = none →
        ((∃ m ∈ firstMismatch? x f path ps p, m.kind = .unit) ↔
          MistakesUnit x f ps (fun _ => p.names f) p) ∧
        ((∀ s ∈ ps, s.supplier = true → ∀ e ∈ s.binding.evidence, e.kind.IsScale →
            (Bears (s.names f) e ↔ Bears (p.names f) e)) →
          ((∃ m ∈ firstMismatch? x f path ps p, m.kind = .unit) ↔
            MistakesUnit x f ps (·.names f) p)) := by
  refine ⟨fieldFindings_split, fieldMismatches_perm x f path ps, ?_, ?_⟩
  · intro p hsupplier m hm hunit
    obtain ⟨-, hreader, -⟩ := firstMismatch?_unit_iff.mp ⟨m, hm, hunit⟩
    simp [hsupplier] at hreader
  · intro p hp hreader hkind henum
    have htold : (∃ m ∈ firstMismatch? x f path ps p, m.kind = .unit) ↔
        MistakesUnit x f ps (fun _ => p.names f) p := by
      have hvalue : valueMismatch? x f path p = none := by
        rw [valueMismatch?, hkind, henum]
        rfl
      have hunit : (unitMismatch? x f p ps path).isSome ↔
          MistakesUnit x f ps (fun _ => p.names f) p := isSome_unitMismatch?_iff
      rw [← hunit]
      exact firstMismatch?_unit_iff.trans ⟨fun h => h.2.2, fun h => ⟨hvalue, hreader, h⟩⟩
    refine ⟨htold, fun hnames => htold.trans ⟨fun h => ?_, fun h => ?_⟩⟩
    · exact h.rename rfl fun s hs hsupplier e he hscale => (hnames s hs hsupplier e he hscale).symm
    · exact h.rename rfl hnames

def dividingDepot (name : String) : Participant where
  binding := { orderBinding "depot" .server .number with
    evidence := [⟨.scale ⟨.div, .ofNat 1000⟩, some name, .unit, default, ""⟩] }
  supplier := true
  shape := { Shape.plain "weight" .number default with
    unit := some "g"
    declaredName := some "GrossMass" }

def kilogramReader : Participant where
  binding := orderBinding "web" .client .number
  supplier := false
  shape := { Shape.plain "weight" .number default with unit := some "kg" }

theorem not_mistakesUnit_of_divided {name : String}
    (hdivided : ∀ needed ∈ conversion? "g" "kg", scalesBy (.ofDecimal false 1 (-6)) needed
      ((dividingDepot name).evidenceOn ((dividingDepot name).names crateWeight)) = true) :
    ¬MistakesUnit orderExchange crateWeight [dividingDepot name, kilogramReader]
      (·.names crateWeight) kilogramReader := by
  rintro ⟨unit, hunit, hmistaken⟩
  obtain rfl : "kg" = unit := Option.some.inj hunit
  rcases hmistaken with hcents | ⟨a, ha, hunconverted⟩
  · exact absurd hcents.1 (by decide +kernel)
  · cases ha with
    | promised hreaders => exact absurd (hreaders (dividingDepot name) (by simp)) (by simp [dividingDepot])
    | @supplied s sent hs hsupplier hsent =>
      rcases List.mem_pair.mp hs with rfl | rfl
      · obtain rfl : "g" = sent := Option.some.inj hsent
        obtain ⟨needed, hneeded⟩ : ∃ needed, conversion? "g" "kg" = some needed :=
          Option.isSome_iff_exists.mp (by decide +kernel)
        refine hunconverted.unscaled needed hneeded (dividingDepot name) (by simp) ?_
        exact (scalesBy_evidenceOn_iff tolerates_millionth (isFactor_of_conversion? hneeded)).mp
          (hdivided needed hneeded)
      · cases hsupplier

/-- The reader is told of its unit if the depot divides under its own name for the field, although nothing
is mistaken then, and it is not told if the depot divides under the name that both have. -/
theorem gross_mass_told :
    (∃ m ∈ firstMismatch? orderExchange crateWeight "weight" [dividingDepot "GrossMass", kilogramReader]
        kilogramReader, m.kind = .unit) ∧
      MistakesUnit orderExchange crateWeight [dividingDepot "GrossMass", kilogramReader]
        (fun _ => kilogramReader.names crateWeight) kilogramReader ∧
      ¬MistakesUnit orderExchange crateWeight [dividingDepot "GrossMass", kilogramReader]
        (·.names crateWeight) kilogramReader ∧
      ¬∃ m ∈ firstMismatch? orderExchange crateWeight "weight" [dividingDepot "weight", kilogramReader]
        kilogramReader, m.kind = .unit := by
  obtain ⟨-, -, -, hown⟩ := unit_told_iff orderExchange crateWeight "weight"
    [dividingDepot "GrossMass", kilogramReader]
  obtain ⟨-, -, -, hshared⟩ := unit_told_iff orderExchange crateWeight "weight"
    [dividingDepot "weight", kilogramReader]
  obtain ⟨htold, -⟩ := hown kilogramReader (by simp) rfl (by decide +kernel) (by decide +kernel)
  obtain ⟨-, hnames⟩ := hshared kilogramReader (by simp) rfl (by decide +kernel) (by decide +kernel)
  have htold' : ∃ m ∈ firstMismatch? orderExchange crateWeight "weight"
      [dividingDepot "GrossMass", kilogramReader] kilogramReader, m.kind = .unit := by
    have hkind : (firstMismatch? orderExchange crateWeight "weight"
        [dividingDepot "GrossMass", kilogramReader] kilogramReader).map (·.kind) = some .unit := by
      decide +kernel
    exact Option.map_eq_some_iff.mp hkind
  refine ⟨htold', htold.mp htold', not_mistakesUnit_of_divided (by decide +kernel), ?_⟩
  rw [hnames]
  · exact not_mistakesUnit_of_divided (by decide +kernel)
  · intro s hs hsupplier e he _
    rcases List.mem_pair.mp hs with rfl | rfl
    · obtain rfl := List.mem_singleton.mp he
      exact iff_of_true (by unfold Bears; decide +kernel) (by unfold Bears; decide +kernel)
    · cases hsupplier

end Concord.Comparison
