import Concord.Proofs.Elections
import Concord.Proofs.Schemas

/-! Of the fields of one class of quantities, the first at each place of a payload that the walk
meets counts. The walk passes over the items of an array and looks only at their members, so a unit
of an item, and all that is inside an array of arrays, has no say; nor has a field that stands where
a response of another status code has one. -/
namespace Concord.Convention

open Quantity

variable {parent : String} {x : FieldSchema × String}

/-- A node is a field or is inside it: a member, an item, and so on at any depth. -/
inductive NodeAt : String → FieldSchema → String → FieldSchema → Prop
  | self {path : String} {f : FieldSchema} : NodeAt path f path f
  | member {path path' : String} {f c g : FieldSchema} (hc : c ∈ f.children)
    (h : NodeAt (FieldPath.join path c.name) c path' g) : NodeAt path f path' g
  | item {path path' : String} {f i g : FieldSchema} (hi : i ∈ f.items)
    (h : NodeAt (FieldPath.join path "[]") i path' g) : NodeAt path f path' g

/-- A node that the walk meets: of an item, it meets the members and nothing else. -/
inductive SeenAt : String → FieldSchema → String → FieldSchema → Prop
  | self {path : String} {f : FieldSchema} : SeenAt path f path f
  | member {path path' : String} {f c g : FieldSchema} (hc : c ∈ f.children)
    (h : SeenAt (FieldPath.join path c.name) c path' g) : SeenAt path f path' g
  | itemMember {path path' : String} {f i c g : FieldSchema} (hi : i ∈ f.items)
    (hc : c ∈ i.children)
    (h : SeenAt (FieldPath.join (FieldPath.join path "[]") c.name) c path' g) : SeenAt path f path' g

theorem SeenAt.nodeAt {path path' : String} {f g : FieldSchema} (h : SeenAt path f path' g) :
    NodeAt path f path' g := by
  induction h with
  | self => exact .self
  | member hc _ ih => exact .member hc ih
  | itemMember hi hc _ ih => exact .item hi (.member hc ih)

theorem mem_fieldsAmong {fields : List FieldSchema} :
    x ∈ fieldsAmong parent fields ↔ ∃ f ∈ fields, x ∈ fieldsWithin parent f := by
  induction fields with
  | nil => simp [fieldsAmong]
  | cons f fields ih => simp [fieldsAmong, ih]

theorem mem_fieldsOfItems {items : Option FieldSchema} :
    x ∈ fieldsOfItems parent items ↔ ∃ i ∈ items, ∃ c ∈ i.children, x ∈ fieldsWithin parent c := by
  cases items with
  | none => simp [fieldsOfItems]
  | some i =>
    obtain ⟨name, type, format, unit, range, values, required, children, items, ref, truncated⟩ := i
    simp [fieldsOfItems, mem_fieldsAmong]

theorem mem_fieldsWithin_iff {f : FieldSchema} :
    x ∈ fieldsWithin parent f ↔ x = (f, FieldPath.join parent f.name) ∨
      (∃ c ∈ f.children, x ∈ fieldsWithin (FieldPath.join parent f.name) c) ∨
      ∃ i ∈ f.items, ∃ c ∈ i.children,
        x ∈ fieldsWithin (FieldPath.join (FieldPath.join parent f.name) "[]") c := by
  rw [← mem_fieldsAmong, ← mem_fieldsOfItems]
  obtain ⟨name, type, format, unit, range, values, required, children, items, ref, truncated⟩ := f
  simp [fieldsWithin]

theorem mem_fieldsWithin {parent path : String} {f g : FieldSchema} :
    (g, path) ∈ fieldsWithin parent f ↔ SeenAt (FieldPath.join parent f.name) f path g := by
  -- of an item only the members are met, so the induction is on a field with its members
  suffices hboth : (∀ parent, (g, path) ∈ fieldsWithin parent f ↔
      SeenAt (FieldPath.join parent f.name) f path g) ∧
      ∀ c ∈ f.children, ∀ parent, (g, path) ∈ fieldsWithin parent c ↔
        SeenAt (FieldPath.join parent c.name) c path g from hboth.1 parent
  clear parent
  induction f using FieldSchema.induction_inside with
  | step f hchildren hitems =>
    refine ⟨fun parent => ?_, fun c hc => (hchildren c hc).1⟩
    rw [mem_fieldsWithin_iff]
    constructor
    · rintro (heq | ⟨c, hc, h⟩ | ⟨i, hi, c, hc, h⟩)
      · obtain ⟨rfl, rfl⟩ := Prod.mk.inj heq
        exact .self
      · exact .member hc (((hchildren c hc).1 _).mp h)
      · exact .itemMember hi hc (((hitems i hi).2 c hc _).mp h)
    · intro h
      cases h with
      | self => exact .inl rfl
      | member hc h => exact .inr (.inl ⟨_, hc, ((hchildren _ hc).1 _).mpr h⟩)
      | itemMember hi hc h => exact .inr (.inr ⟨_, hi, _, hc, ((hitems _ hi).2 _ hc _).mpr h⟩)

/-- A place in the payloads of a manifest: the contract, the endpoint, the payload and the path. -/
abbrev Spot := String × String × PayloadKind × String

/-- The payloads of an endpoint: its request, and the responses of all status codes. -/
def Carries (e : Endpoint) : PayloadKind → Payload → Prop
  | .request, fields => e.request = some fields
  | .response, fields => ∃ code, (code, fields) ∈ e.responses

/-- At a place of a manifest stands a node of a class with a unit. Which nodes of a field there are is left
to `Inside`. -/
def Measured (Inside : String → FieldSchema → String → FieldSchema → Prop) (m : Manifest)
    (cls : QuantityClass) (s : Spot) (unit : String) : Prop :=
  ∃ c ∈ m.contracts, ∃ e ∈ c.endpoints, ∃ fields, Carries e s.2.2.1 fields ∧ ∃ f ∈ fields, ∃ g,
    Inside f.name f s.2.2.2 g ∧ measure? g = some (cls, unit) ∧ s.1 = c.id ∧ s.2.1 = e.id

def UnitUse.spot (u : UnitUse) : Spot := (u.contract, u.endpoint.id, u.payload, u.path)

/-- The unit at a place: that of the first field there. -/
def unitAt? (m : Manifest) (cls : QuantityClass) (s : Spot) : Option String :=
  (((unitUses m).filter (·.cls = cls)).find? (·.spot == s)).map (·.unit)

section Counting

variable {m : Manifest} {cls : QuantityClass} {s : Spot} {unit : String}

theorem mem_usesIn {c : Contract} {e : Endpoint} {kind : PayloadKind} {fields : Payload} {u : UnitUse} :
    u ∈ usesIn c e kind fields ↔ ∃ f ∈ fields, ∃ g, SeenAt f.name f u.path g ∧
      measure? g = some (u.cls, u.unit) ∧ u.payload = kind ∧ u.contract = c.id ∧ u.endpoint = e ∧
      u.field = g.name := by
  obtain ⟨cls, unit, payload, contract, endpoint, field, path⟩ := u
  have hjoin (f : FieldSchema) : FieldPath.join "" f.name = f.name := rfl
  simp only [usesIn, List.mem_filterMap, Prod.exists, mem_fieldsAmong, mem_fieldsWithin, hjoin,
    Option.map_eq_some_iff, UnitUse.mk.injEq]
  constructor
  · rintro ⟨g, path, ⟨f, hf, hseen⟩, _, _, hmeasure, rfl, rfl, rfl, rfl, rfl, rfl, rfl⟩
    exact ⟨f, hf, g, hseen, hmeasure, rfl, rfl, rfl, rfl⟩
  · rintro ⟨f, hf, g, hseen, hmeasure, rfl, rfl, rfl, rfl⟩
    exact ⟨g, path, ⟨f, hf, hseen⟩, cls, unit, hmeasure, rfl, rfl, rfl, rfl, rfl, rfl, rfl⟩

theorem mem_unitUses {u : UnitUse} : u ∈ unitUses m ↔
    ∃ c ∈ m.contracts, ∃ e ∈ c.endpoints, ∃ kind fields, Carries e kind fields ∧
      u ∈ usesIn c e kind fields := by
  have hon (c : Contract) (e : Endpoint) : (u ∈ (e.request.map (usesIn c e .request)).getD [] ++
      e.responses.flatMap fun r => usesIn c e .response r.2) ↔
        ∃ kind fields, Carries e kind fields ∧ u ∈ usesIn c e kind fields := by
    rw [List.mem_append, List.mem_flatMap]
    constructor
    · rintro (h | ⟨⟨code, fields⟩, hr, h⟩)
      · cases hrequest : e.request with
        | none => simp [hrequest] at h
        | some fields => exact ⟨.request, fields, hrequest, by simpa [hrequest] using h⟩
      · exact ⟨.response, fields, ⟨code, hr⟩, h⟩
    · rintro ⟨kind, fields, hcarries, h⟩
      cases kind with
      | request =>
        have hrequest : e.request = some fields := hcarries
        exact .inl (by simpa [hrequest] using h)
      | response =>
        obtain ⟨code, hr⟩ := hcarries
        exact .inr ⟨(code, fields), hr, h⟩
  simp only [unitUses, List.mem_flatMap, hon]

/-- The uses of a class are the nodes of the class that the walk meets. -/
theorem exists_use_iff : (∃ u ∈ (unitUses m).filter (·.cls = cls), u.spot = s ∧ u.unit = unit) ↔
    Measured SeenAt m cls s unit := by
  constructor
  · rintro ⟨u, hu, rfl, rfl⟩
    obtain ⟨hmem, hcls⟩ := List.mem_filter.mp hu
    obtain rfl : u.cls = cls := of_decide_eq_true hcls
    obtain ⟨c, hc, e, he, kind, fields, hcarries, hin⟩ := mem_unitUses.mp hmem
    obtain ⟨f, hf, g, hseen, hmeasure, rfl, hcontract, rfl, -⟩ := mem_usesIn.mp hin
    exact ⟨c, hc, u.endpoint, he, fields, hcarries, f, hf, g, hseen, hmeasure, hcontract, rfl⟩
  · obtain ⟨contract, endpoint, kind, path⟩ := s
    rintro ⟨c, hc, e, he, fields, hcarries, f, hf, g, hseen, hmeasure, rfl, rfl⟩
    refine ⟨⟨cls, unit, kind, c.id, e, g.name, path⟩, List.mem_filter.mpr ⟨?_, by simp⟩, rfl, rfl⟩
    exact mem_unitUses.mpr ⟨c, hc, e, he, kind, fields, hcarries,
      mem_usesIn.mpr ⟨f, hf, g, hseen, hmeasure, rfl, rfl, rfl, rfl⟩⟩

def counted (m : Manifest) (cls : QuantityClass) : List UnitUse :=
  Keyed.firsts UnitUse.spot ((unitUses m).filter (·.cls = cls))

theorem nodup_counted : ((counted m cls).map UnitUse.spot).Nodup := Keyed.nodup_map_firstsFrom _ _ _

theorem unitAt?_eq_some_iff :
    unitAt? m cls s = some unit ↔ ∃ u ∈ counted m cls, u.spot = s ∧ u.unit = unit := by
  have hfind : unitAt? m cls s = ((counted m cls).find? (·.spot == s)).map (·.unit) := by
    rw [counted, Keyed.firsts, Keyed.find?_firstsFrom List.not_mem_nil, unitAt?]
  rw [hfind, Option.map_eq_some_iff]
  constructor
  · rintro ⟨u, hu, rfl⟩
    exact ⟨u, List.mem_of_find?_eq_some hu, by simpa using List.find?_some hu, rfl⟩
  · rintro ⟨u, hu, rfl, rfl⟩
    obtain ⟨v, hv⟩ : ∃ v, (counted m cls).find? (·.spot == u.spot) = some v :=
      Option.isSome_iff_exists.mp (List.find?_isSome.mpr ⟨u, hu, by simp⟩)
    obtain rfl : v = u := List.inj_on_of_nodup_map nodup_counted (List.mem_of_find?_eq_some hv) hu
      (by simpa using List.find?_some hv)
    exact ⟨v, hv, rfl⟩

def spots (m : Manifest) (cls : QuantityClass) : Finset Spot :=
  ((counted m cls).map UnitUse.spot).toFinset

theorem mem_spots : s ∈ spots m cls ↔ (unitAt? m cls s).isSome = true := by
  simp [spots, Option.isSome_iff_exists, unitAt?_eq_some_iff]

theorem card_spots_filter (unit : String) :
    ((spots m cls).filter fun s => unitAt? m cls s = some unit).card =
      (counted m cls).countP (·.unit == unit) := by
  have hunit : ∀ u ∈ counted m cls, unitAt? m cls u.spot = some u.unit := fun u hu =>
    unitAt?_eq_some_iff.mpr ⟨u, hu, rfl, rfl⟩
  have hlist : (spots m cls).filter (fun s => unitAt? m cls s = some unit) =
      (((counted m cls).map UnitUse.spot).filter fun s => unitAt? m cls s = some unit).toFinset := by
    ext s
    simp [spots]
  rw [hlist, List.toFinset_card_of_nodup (nodup_counted.filter _), ← List.countP_eq_length_filter,
    List.countP_map]
  apply List.countP_congr
  intro u hu
  simp [hunit u hu]

variable (m cls) in
/-- Two places that count differ in their units. -/
def Differ : Prop := ∃ s s' unit unit', unitAt? m cls s = some unit ∧ unitAt? m cls s' = some unit' ∧
  unit ≠ unit'

variable (m cls) in
/-- A unit is the one of more places than any other, or of as many and first in the alphabet. -/
def MostUsed (most : String) : Prop :=
  ∃ spots : Finset Spot, (∀ s, s ∈ spots ↔ (unitAt? m cls s).isSome = true) ∧
    ∀ unit, unit ≠ most →
      (spots.filter fun s => unitAt? m cls s = some unit).card <
        (spots.filter fun s => unitAt? m cls s = some most).card ∨
      (spots.filter fun s => unitAt? m cls s = some unit).card =
        (spots.filter fun s => unitAt? m cls s = some most).card ∧ compare most unit = .lt

variable (m cls) in
def countedUnits : List String := Text.sortedUnique ((counted m cls).map (·.unit))

theorem mem_countedUnits : unit ∈ countedUnits m cls ↔ ∃ s, unitAt? m cls s = some unit := by
  simp only [countedUnits, Text.mem_sortedUnique, List.mem_map, unitAt?_eq_some_iff]
  grind

theorem differ_iff : Differ m cls ↔ ¬(countedUnits m cls).length < 2 := by
  have hcard : (countedUnits m cls).toFinset.card = (countedUnits m cls).length :=
    List.toFinset_card_of_nodup (Text.nodup_sortedUnique _)
  rw [not_lt, ← hcard, ← Nat.lt_iff_add_one_le, Finset.one_lt_card]
  simp only [List.mem_toFinset, mem_countedUnits, Differ]
  grind

/-- The election of a unit finds the first of those with most uses. -/
theorem exists_mostUsed (uses : List UnitUse) {units : List String} (h : units ≠ []) :
    ∃ most, mostUsed? uses units = some most ∧
      Elected (fun unit => uses.countP (·.unit == unit)) units most := by
  cases units with
  | nil => exact absurd rfl h
  | cons unit units =>
    refine ⟨_, ?_, elected_foldl (fun unit => uses.countP (·.unit == unit)) units unit⟩
    unfold mostUsed?
    dsimp only
    rw [List.foldl_cons]
    apply List.foldl_hom some
    intro best unit
    exact (apply_ite some _ _ _).symm

theorem countP_pos_iff_mem : 0 < (counted m cls).countP (·.unit == unit) ↔ unit ∈ countedUnits m cls := by
  simp [countedUnits, List.countP_pos_iff]

theorem mostUsed_of_elected {most : String}
    (h : Elected (fun unit => (counted m cls).countP (·.unit == unit)) (countedUnits m cls) most) :
    MostUsed m cls most := by
  refine ⟨spots m cls, fun s => mem_spots, fun unit hne => ?_⟩
  rw [card_spots_filter, card_spots_filter]
  by_cases hunit : unit ∈ countedUnits m cls
  · have hascending : (countedUnits m cls).Pairwise fun a b => compare a b = .lt :=
      Text.ascending_dropRepeats_mergeSort _
    obtain ⟨before, after, hsplit, hbefore⟩ := h.first
    rw [hsplit, List.pairwise_append, List.pairwise_cons] at hascending
    rcases List.mem_append.mp (hsplit ▸ hunit) with hearly | hlate
    · exact .inl (hbefore unit hearly)
    · have hafter : unit ∈ after := (List.mem_cons.mp hlate).resolve_left hne
      exact (h.greatest unit hunit).lt_or_eq.imp_right fun heq => ⟨heq, hascending.2.1.1 unit hafter⟩
  · have hmost := countP_pos_iff_mem.mpr h.mem
    have hnone := countP_pos_iff_mem.not.mpr hunit
    exact .inl (by omega)

def closing (cls : QuantityClass) : String :=
  let name := cls.display
  s!" with no {name} convention"

def warningsOn (cls : QuantityClass) (ms : List Mismatch) : List Mismatch :=
  ms.filter fun x => (closing cls).toList <:+ x.observed.toList

def unitWarning (cls : QuantityClass) (s : Spot) (unit most : String) (location : Location) :
    Mismatch where
  contract := s.1
  endpoint := s.2.1
  field := s.2.2.2
  kind := .unit
  expected := s!"{most} (most {cls.display} fields)"
  observed := s!"'{unit}' declared in {s.1} with no {cls.display} convention"
  rule := .strictnessParity
  severity := .warning
  location

variable (m cls) in
theorem unitMismatchesOf_cases :
    (¬Differ m cls ∧ unitMismatchesOf m cls = []) ∨
    (Differ m cls ∧ ∃ most, MostUsed m cls most ∧ unitMismatchesOf m cls =
      (Keyed.firsts (fun u => (u.contract, u.endpoint.id, u.path))
        ((counted m cls).filter (·.unit != most))).map fun u =>
          unitWarning cls u.spot u.unit most (m.locate [u.contract, u.endpoint.path, u.field])) := by
  have hcounted : Keyed.firsts (fun u => (u.contract, u.endpoint.id, u.payload, u.path))
      ((unitUses m).filter (·.cls = cls)) = counted m cls := rfl
  have hcountedUnits : Text.sortedUnique ((counted m cls).map (·.unit)) = countedUnits m cls := rfl
  by_cases hdiffer : Differ m cls
  · have hlength := differ_iff.mp hdiffer
    have hunits : countedUnits m cls ≠ [] := by
      intro hnil
      simp [hnil] at hlength
    obtain ⟨most, hmost, helected⟩ := exists_mostUsed (counted m cls) hunits
    refine .inr ⟨hdiffer, most, mostUsed_of_elected helected, ?_⟩
    simp only [unitMismatchesOf, hcounted, hcountedUnits, if_neg hlength, hmost]
    rfl
  · refine .inl ⟨hdiffer, ?_⟩
    have hfew := not_not.mp (mt differ_iff.mpr hdiffer)
    simp only [unitMismatchesOf, hcounted, hcountedUnits, if_pos hfew]

theorem unitMismatchesOf_ne_nil_iff : unitMismatchesOf m cls ≠ [] ↔ Differ m cls := by
  rcases unitMismatchesOf_cases m cls with ⟨hsame, hnil⟩ | ⟨hdiffer, most, -, hsome⟩
  · simp [hsame, hnil]
  · rw [hsome, Ne, List.map_eq_nil_iff, Keyed.firsts_eq_nil_iff, List.filter_eq_nil_iff]
    refine iff_of_true (fun hall => ?_) hdiffer
    -- if nothing was left, both of two places that differ would have the most used unit
    obtain ⟨s, s', unit, unit', hs, hs', hne⟩ := hdiffer
    obtain ⟨u, hu, -, rfl⟩ := unitAt?_eq_some_iff.mp hs
    obtain ⟨u', hu', -, rfl⟩ := unitAt?_eq_some_iff.mp hs'
    have hu := hall u hu
    have hu' := hall u' hu'
    simp_all

theorem exists_spot_of_mem {x : Mismatch} (h : x ∈ unitMismatchesOf m cls) :
    ∃ s unit most, unitAt? m cls s = some unit ∧ MostUsed m cls most ∧ unit ≠ most ∧
      x = unitWarning cls s unit most x.location := by
  rcases unitMismatchesOf_cases m cls with ⟨-, hnil⟩ | ⟨-, most, hmost, hsome⟩
  · simp [hnil] at h
  · rw [hsome] at h
    obtain ⟨u, hu, rfl⟩ := List.mem_map.mp h
    obtain ⟨hu, hne⟩ := List.mem_filter.mp (Keyed.mem_of_mem_firstsFrom hu)
    exact ⟨u.spot, u.unit, most, unitAt?_eq_some_iff.mpr ⟨u, hu, rfl, rfl⟩, hmost, by simpa using hne,
      rfl⟩

/-- No warning ends as one about another class does. -/
theorem cls_of_closing {x : Mismatch} {cls' : QuantityClass} (hx : x ∈ unitMismatchesOf m cls) :
    (closing cls').toList <:+ x.observed.toList ↔ cls = cls' := by
  obtain ⟨s, unit, most, -, -, -, heq⟩ := exists_spot_of_mem hx
  have hself : (closing cls).toList <:+ x.observed.toList := by
    rw [heq]
    refine ⟨s!"'{unit}' declared in {s.1}".toList, ?_⟩
    simp [unitWarning, closing]
  constructor
  · intro h
    have hall : ∀ a ∈ QuantityClass.all, ∀ b ∈ QuantityClass.all,
        (closing a).toList <:+ (closing b).toList → a = b := by decide +kernel
    have hmem (c : QuantityClass) : c ∈ QuantityClass.all := by cases c <;> decide
    rcases List.suffix_or_suffix_of_suffix h hself with h | h
    · exact (hall _ (hmem _) _ (hmem _) h).symm
    · exact hall _ (hmem _) _ (hmem _) h
  · rintro rfl
    exact hself

theorem warningsOn_unitMismatches (h : m.conventions.forClass? cls = none) :
    warningsOn cls (unitMismatches m) = unitMismatchesOf m cls := by
  have hclasses : (QuantityClass.all.filter fun c =>
      (m.conventions.forClass? c).isNone).Nodup := List.Nodup.filter _ (by decide)
  have hmem : cls ∈ QuantityClass.all.filter fun c => (m.conventions.forClass? c).isNone := by
    refine List.mem_filter.mpr ⟨?_, by simp [h]⟩
    cases cls <;> decide
  rw [warningsOn, unitMismatches, filter_flatMap_eq hclasses (k := cls), if_pos hmem]
  intro c _ x hx
  simp [cls_of_closing hx]

theorem measured_of_unitAt? (h : unitAt? m cls s = some unit) : Measured SeenAt m cls s unit := by
  obtain ⟨u, hu, hspot, hunit⟩ := unitAt?_eq_some_iff.mp h
  exact exists_use_iff.mp ⟨u, Keyed.mem_of_mem_firstsFrom hu, hspot, hunit⟩

theorem exists_unitAt?_of_measured (h : Measured SeenAt m cls s unit) :
    ∃ first, unitAt? m cls s = some first := by
  obtain ⟨u, hu, rfl, -⟩ := exists_use_iff.mpr h
  have hmem : u.spot ∈ (counted m cls).map UnitUse.spot :=
    Keyed.mem_map_firsts.mpr (List.mem_map_of_mem hu)
  obtain ⟨first, hfirst, hspot⟩ := List.mem_map.mp hmem
  exact ⟨first.unit, unitAt?_eq_some_iff.mpr ⟨first, hfirst, hspot, rfl⟩⟩

theorem Measured.nodeAt (h : Measured SeenAt m cls s unit) : Measured NodeAt m cls s unit := by
  obtain ⟨c, hc, e, he, fields, hcarries, f, hf, g, hseen, hmeasure⟩ := h
  exact ⟨c, hc, e, he, fields, hcarries, f, hf, g, hseen.nodeAt, hmeasure⟩

end Counting

/-- Two nodes of a class, wherever they stand, differ in their units. -/
def NodesDiffer (m : Manifest) (cls : QuantityClass) : Prop :=
  ∃ s s' unit unit', Measured NodeAt m cls s unit ∧ Measured NodeAt m cls s' unit' ∧ unit ≠ unit'

/-- For a class without a convention there is a warning exactly if two places differ in the units that count,
and each warning names a place whose unit is not the most used one. At a place counts a node that the walk
meets there, the first one. So a warning means that two nodes differ; and two nodes that differ are warned of
where the walk meets all nodes of the class and the nodes at one place agree. -/
theorem units_told_iff_counted (m : Manifest) (cls : QuantityClass)
    (h : m.conventions.forClass? cls = none) :
    (∀ s, (∀ unit, unitAt? m cls s = some unit → Measured SeenAt m cls s unit) ∧
      ∀ unit, Measured SeenAt m cls s unit → ∃ first, unitAt? m cls s = some first) ∧
    (warningsOn cls (unitMismatches m) ≠ [] ↔ Differ m cls) ∧
    (∀ x ∈ warningsOn cls (unitMismatches m), ∃ s unit most, unitAt? m cls s = some unit ∧
      MostUsed m cls most ∧ unit ≠ most ∧ x = unitWarning cls s unit most x.location) ∧
    (warningsOn cls (unitMismatches m) ≠ [] → NodesDiffer m cls) ∧
    ((∀ s unit, Measured NodeAt m cls s unit → Measured SeenAt m cls s unit) →
      (∀ s unit unit', Measured SeenAt m cls s unit → Measured SeenAt m cls s unit' → unit = unit') →
      NodesDiffer m cls → warningsOn cls (unitMismatches m) ≠ []) := by
  rw [warningsOn_unitMismatches h, unitMismatchesOf_ne_nil_iff]
  refine ⟨fun s => ⟨fun unit => measured_of_unitAt?, fun unit => exists_unitAt?_of_measured⟩,
    Iff.rfl, fun x => exists_spot_of_mem, ?_, ?_⟩
  · rintro ⟨s, s', unit, unit', hs, hs', hne⟩
    exact ⟨s, s', unit, unit', (measured_of_unitAt? hs).nodeAt, (measured_of_unitAt? hs').nodeAt, hne⟩
  · rintro hseen hagree ⟨s, s', unit, unit', hs, hs', hne⟩
    have hcounts {s : Spot} {unit : String} (hnode : Measured NodeAt m cls s unit) :
        unitAt? m cls s = some unit := by
      obtain ⟨first, hfirst⟩ := exists_unitAt?_of_measured (hseen s unit hnode)
      rw [hfirst, hagree s first unit (measured_of_unitAt? hfirst) (hseen s unit hnode)]
    exact ⟨s, s', unit, unit', hcounts hs, hcounts hs', hne⟩

def amountField (name unit : String) : FieldSchema :=
  ⟨name, .number, none, some unit, none, [], false, [], none, none, false⟩

def feesField : FieldSchema :=
  ⟨"fees", .array, none, none, none, [], false, [], some (amountField "" "cents"), none, false⟩

def feesManifest : Manifest :=
  ⟨[], [⟨"orders", "shop", [], "http", .outbound, none,
    [⟨"POST", "/orders", some [amountField "price" "dollars", feesField], [], []⟩]⟩], default,
    "contracts.yml", ""⟩

/-- The price and the fees differ in their units, and nothing is said. -/
theorem fees_in_cents_untold :
    feesManifest.conventions.forClass? .money = none ∧
    Measured NodeAt feesManifest .money ("orders", "POST /orders", .request, "price") "dollars" ∧
    Measured NodeAt feesManifest .money ("orders", "POST /orders", .request, "fees[]") "cents" ∧
    warningsOn .money (unitMismatches feesManifest) = [] := by
  have hfree : feesManifest.conventions.forClass? .money = none := rfl
  have hitem : NodeAt "fees" feesField "fees[]" (amountField "" "cents") := by
    have hpath : FieldPath.join "fees" "[]" = "fees[]" := by decide
    exact hpath ▸ .item rfl .self
  have hunits : (unitUses feesManifest).map (·.unit) = ["dollars"] := by decide +kernel
  have hdollars {s : Spot} {unit : String} (hs : unitAt? feesManifest .money s = some unit) :
      unit = "dollars" := by
    obtain ⟨u, hu, -, rfl⟩ := unitAt?_eq_some_iff.mp hs
    have hmem := (List.mem_filter.mp (Keyed.mem_of_mem_firstsFrom hu)).1
    exact List.mem_singleton.mp (hunits ▸ List.mem_map_of_mem hmem)
  refine ⟨hfree, ?_, ?_, ?_⟩
  · exact ⟨_, List.mem_cons_self, _, List.mem_cons_self, _, rfl, _, List.mem_cons_self, _, .self,
      by decide +kernel, rfl, rfl⟩
  · exact ⟨_, List.mem_cons_self, _, List.mem_cons_self, _, rfl, feesField,
      List.mem_cons_of_mem _ List.mem_cons_self, _, hitem, by decide +kernel, rfl, rfl⟩
  · by_contra hwarned
    obtain ⟨s, s', unit, unit', hs, hs', hne⟩ :=
      (units_told_iff_counted feesManifest .money hfree).2.1.mp hwarned
    exact hne ((hdollars hs).trans (hdollars hs').symm)

end Concord.Convention
