import Mathlib.Tactic.MkIffOfInductiveProp
import Concord.Proofs.Schemas

/-! What makes a field proper is said of the document alone, of the field and of all that is inside
it. References are expanded while a field is built, but what they lead to is a named type and is
proper as such, so expansion refuses nothing by itself, whatever the depth is. -/
namespace Concord

open Text

variable {fields : List (String × FieldDoc)} {m : String × FieldDoc} {names seen : List String}

namespace FieldDoc

variable {f g : FieldDoc}

mutual

def all : FieldDoc → List FieldDoc
  | f@⟨_, _, _, _, _, _, _, _, fields, items, _⟩ => f :: (allOfFields fields ++ allOfItem items)

def allOfFields : Option (List (String × FieldDoc)) → List FieldDoc
  | none => []
  | some fields => allOfMembers fields

def allOfMembers : List (String × FieldDoc) → List FieldDoc
  | [] => []
  | (_, f) :: rest => all f ++ allOfMembers rest

def allOfItem : Option FieldDoc → List FieldDoc
  | none => []
  | some f => all f

end

mutual

def nesting : FieldDoc → Nat
  | ⟨_, _, _, _, _, _, _, _, fields, items, _⟩ => max (nestingOfFields fields) (nestingOfItem items)

def nestingOfFields : Option (List (String × FieldDoc)) → Nat
  | none => 0
  | some fields => nestingOfMembers fields + 1

def nestingOfMembers : List (String × FieldDoc) → Nat
  | [] => 0
  | (_, f) :: rest => max (nesting f) (nestingOfMembers rest)

def nestingOfItem : Option FieldDoc → Nat
  | none => 0
  | some f => nesting f + 1

end

theorem mem_allOfMembers : g ∈ allOfMembers fields ↔ ∃ m ∈ fields, g ∈ m.2.all := by
  induction fields with
  | nil => simp [allOfMembers]
  | cons m fields ih => simp [allOfMembers, ih]

theorem mem_all_iff :
    g ∈ f.all ↔ g = f ∨ (∃ fields ∈ f.fields, ∃ m ∈ fields, g ∈ m.2.all) ∨
      ∃ item ∈ f.items, g ∈ item.all := by
  obtain ⟨type, format, unit, range, values, required, optional, hasDefault, fields, items, ref⟩ := f
  cases fields <;> cases items <;> simp [all, allOfFields, allOfItem, mem_allOfMembers]

theorem forall_mem_all_iff {P : FieldDoc → Prop} :
    (∀ g ∈ f.all, P g) ↔ P f ∧ (∀ fields ∈ f.fields, ∀ m ∈ fields, ∀ g ∈ m.2.all, P g) ∧
      ∀ item ∈ f.items, ∀ g ∈ item.all, P g := by
  simp only [mem_all_iff (f := f)]
  constructor
  · intro h
    exact ⟨h f (.inl rfl), fun fields hfields m hm g hg => h g (.inr (.inl ⟨fields, hfields, m, hm, hg⟩)),
      fun item hitem g hg => h g (.inr (.inr ⟨item, hitem, hg⟩))⟩
  · rintro ⟨hself, hmembers, hitem⟩ g (rfl | ⟨fields, hfields, m, hm, hg⟩ | ⟨item, hi, hg⟩)
    · exact hself
    · exact hmembers fields hfields m hm g hg
    · exact hitem item hi g hg

theorem nesting_le_nestingOfMembers (h : m ∈ fields) : m.2.nesting ≤ nestingOfMembers fields := by
  induction fields with
  | nil => cases h
  | cons a fields ih =>
    rw [nestingOfMembers]
    rcases List.mem_cons.mp h with rfl | h
    · exact Nat.le_max_left _ _
    · exact Nat.le_trans (ih h) (Nat.le_max_right _ _)

theorem nesting_member_lt (hfields : fields ∈ f.fields) (hm : m ∈ fields) :
    m.2.nesting < f.nesting := by
  obtain ⟨type, format, unit, range, values, required, optional, hasDefault, fs, items, ref⟩ := f
  obtain rfl : fs = some fields := hfields
  have := nesting_le_nestingOfMembers hm
  simp only [nesting, nestingOfFields]
  omega

theorem nesting_item_lt {f item : FieldDoc} (hitem : item ∈ f.items) : item.nesting < f.nesting := by
  obtain ⟨type, format, unit, range, values, required, optional, hasDefault, fs, items, ref⟩ := f
  obtain rfl : items = some item := hitem
  simp only [nesting, nestingOfItem]
  omega

theorem inside_eq_none_of_nesting (h : f.nesting = 0) : f.fields = none ∧ f.items = none := by
  obtain ⟨type, format, unit, range, values, required, optional, hasDefault, fields, items, ref⟩ := f
  cases fields <;> cases items <;> simp_all [nesting, nestingOfFields, nestingOfItem]

/-- Members are given of objects without a reference only, and items of arrays only. -/
@[mk_iff]
structure Placed (f : FieldDoc) : Prop where
  fields : f.fields.isSome = true → FieldType.ofName? f.type = some .object ∧ f.ref = none
  items : f.items.isSome = true → FieldType.ofName? f.type = some .array

instance (f : FieldDoc) : Decidable f.Placed := decidable_of_iff' _ (placed_iff f)

end FieldDoc

/-- A range with two places for ends, of which one at least is given and which are not inverted. -/
def RangeDoc.Proper (r : RangeDoc) : Prop :=
  ∃ min max, (r = .bounds min max ∨ r = .list [min, max]) ∧ (min ≠ none ∨ max ≠ none) ∧
    ∀ low ∈ min, ∀ high ∈ max, ¬high < low

/-- A field as far as it can be told from itself: a type that is known, attributes that fit it, and
what is given of the range. -/
structure FieldDoc.Sound (f : FieldDoc) : Prop where
  known : (FieldType.ofName? f.type).isSome = true
  scalar : ∀ type ∈ FieldType.ofName? f.type, type.isScalar = false →
    f.range = none ∧ f.values = none
  no_default : f.required = true → f.hasDefault = true → f.optional = true
  range : ∀ r ∈ f.range, r.Proper

/-- A field that is sound, refers to one of the named types if it is an object with a reference, and
names its members apart. -/
structure FieldDoc.Proper (types : List String) (f : FieldDoc) : Prop extends f.Sound where
  ref : FieldType.ofName? f.type = some .object → ∀ name ∈ f.ref, name ∈ types
  members_apart : ∀ fields ∈ f.fields, (fields.map (·.1)).Nodup

/-- Names that are apart and not among those seen before. -/
def Fresh (seen names : List String) : Prop := names.Nodup ∧ ∀ a ∈ names, a ∉ seen

theorem fresh_cons_iff {a : String} : Fresh seen (a :: names) ↔ a ∉ seen ∧ Fresh (a :: seen) names := by
  unfold Fresh
  rw [List.nodup_cons]
  constructor
  · rintro ⟨⟨ha, hnodup⟩, hseen⟩
    refine ⟨hseen a List.mem_cons_self, hnodup, fun b hb hmem => ?_⟩
    rcases List.mem_cons.mp hmem with rfl | hmem
    · exact ha hb
    · exact hseen b (List.mem_cons_of_mem _ hb) hmem
  · rintro ⟨ha, hnodup, hseen⟩
    refine ⟨⟨fun hmem => hseen a hmem List.mem_cons_self, hnodup⟩, fun b hb hmem => ?_⟩
    rcases List.mem_cons.mp hb with rfl | hb
    · exact ha hmem
    · exact hseen b hb (List.mem_cons_of_mem _ hmem)

theorem fresh_nil_iff : Fresh [] names ↔ names.Nodup := by
  simp [Fresh]

theorem firstRepeat?_eq_none_iff : firstRepeat? seen names = none ↔ Fresh seen names := by
  refine ⟨firstRepeat?_eq_none, fun h => ?_⟩
  induction names generalizing seen with
  | nil => rfl
  | cons a names ih =>
    obtain ⟨ha, hrest⟩ := fresh_cons_iff.mp h
    rw [firstRepeat?, if_neg (by simpa using ha)]
    exact ih hrest

theorem checkNames_ok_iff (scope : String) : (∃ u, checkNames scope names = .ok u) ↔ names.Nodup := by
  rw [← fresh_nil_iff, ← firstRepeat?_eq_none_iff, checkNames]
  cases firstRepeat? [] names <;> simp

theorem buildRange_ok_iff {path : String} {r : RangeDoc} :
    (∃ range, buildRange path r = .ok range) ↔ r.Proper := by
  have hends (min max : Option Binary64) :
      (∃ range, buildRange path (.bounds min max) = .ok range) ↔
        (min ≠ none ∨ max ≠ none) ∧ ∀ low ∈ min, ∀ high ∈ max, ¬high < low := by
    cases min <;> cases max <;> simp [buildRange]
    next low high => by_cases h : high < low <;> simp [h]
  unfold RangeDoc.Proper
  match r with
  | .bounds min max => simp [hends]
  | .list [min, max] =>
    have hsame : buildRange path (.list [min, max]) = buildRange path (.bounds min max) := rfl
    simp [hsame, hends]
  | .list [] => simp [buildRange]
  | .list [_] => simp [buildRange]
  | .list (_ :: _ :: _ :: _) => simp [buildRange]

theorem buildScalar_type {path name : String} {d : FieldDoc} {s : FieldSchema}
    (h : buildScalar path name d = .ok s) : FieldType.ofName? d.type = some s.type := by
  obtain ⟨type, range, htype, -, rfl⟩ := buildScalar_cases h
  exact htype

theorem buildScalar_ok_iff (path name : String) {d : FieldDoc} :
    (∃ s, buildScalar path name d = .ok s) ↔ d.Sound := by
  unfold buildScalar
  cases htype : FieldType.ofName? d.type with
  | none => exact iff_of_false not_exists_throw_eq_ok fun h => by simpa [htype] using h.known
  | some type =>
    dsimp only
    rw [ite_throw_ok_iff, ite_throw_ok_iff, ite_throw_ok_iff, bind_pure_ok_iff, option_mapM_ok_iff]
    simp only [buildRange_ok_iff, Bool.and_eq_true, Bool.not_eq_true', not_and, Bool.not_eq_true,
      Option.isSome_eq_false_iff, Option.isNone_iff_eq_none, Bool.not_eq_false]
    constructor
    · rintro ⟨hrange, hvalues, hdefault, hproper⟩
      refine ⟨by simp [htype], fun t ht hscalar => ?_, fun hreq hdef => hdefault ⟨hreq, hdef⟩, hproper⟩
      obtain rfl : type = t := Option.some.inj (htype.symm.trans ht)
      exact ⟨hrange hscalar, hvalues hscalar⟩
    · intro h
      exact ⟨fun hscalar => (h.scalar type htype hscalar).1, fun hscalar => (h.scalar type htype hscalar).2,
        fun hboth => h.no_default hboth.1 hboth.2, h.range⟩

theorem buildMembers_ok_iff {inner : FieldBuilder} {visiting : List String} {path : String} :
    (∃ cs, buildMembers inner visiting path fields = .ok cs) ↔ (fields.map (·.1)).Nodup ∧
      ∀ m ∈ fields, ∃ s, inner visiting (path ++ "." ++ m.1) m.1 m.2 = .ok s := by
  unfold buildMembers
  rw [bind_ok_iff_and fun _ => mapM_ok_iff _ _, checkNames_ok_iff]

/-- What the object at a path needs from the builder of what is inside it: a reference leads to a
type whose members can be built, unless it is being expanded already; without a reference the members
given in place can be built. -/
structure ObjectBuilds (types : List (String × FieldDoc)) (inner? : Option FieldBuilder)
    (visiting : List String) (path : String) (d : FieldDoc) : Prop where
  target : ∀ ref ∈ d.ref, ∃ target ∈ types.lookup ref, ref ∉ visiting → ∀ inner ∈ inner?,
    ∃ cs, buildMembers inner (ref :: visiting) path (target.fields.getD []) = .ok cs
  members : d.ref = none → ∀ fields ∈ d.fields, ∀ inner ∈ inner?,
    ∃ cs, buildMembers inner visiting path fields = .ok cs

section Around

variable {types : List (String × FieldDoc)} {inner? : Option FieldBuilder} {visiting : List String}
  {path name : String} {d : FieldDoc} {s : FieldSchema}

theorem objectBuilds_iff_of_lookup {ref : String} {target : FieldDoc} (href : d.ref = some ref)
    (hlookup : types.lookup ref = some target) :
    ObjectBuilds types inner? visiting path d ↔ (ref ∉ visiting → ∀ inner ∈ inner?,
      ∃ cs, buildMembers inner (ref :: visiting) path (target.fields.getD []) = .ok cs) := by
  constructor
  · intro h
    obtain ⟨t, ht, hbuild⟩ := h.target ref href
    obtain rfl : target = t := Option.some.inj (hlookup.symm.trans ht)
    exact hbuild
  · intro h
    refine ⟨fun r hr => ?_, by simp [href]⟩
    obtain rfl : ref = r := Option.some.inj (href.symm.trans hr)
    exact ⟨target, hlookup, h⟩

theorem objectBuilds_iff_of_no_ref (href : d.ref = none) :
    ObjectBuilds types inner? visiting path d ↔ ∀ fields ∈ d.fields, ∀ inner ∈ inner?,
      ∃ cs, buildMembers inner visiting path fields = .ok cs :=
  ⟨fun h => h.members href, fun h => ⟨by simp [href], fun _ => h⟩⟩

theorem buildAround_object_ok_iff (hs : buildScalar path name d = .ok s) (hkind : s.type = .object) :
    (∃ f, buildAround types inner? visiting path name d = .ok f) ↔
      ObjectBuilds types inner? visiting path d := by
  unfold buildAround
  rw [bind_ok_iff, hs]
  simp only [Except.ok.injEq, exists_eq_left', hkind]
  cases href : d.ref with
  | some ref =>
    dsimp only
    cases hlookup : types.lookup ref with
    | none =>
      refine iff_of_false not_exists_throw_eq_ok fun h => ?_
      obtain ⟨target, htarget, -⟩ := h.target ref href
      simp [hlookup] at htarget
    | some target =>
      rw [objectBuilds_iff_of_lookup href hlookup]
      dsimp only
      by_cases hvisiting : ref ∈ visiting
      · rw [if_pos (by simp [hvisiting])]
        exact iff_of_true ⟨_, rfl⟩ fun h => absurd hvisiting h
      · cases inner? with
        | none =>
          rw [if_pos (by simp)]
          exact iff_of_true ⟨_, rfl⟩ (by simp)
        | some inner =>
          rw [if_neg (by simpa using hvisiting), bind_pure_ok_iff, buildChildren_some]
          simp [hvisiting]
  | none =>
    rw [objectBuilds_iff_of_no_ref href]
    dsimp only
    cases d.fields with
    | none => exact iff_of_true ⟨_, rfl⟩ (by simp)
    | some fields =>
      cases inner? with
      | none => exact iff_of_true ⟨_, rfl⟩ (by simp)
      | some inner =>
        rw [if_neg (by simp), bind_pure_ok_iff, buildChildren_some]
        simp

theorem buildAround_array_ok_iff (hs : buildScalar path name d = .ok s) (hkind : s.type = .array) :
    (∃ f, buildAround types inner? visiting path name d = .ok f) ↔
      ∀ item ∈ d.items, ∀ inner ∈ inner?, ∃ f, inner visiting (path ++ "[]") "[]" item = .ok f := by
  unfold buildAround
  rw [bind_ok_iff, hs]
  simp only [Except.ok.injEq, exists_eq_left', hkind]
  cases d.items with
  | none => simp
  | some item =>
    cases inner? with
    | none => simp
    | some inner =>
      dsimp only
      rw [bind_pure_ok_iff]
      simp

/-- A field can be built if it is sound and what is inside it can be built. -/
theorem buildAround_ok_iff : (∃ f, buildAround types inner? visiting path name d = .ok f) ↔
    d.Sound ∧
      (FieldType.ofName? d.type = some .object → ObjectBuilds types inner? visiting path d) ∧
      (FieldType.ofName? d.type = some .array → ∀ item ∈ d.items, ∀ inner ∈ inner?,
        ∃ f, inner visiting (path ++ "[]") "[]" item = .ok f) := by
  rw [← buildScalar_ok_iff path name]
  cases hs : buildScalar path name d with
  | error e =>
    unfold buildAround
    rw [bind_ok_iff, hs]
    simp
  | ok s =>
    rw [buildScalar_type hs]
    cases hkind : s.type with
    | object => simpa using buildAround_object_ok_iff hs hkind
    | array => simpa using buildAround_array_ok_iff hs hkind
    | _ =>
      unfold buildAround
      rw [bind_ok_iff, hs]
      simp [hkind]

end Around

theorem exists_lookup_iff {types : List (String × FieldDoc)} {name : String} :
    (∃ target, types.lookup name = some target) ↔ name ∈ types.map (·.1) := by
  rw [← Option.isSome_iff_exists, List.lookup_isSome_iff]
  simp only [List.mem_map, beq_iff_eq, @eq_comm _ name]

theorem mem_of_lookup {types : List (String × FieldDoc)} {name : String} {target : FieldDoc}
    (h : types.lookup name = some target) : (name, target) ∈ types := by
  obtain ⟨before, after, rfl, -⟩ := List.lookup_eq_some_iff.mp h
  simp

/-- A field that is proper at every depth, among named types. -/
def FieldDoc.ProperWithin (types : List (String × FieldDoc)) (d : FieldDoc) : Prop :=
  ∀ f ∈ d.all, f.Proper (types.map (·.1))

/-- A way to build every field that is proper at every depth. -/
def BuildsProper (types : List (String × FieldDoc)) (build : FieldBuilder) : Prop :=
  ∀ visiting path name d, FieldDoc.ProperWithin types d → ∃ s, build visiting path name d = .ok s

theorem buildMembers_of_proper {types fields : List (String × FieldDoc)} {d : FieldDoc}
    {inner : FieldBuilder} (hinner : BuildsProper types inner) (hd : d.ProperWithin types)
    (hfields : fields ∈ d.fields) (visiting : List String) (path : String) :
    ∃ cs, buildMembers inner visiting path fields = .ok cs := by
  obtain ⟨hself, hmembers, -⟩ := FieldDoc.forall_mem_all_iff.mp hd
  exact buildMembers_ok_iff.mpr
    ⟨hself.members_apart fields hfields, fun m hm => hinner _ _ _ _ (hmembers fields hfields m hm)⟩

theorem buildsProper_around {types : List (String × FieldDoc)}
    (htypes : ∀ t ∈ types, t.2.ProperWithin types) {inner? : Option FieldBuilder}
    (hinner : ∀ inner ∈ inner?, BuildsProper types inner) :
    BuildsProper types (buildAround types inner?) := by
  intro visiting path name d hd
  obtain ⟨hself, -, hitem⟩ := FieldDoc.forall_mem_all_iff.mp hd
  refine buildAround_ok_iff.mpr ⟨hself.toSound, fun hobject => ⟨fun ref href => ?_, ?_⟩, ?_⟩
  · obtain ⟨target, htarget⟩ := exists_lookup_iff.mpr (hself.ref hobject ref href)
    refine ⟨target, htarget, fun _ inner hmem => ?_⟩
    -- what a reference leads to is proper as a named type, whatever refers to it
    cases hfields : target.fields with
    | none => exact buildMembers_ok_iff.mpr (by simp)
    | some fields =>
      exact buildMembers_of_proper (hinner inner hmem) (htypes _ (mem_of_lookup htarget)) hfields _ _
  · intro _ fields hfields inner hmem
    exact buildMembers_of_proper (hinner inner hmem) hd hfields _ _
  · intro _ item hmem inner hsome
    exact hinner inner hsome _ _ _ _ (hitem item hmem)

theorem buildsProper_field {types : List (String × FieldDoc)}
    (htypes : ∀ t ∈ types, t.2.ProperWithin types) (left : Nat) :
    BuildsProper types (buildField types left) := by
  induction left with
  | zero => exact buildsProper_around htypes (by simp)
  | succ left ih => exact buildsProper_around htypes (by simpa using ih)

theorem ObjectBuilds.ref {types : List (String × FieldDoc)} {inner? : Option FieldBuilder}
    {visiting : List String} {path : String} {d : FieldDoc}
    (h : ObjectBuilds types inner? visiting path d) : ∀ name ∈ d.ref, name ∈ types.map (·.1) := by
  intro name hname
  obtain ⟨target, htarget, -⟩ := h.target name hname
  exact exists_lookup_iff.mp ⟨target, htarget⟩

/-- Where members and items are in their places and the depth reaches all of them, building a field
looks at all that is inside it. -/
theorem proper_of_buildField {types : List (String × FieldDoc)} {left : Nat} {visiting : List String}
    {path name : String} {d : FieldDoc} (hplaced : ∀ f ∈ d.all, f.Placed) (hdepth : d.nesting ≤ left)
    (h : ∃ s, buildField types left visiting path name d = .ok s) : d.ProperWithin types := by
  induction left generalizing visiting path name d with
  | zero =>
    obtain ⟨hsound, hobject, -⟩ := buildAround_ok_iff.mp h
    obtain ⟨hfields, hitems⟩ := FieldDoc.inside_eq_none_of_nesting (Nat.le_zero.mp hdepth)
    exact FieldDoc.forall_mem_all_iff.mpr
      ⟨⟨hsound, fun htype => (hobject htype).ref, by simp [hfields]⟩, by simp [hfields],
        by simp [hitems]⟩
  | succ left ih =>
    obtain ⟨hsound, hobject, harray⟩ := buildAround_ok_iff.mp h
    obtain ⟨hself, hmembers, hitem⟩ := FieldDoc.forall_mem_all_iff.mp hplaced
    have hbuilt : ∀ fields ∈ d.fields, (fields.map (·.1)).Nodup ∧ ∀ m ∈ fields,
        ∃ s, buildField types left visiting (path ++ "." ++ m.1) m.1 m.2 = .ok s := by
      intro fields hfields
      obtain ⟨htype, href⟩ := hself.fields (Option.isSome_of_mem hfields)
      exact buildMembers_ok_iff.mp ((hobject htype).members href fields hfields _ rfl)
    refine FieldDoc.forall_mem_all_iff.mpr ⟨⟨hsound, fun htype => (hobject htype).ref, ?_⟩, ?_, ?_⟩
    · exact fun fields hfields => (hbuilt fields hfields).1
    · intro fields hfields m hm
      have := FieldDoc.nesting_member_lt hfields hm
      exact ih (hmembers fields hfields m hm) (by omega) ((hbuilt fields hfields).2 m hm)
    · intro item hmem
      have := FieldDoc.nesting_item_lt hmem
      have htype := hself.items (Option.isSome_of_mem hmem)
      exact ih (hitem item hmem) (by omega) (harray htype item hmem _ rfl)

end Concord
