import Concord.Proofs.Elections
import Concord.Proofs.JsonText

/-! An object that is written out gets one member for each entry whose key can be read. Any other
entry, such as one with a computed or a numeric key, leaves no member and no trace. -/
namespace Concord.Literal

open Convention (PartOf)

namespace Entry

def key? : Entry → Option String
  | .spread => none
  | .keyless => none
  | .shorthand key => some key
  | .member key _ => some key

def isSpread : Entry → Bool
  | .spread => true
  | _ => false

theorem isSome_key?_iff {e : Entry} (h : e.isSpread = false) : e.key?.isSome ↔ e ≠ .keyless := by
  cases e with
  | spread => cases h
  | keyless => simp [key?]
  | shorthand key => simp [key?]
  | member key value => simp [key?]

end Entry

/-- Each entry makes one member, under its key. -/
def Complete (s : Source) (spans : List Span) (members : List Shape) : Prop :=
  List.Forall₂ (fun e c => (entryAt s e).key? = some c.name) spans members

theorem complete_iff {s : Source} {spans : List Span} {members : List Shape}
    (hnames : members.map (·.name) = spans.filterMap fun e => (entryAt s e).key?) :
    Complete s spans members ↔ ∀ e ∈ spans, (entryAt s e).key?.isSome := by
  constructor
  · intro h
    clear hnames
    induction h with
    | nil => simp
    | cons hkey _ ih => exact List.forall_mem_cons.mpr ⟨by simp [hkey], ih⟩
  · intro h
    induction spans generalizing members with
    | nil =>
      obtain rfl := List.map_eq_nil_iff.mp hnames
      exact .nil
    | cons e spans ih =>
      obtain ⟨hfirst, hrest⟩ := List.forall_mem_cons.mp h
      obtain ⟨key, hkey⟩ := Option.isSome_iff_exists.mp hfirst
      simp only [List.filterMap_cons, hkey] at hnames
      obtain ⟨c, others, rfl, rfl, hothers⟩ := List.map_eq_cons_iff.mp hnames
      exact .cons hkey (ih hothers hrest)

/-- What an object shows of the literal that is written from a brace on. -/
inductive ReadAt (s : Source) (opening : Nat) (node : Shape) : Prop
  | unclosed (hclose : s.closing? opening = none) (hchildren : node.children = [])
    (hconfidence : node.confidence = .inferred)
  | closed {close : Nat} (hclose : s.closing? opening = some close)
    (hnames : node.names =
      (s.pieces (opening + 1) close Byte.comma).filterMap fun e => (entryAt s e).key?)
    (hconfidence : node.confidence = .declared ↔
      ∀ e ∈ s.pieces (opening + 1) close Byte.comma, (entryAt s e).isSpread = false)
    (hcomplete : node.confidence = .declared →
      (Complete s (s.pieces (opening + 1) close Byte.comma) node.children ↔
        ∀ e ∈ s.pieces (opening + 1) close Byte.comma, entryAt s e ≠ .keyless))

/-- A shape of some name in which every object is read from its brace on. -/
structure Kept (s : Source) (name : String) (shape : Shape) : Prop where
  name : shape.name = name
  objects : ∀ node, PartOf node shape → node.kind = .object →
    ∃ opening, node.origin = ⟨s.place opening, s.excerpt opening⟩ ∧ ReadAt s opening node

theorem Kept.of_leaf {s : Source} {name : String} {shape : Shape} (hname : shape.name = name)
    (hchildren : shape.children = []) (hitems : shape.items = none) (hkind : shape.kind ≠ .object) :
    Kept s name shape :=
  ⟨hname, fun _ hnode hobject => absurd (hnode.eq_of_empty hchildren hitems ▸ hobject) hkind⟩

theorem kept_obscure (s : Source) (name : String) (origin : Origin) :
    Kept s name (Shape.obscure name origin) :=
  .of_leaf rfl rfl rfl (by simp [Shape.obscure, Shape.plain])

theorem kept_scalarShape (s : Source) (text : List Char) (name : String) (origin : Origin) :
    Kept s name (scalarShape text (Shape.plain name .unknown origin)) := by
  unfold scalarShape
  split
  · exact .of_leaf rfl rfl rfl (by simp)
  · split_ifs
    · exact .of_leaf rfl rfl rfl (by simp)
    · exact .of_leaf rfl rfl rfl (by simp)
    · exact .of_leaf rfl rfl rfl (by simp)
    · unfold expressionShape
      dsimp only
      split_ifs <;> exact .of_leaf rfl rfl rfl (by simp [Shape.plain])

section Fold

variable {s : Source} {fuel : Nat}
  (hvalue : ∀ span name origin, Kept s name (valueShape s fuel span name origin))

include hvalue

theorem addEntry_eq (shape : Shape) (span : Span) : ∃ added,
    addEntry s fuel shape span =
        { shape with
          children := shape.children ++ added
          confidence := if (entryAt s span).isSpread then .inferred else shape.confidence } ∧
      added.map (·.name) = (entryAt s span).key?.toList ∧ ∀ c ∈ added, Kept s c.name c := by
  unfold addEntry
  cases entryAt s span with
  | spread => exact ⟨[], by simp [Entry.isSpread], rfl, by simp⟩
  | keyless =>
    refine ⟨[], ?_, rfl, by simp⟩
    cases shape
    simp [Entry.isSpread]
  | shorthand key =>
    refine ⟨[_], rfl, rfl, ?_⟩
    rw [List.forall_mem_singleton]
    exact kept_obscure ..
  | member key value =>
    have hkept := hvalue value key ⟨s.place span.start, firstLine s span⟩
    refine ⟨[_], rfl, by simp [hkept.name, Entry.key?], ?_⟩
    rw [List.forall_mem_singleton, hkept.name]
    exact hkept

theorem foldl_addEntry_eq (shape : Shape) (spans : List Span) : ∃ added confidence,
    spans.foldl (addEntry s fuel) shape =
        { shape with children := shape.children ++ added, confidence } ∧
      added.map (·.name) = spans.filterMap (fun e => (entryAt s e).key?) ∧
      (confidence = .declared ↔
        shape.confidence = .declared ∧ ∀ e ∈ spans, (entryAt s e).isSpread = false) ∧
      ∀ c ∈ added, Kept s c.name c := by
  induction spans generalizing shape with
  | nil =>
    refine ⟨[], shape.confidence, ?_, rfl, by simp, by simp⟩
    cases shape
    simp
  | cons span spans ih =>
    obtain ⟨first, hfirst, hname, hkept⟩ := addEntry_eq hvalue shape span
    obtain ⟨rest, confidence, hrest, hnames, hconfidence, hrestKept⟩ := ih (addEntry s fuel shape span)
    refine ⟨first ++ rest, confidence, ?_, ?_, ?_, List.forall_mem_append.mpr ⟨hkept, hrestKept⟩⟩
    · rw [List.foldl_cons, hrest, hfirst, List.append_assoc]
    · rw [List.map_append, hname, hnames, List.filterMap_cons]
      cases (entryAt s span).key? <;> rfl
    · rw [hconfidence, hfirst, List.forall_mem_cons]
      cases (entryAt s span).isSpread <;> simp

theorem readAt_objectShape (opening : Nat) (name : String) :
    ReadAt s opening (objectShape s (fuel + 1) opening name) := by
  cases hclose : s.closing? opening with
  | none =>
    rw [objectShape, hclose]
    exact .unclosed hclose rfl rfl
  | some close =>
    obtain ⟨added, confidence, hfold, hnames, hconfidence, -⟩ := foldl_addEntry_eq hvalue
      (Shape.plain name .object ⟨s.place opening, s.excerpt opening⟩)
      (s.pieces (opening + 1) close Byte.comma)
    rw [objectShape_closed name hclose, hfold]
    have hspread := hconfidence.trans (and_iff_right rfl)
    refine .closed hclose hnames hspread fun hdeclared => (complete_iff hnames).trans ?_
    exact forall₂_congr fun e he => Entry.isSome_key?_iff (hspread.mp hdeclared e he)

theorem kept_objectShape (opening : Nat) (name : String) :
    Kept s name (objectShape s (fuel + 1) opening name) := by
  have hread := readAt_objectShape hvalue opening name
  cases hclose : s.closing? opening with
  | none =>
    rw [objectShape, hclose] at hread ⊢
    refine ⟨rfl, fun node hnode _ => ?_⟩
    obtain rfl := hnode.eq_of_empty rfl rfl
    exact ⟨opening, rfl, hread⟩
  | some close =>
    obtain ⟨added, confidence, hfold, -, -, hkept⟩ := foldl_addEntry_eq hvalue
      (Shape.plain name .object ⟨s.place opening, s.excerpt opening⟩)
      (s.pieces (opening + 1) close Byte.comma)
    rw [objectShape_closed name hclose, hfold] at hread ⊢
    refine ⟨rfl, fun node hnode hobject => ?_⟩
    cases hnode with
    | self => exact ⟨opening, rfl, hread⟩
    | item hi => cases hi
    | member hc hpart => exact (hkept _ hc).objects node hpart hobject

theorem kept_valueShape (hobject : ∀ opening name, Kept s name (objectShape s fuel opening name))
    (span : Span) (name : String) (origin : Origin) :
    Kept s name (valueShape s (fuel + 1) span name origin) := by
  rw [valueShape]
  dsimp only
  split
  · exact hobject _ name
  · split
    · exact .of_leaf rfl rfl rfl (by simp [Shape.plain])
    · split
      · exact .of_leaf rfl rfl rfl (by simp [Shape.plain])
      · refine ⟨rfl, fun node hnode hkind => ?_⟩
        cases hnode with
        | self => cases hkind
        | member hc => cases hc
        | item hi hpart =>
          obtain rfl := Option.some.inj hi
          exact (hvalue _ _ _).objects node hpart hkind
  · exact kept_scalarShape ..

end Fold

theorem kept (s : Source) (fuel : Nat) :
    (∀ opening name, Kept s name (objectShape s fuel opening name)) ∧
      ∀ span name origin, Kept s name (valueShape s fuel span name origin) := by
  induction fuel with
  | zero =>
    refine ⟨fun opening name => ?_, fun span name origin => ?_⟩
    · rw [objectShape]
      exact kept_obscure ..
    · rw [valueShape]
      exact kept_obscure ..
  | succ fuel ih => exact ⟨kept_objectShape ih.2, kept_valueShape ih.2 ih.1⟩

/-- In every object of a literal, the members are those of the entries whose keys can be read, in order.
It counts as declared if there is no spread among them, and then has a member for each entry exactly if
all keys can be read. -/
theorem declared_literal_complete_iff (s : Source) (opening : Nat) (name : String) :
    ReadAt s opening (object s opening name) ∧
      ∀ node, PartOf node (object s opening name) → node.kind = .object →
        ∃ inner, node.origin = ⟨s.place inner, s.excerpt inner⟩ ∧ ReadAt s inner node :=
  ⟨readAt_objectShape (kept s _).2 opening name, ((kept s _).1 opening name).objects⟩

def computedKey : String := "\x7b[key]: 1, id: 2\x7d"

/-- A computed key is dropped from an object that counts as declared. -/
theorem computed_key_dropped : ∃ s, Source.read Language.typeScript.lexis "m.ts" computedKey = .ok s ∧
    (object s 0 "").confidence = .declared ∧ (object s 0 "").names = ["id"] ∧
      ∃ e ∈ s.pieces 1 16 Byte.comma, entryAt s e = .keyless := by
  have hrun : (Source.read Language.typeScript.lexis "m.ts" computedKey).toOption.map (fun s =>
      (s.closing? 0, (s.pieces 1 16 Byte.comma).length, (object s 0 "").confidence,
        (object s 0 "").names)) = some (some 16, 2, .declared, ["id"]) := by decide +kernel
  cases hread : Source.read Language.typeScript.lexis "m.ts" computedKey with
  | error e => simp [hread, Except.toOption] at hrun
  | ok s =>
    simp only [hread, Except.toOption, Option.map_some, Option.some.injEq, Prod.mk.injEq] at hrun
    obtain ⟨hclose, hlength, hdeclared, hnames⟩ := hrun
    refine ⟨s, rfl, hdeclared, hnames, ?_⟩
    obtain ⟨hroot, -⟩ := declared_literal_complete_iff s 0 ""
    cases hroot with
    | unclosed hnone => cases hclose.symm.trans hnone
    | closed hclose' _ _ hcomplete =>
      obtain rfl := Option.some.inj (hclose.symm.trans hclose')
      by_contra hkeys
      simp only [not_exists, not_and] at hkeys
      have hmembers := ((hcomplete hdeclared).mpr hkeys).length_eq
      have hone : (object s 0 "").children.length = 1 := by
        simpa [Shape.names] using congrArg List.length hnames
      cases hlength.symm.trans (hmembers.trans hone)

end Concord.Literal
