import Mathlib.Data.List.TakeWhile
import Concord.Proofs.Mentions
import Concord.Proofs.Resolution
import Concord.Proofs.ShapeTrees

/-! A lower depth limit cuts the shape of a type off at that depth and does nothing else. What is
cut off can be seen: an array or a record at the limit is empty and only inferred. -/
namespace Concord

variable {visiting : List String} {bindings : Bindings} {ty : TypeExpr} {p : Place}

namespace Shape

mutual

def height : Shape → Nat
  | ⟨_, _, _, _, _, _, _, _, _, _, children, items, _, _⟩ =>
    max (heightAll children) (heightItem items)

def heightAll : List Shape → Nat
  | [] => 0
  | s :: rest => max (height s + 1) (heightAll rest)

def heightItem : Option Shape → Nat
  | none => 0
  | some s => height s + 1

end

theorem heightAll_le_iff {shapes : List Shape} {n : Nat} :
    heightAll shapes ≤ n ↔ ∀ s ∈ shapes, s.height < n := by
  induction shapes with
  | nil => simp [heightAll]
  | cons s rest ih => rw [heightAll, Nat.max_le, Nat.succ_le_iff, ih, List.forall_mem_cons]

theorem height_le_iff {s : Shape} {n : Nat} :
    s.height ≤ n ↔ (∀ c ∈ s.children, c.height < n) ∧ ∀ i ∈ s.items, i.height < n := by
  obtain ⟨name, declared, typeName, kind, format, unit, range, values, required, validated, children,
    items, origin, confidence⟩ := s
  cases items with
  | none => simp [height, heightItem, heightAll_le_iff]
  | some i =>
    rw [height, heightItem, Nat.max_le, heightAll_le_iff, Nat.succ_le_iff]
    simp

theorem height_le_of_empty {s : Shape} (hchildren : s.children = []) (hitems : s.items = none)
    (n : Nat) : s.height ≤ n := by
  simp [height_le_iff, hchildren, hitems]

theorem height_le_of_eq {s t : Shape} {n : Nat} (h : t.height ≤ n) (hchildren : s.children = t.children)
    (hitems : s.items = t.items) : s.height ≤ n := by
  rw [height_le_iff, hchildren, hitems]
  exact height_le_iff.mp h

/-- Below its place, a shape has the height that the limit leaves. -/
theorem Resolves.height_le {table : TypeTable} {limit : Nat} {s : Shape}
    (h : Resolves table limit visiting bindings ty p s) {n : Nat} (hn : limit ≤ p.depth + n) :
    s.height ≤ n := by
  induction h generalizing n with
  | scalar => exact height_le_of_empty rfl rfl n
  | formatted => exact height_le_of_empty rfl rfl n
  | literals => exact height_le_of_empty rfl rfl n
  | map => exact height_le_of_empty rfl rfl n
  | unknown => exact height_le_of_empty rfl rfl n
  | arrayCut => exact height_le_of_empty rfl rfl n
  | @array visiting bindings item p s hdepth _ ih =>
    have hitem : s.height ≤ n - 1 := ih (show limit ≤ p.depth + 1 + (n - 1) by omega)
    exact height_le_iff.mpr ⟨by simp [plain], by simp; omega⟩
  | optional _ ih => exact height_le_of_eq (ih hn) rfl rfl
  | bound _ _ ih => exact ih hn
  | missing => exact height_le_of_empty rfl rfl n
  | enum => exact height_le_of_empty rfl rfl n
  | synonymCut => exact height_le_of_empty rfl rfl n
  | synonym _ _ _ _ _ ih => exact height_le_of_eq (ih hn) rfl rfl
  | recordCut => exact height_le_of_empty rfl rfl n
  | @record visiting bindings name args p decl fields x base hfree hget hbody hvisiting hdepth henter _ ih =>
    refine height_le_iff.mpr ⟨fun c hc => ?_, by simp [Visit.items_shape]⟩
    have hplace : x.place.depth = p.depth := henter ▸ rfl
    obtain ⟨field, hfield, ⟨hown, rfl⟩ | ⟨hembedded, hc⟩⟩ := Visit.mem_children_shape hc
    · have hn' : limit ≤ (x.placeOf field).depth + (n - 1) := by
        rw [Visit.depth_placeOf_own hown]
        omega
      have hmember : (x.member field (base field)).height ≤ n - 1 := by
        cases hopen : x.leavesOpen field with
        | true =>
          rw [Visit.member_of_open hopen]
          exact height_le_of_empty rfl rfl _
        | false =>
          rw [Visit.member_of_filled hopen]
          exact height_le_of_eq (ih field hfield (.inr hopen) hn') rfl rfl
      omega
    · have hn' : limit ≤ (x.placeOf field).depth + n := by
        rw [Visit.depth_placeOf_embedded hembedded]
        omega
      exact (height_le_iff.mp (ih field hfield (.inl hembedded) hn')).1 c hc

/-- A shape cut off at depth `n`: there, what `compound` is true of loses what is inside it and is
marked as inferred. -/
def cutAt (compound : Shape → Bool) : (n : Nat) → Shape → Shape
  | 0, s => if compound s then { s with children := [], items := none, confidence := .inferred } else s
  | n + 1, s =>
    { s with children := s.children.map (cutAt compound n), items := s.items.map (cutAt compound n) }

section CutAt

variable {compound : Shape → Bool} {s : Shape}

@[simp] theorem name_cutAt (n : Nat) (s : Shape) : (s.cutAt compound n).name = s.name := by
  cases n with
  | zero =>
    rw [cutAt]
    split <;> rfl
  | succ n => rfl

theorem cutAt_of_empty (hchildren : s.children = []) (hitems : s.items = none)
    (h : compound s = false ∨ s.confidence = .inferred) (n : Nat) : s.cutAt compound n = s := by
  obtain ⟨name, declared, typeName, kind, format, unit, range, values, required, validated, children,
    items, origin, confidence⟩ := s
  subst hchildren hitems
  cases n with
  | zero =>
    rw [cutAt]
    split
    · next hcompound => simp_all
    · rfl
  | succ n => rfl

/-- A change to what a shape tells about itself may be made before or after it is cut off. -/
theorem cutAt_comm {g : Shape → Shape} (hcompound : compound (g s) = compound s)
    (hg : ∀ children items confidence,
      g { s with children, items, confidence } = { g s with children, items, confidence })
    (hchildren : (g s).children = s.children) (hitems : (g s).items = s.items)
    (hconfidence : (g s).confidence = s.confidence) (n : Nat) :
    (g s).cutAt compound n = g (s.cutAt compound n) := by
  cases n with
  | zero =>
    rw [cutAt, cutAt, hcompound]
    split
    · rw [hg]
    · rfl
  | succ n =>
    rw [cutAt, cutAt, hg, hchildren, hitems, hconfidence]

theorem cutAt_splice (n : Nat) (s b : Shape) : (splice s b).cutAt compound (n + 1) =
    splice (s.cutAt compound (n + 1)) (b.cutAt compound (n + 1)) := by
  have hnames : (s.children.map (cutAt compound n)).map (·.name) = s.children.map (·.name) := by
    simp
  simp only [splice, cutAt, List.map_append, hnames]
  rw [Keyed.firstsFrom_map (name_cutAt n)]
  rfl

end CutAt

/-- What makes shapes compound: arrays with an item and records are, and what is neither is not, where
scalars have kinds that satisfy `scalars`. -/
structure IsCompound (table : TypeTable) (scalars : ShapeKind → Bool) (compound : Shape → Bool) :
    Prop where
  congr : ∀ {s t : Shape}, s.kind = t.kind → s.typeName = t.typeName →
    s.items.isSome = t.items.isSome → compound s = compound t
  scalar : ∀ {s : Shape} {kind : ShapeKind}, scalars kind = true → s.kind = kind →
    s.typeName = none → s.items = none → compound s = false
  other : ∀ {s : Shape}, s.kind = .enum ∨ s.kind = .unknown → s.items = none → compound s = false
  array : ∀ {s : Shape}, s.kind = .array → s.items.isSome = true → compound s = true
  record : ∀ {s : Shape} {name : String} {decl : TypeDecl} {fields : List FieldDecl},
    table.get? name = some decl → decl.body = .record fields → s.kind = .object →
      s.typeName = some decl.name → compound s = true
  synonym : ∀ {s : Shape} {name : String} {decl : TypeDecl} {target : TypeExpr},
    table.get? name = some decl → decl.body = .synonym target →
      compound { s with typeName := s.typeName.or (some decl.name) } = compound s

namespace IsCompound

variable {table : TypeTable} {scalars : ShapeKind → Bool} {compound : Shape → Bool}
  (hcompound : IsCompound table scalars compound)

include hcompound

theorem cutAt_member {x : Visit} (n : Nat) (field : FieldDecl) (base : Shape) :
    (x.member field base).cutAt compound n = x.member field (base.cutAt compound n) := by
  cases hopen : x.leavesOpen field with
  | true =>
    rw [Visit.member_of_open hopen, Visit.member_of_open hopen]
    exact cutAt_of_empty rfl rfl (.inr rfl) n
  | false =>
    rw [Visit.member_of_filled hopen, Visit.member_of_filled hopen]
    exact cutAt_comm (hcompound.congr rfl rfl rfl) (fun _ _ _ => rfl) rfl rfl rfl n

theorem cutAt_shape (x : Visit) (n : Nat) (base : FieldDecl → Shape) :
    (x.shape base).cutAt compound (n + 1) = x.shape fun field =>
      (base field).cutAt compound (if field.isEmbedded then n + 1 else n) := by
  have hfold (fields : List FieldDecl) (s : Shape) :
      (fields.foldl (x.add base) s).cutAt compound (n + 1) =
        fields.foldl (x.add fun field =>
          (base field).cutAt compound (if field.isEmbedded then n + 1 else n))
          (s.cutAt compound (n + 1)) := by
    induction fields generalizing s with
    | nil => rfl
    | cons field fields ih =>
      rw [List.foldl_cons, ih, List.foldl_cons]
      congr 1
      cases hembedded : field.isEmbedded with
      | true => simp only [Visit.add, hembedded, if_true, cutAt_splice]
      | false =>
        simp only [Visit.add, hembedded, Bool.false_eq_true, if_false, cutAt, List.map_append,
          List.map_cons, List.map_nil, hcompound.cutAt_member]
  exact hfold x.fields x.bare

end IsCompound

/-- Scalars that are mentioned have kinds that satisfy `scalars`. -/
def ScalarKinds (scalars : ShapeKind → Bool) : TypeExpr.Mention → Prop
  | .scalar kind => scalars kind = true
  | .name _ _ => True

instance (scalars : ShapeKind → Bool) : DecidablePred (ScalarKinds scalars)
  | .scalar kind => inferInstanceAs (Decidable (scalars kind = true))
  | .name _ _ => .isTrue trivial

section Limits

variable {table : TypeTable} {scalars : ShapeKind → Bool} {compound : Shape → Bool}

theorem Resolves.uncut {limit : Nat} {s : Shape} {n : Nat}
    (h : Resolves table limit visiting bindings ty p s) (hs : s.cutAt compound n = s) :
    Resolves table limit visiting bindings ty p (s.cutAt compound n) := by
  rw [hs]
  exact h

/-- Under a lower limit the rules give the same shape, cut off there. -/
theorem Resolves.cutAt (hcompound : IsCompound table scalars compound)
    (htable : ∀ decl ∈ table.decls, ∀ m ∈ decl.mentions, ScalarKinds scalars m) {limit limit' : Nat}
    (hlimit : limit ≤ limit') {s : Shape} (h : Resolves table limit' visiting bindings ty p s)
    (hbindings : bindings.Within (ScalarKinds scalars))
    (hty : ∀ m ∈ ty.mentions, ScalarKinds scalars m) {n : Nat} (hn : p.depth + n = limit) :
    Resolves table limit visiting bindings ty p (s.cutAt compound n) := by
  induction h generalizing n with
  | scalar =>
    have hkind := hty _ List.mem_cons_self
    exact Resolves.scalar.uncut
      (cutAt_of_empty rfl rfl (.inl (hcompound.scalar hkind rfl rfl rfl)) n)
  | formatted =>
    have hkind := hty _ List.mem_cons_self
    exact Resolves.formatted.uncut
      (cutAt_of_empty rfl rfl (.inl (hcompound.scalar hkind rfl rfl rfl)) n)
  | literals =>
    exact Resolves.literals.uncut (cutAt_of_empty rfl rfl (.inl (hcompound.other (.inl rfl) rfl)) n)
  | map => exact Resolves.map.uncut (cutAt_of_empty rfl rfl (.inr rfl) n)
  | unknown => exact Resolves.unknown.uncut (cutAt_of_empty rfl rfl (.inr rfl) n)
  | arrayCut hdepth =>
    exact (Resolves.arrayCut (Nat.le_trans hlimit hdepth)).uncut (cutAt_of_empty rfl rfl (.inr rfl) n)
  | array hdepth hitem ih =>
    cases n with
    | zero =>
      rw [Shape.cutAt, if_pos (hcompound.array rfl rfl)]
      exact .arrayCut (Nat.le_of_eq hn.symm)
    | succ n => exact .array (by omega) (ih hbindings hty (n := n) (by simp only; omega))
  | optional _ ih =>
    rw [cutAt_comm (g := fun s => { s with required := false, validated := false })
      (hcompound.congr rfl rfl rfl) (fun _ _ _ => rfl) rfl rfl rfl]
    exact .optional (ih hbindings hty hn)
  | bound hbound _ ih =>
    have hmentions := hbindings _ _ _ (hty _ List.mem_cons_self) hbound
    exact .bound hbound (ih (Bindings.within_nil _) hmentions hn)
  | missing hfree hget =>
    exact (Resolves.missing hfree hget).uncut (cutAt_of_empty rfl rfl (.inr rfl) n)
  | enum hfree hget hbody =>
    exact (Resolves.enum hfree hget hbody).uncut
      (cutAt_of_empty rfl rfl (.inl (hcompound.other (.inl rfl) rfl)) n)
  | synonymCut hfree hget hbody hvisiting =>
    exact (Resolves.synonymCut hfree hget hbody hvisiting).uncut (cutAt_of_empty rfl rfl (.inr rfl) n)
  | @synonym visiting bindings name args p decl target s hfree hget hbody hvisiting _ ih =>
    rw [cutAt_comm (g := fun s => { s with typeName := s.typeName.or (some decl.name) })
      (hcompound.synonym hget hbody) (fun _ _ _ => rfl) rfl rfl rfl]
    have htarget : ∀ m ∈ target.mentions, ScalarKinds scalars m := fun m hm =>
      htable decl (List.mem_of_find?_eq_some hget) m (TypeDecl.mem_mentions_of_synonym hbody hm)
    exact .synonym hfree hget hbody hvisiting (ih hbindings htarget hn)
  | recordCut hfree hget hbody hcut =>
    exact (Resolves.recordCut hfree hget hbody (hcut.imp_right (Nat.le_trans hlimit))).uncut
      (cutAt_of_empty rfl rfl (.inr rfl) n)
  | @record visiting bindings name args p decl fields x base hfree hget hbody hvisiting hdepth henter _ ih =>
    subst henter
    cases n with
    | zero =>
      obtain ⟨children, confidence, hshape⟩ := Visit.exists_shape_eq _ base
      rw [hshape, Shape.cutAt, if_pos (hcompound.record hget hbody rfl rfl)]
      exact .recordCut hfree hget hbody (.inr (Nat.le_of_eq hn.symm))
    | succ n =>
      rw [hcompound.cutAt_shape]
      refine .record hfree hget hbody hvisiting (by omega) rfl fun field hfield hasks => ?_
      have hframe := Visit.within_frame hbindings (List.forall_mem_cons.mp hty).2 decl fields visiting p
      have hmentions : ∀ m ∈ field.ty.mentions, ScalarKinds scalars m := fun m hm =>
        htable decl (List.mem_of_find?_eq_some hget) m
          (TypeDecl.mem_mentions_of_record hbody hfield hm)
      refine ih field hfield hasks hframe hmentions ?_
      cases hembedded : field.isEmbedded with
      | true =>
        rw [Visit.depth_placeOf_embedded hembedded]
        exact hn
      | false =>
        rw [Visit.depth_placeOf_own hembedded, Nat.add_right_comm]
        exact hn

end Limits

def isScalar (kind : ShapeKind) : Bool := kind != .array && kind != .object

def isCompound (s : Shape) : Bool := s.kind == .array || s.kind == .object

theorem isCompound_spec (table : TypeTable) : IsCompound table isScalar isCompound where
  congr hkind _ _ := by simp only [isCompound, hkind]
  scalar hscalar hkind _ _ := by
    subst hkind
    simpa [isScalar, isCompound] using hscalar
  other hkind _ := by rcases hkind with hkind | hkind <;> simp [isCompound, hkind]
  array hkind _ := by simp [isCompound, hkind]
  record _ _ hkind _ := by simp [isCompound, hkind]
  synonym _ _ := rfl

end Shape

def TypeDecl.isRecord (decl : TypeDecl) : Bool :=
  match decl.body with
  | .record _ => true
  | _ => false

theorem TypeTable.get?_name {table : TypeTable} {name : String} {decl : TypeDecl}
    (h : table.get? name = some decl) : table.get? decl.name = some decl := by
  have hname : decl.name = bareName name := by simpa using List.find?_some h
  have hbare : bareName (bareName name) = bareName name := by
    rw [bareName, bareName, String.toList_ofList, List.reverse_reverse, List.takeWhile_takeWhile]
    simp only [and_self, Bool.decide_eq_true]
  rw [get?, hname, hbare]
  exact h

namespace Shape

/-- An array with its item, or an object that comes from a record of the table. -/
def isMade (table : TypeTable) (s : Shape) : Bool :=
  s.items.isSome || s.kind == .object && (s.typeName.bind table.get?).any (·.isRecord)

theorem isMade_spec (table : TypeTable) : IsCompound table (fun _ => true) (isMade table) where
  congr hkind htype hitems := by simp only [isMade, hkind, htype, hitems]
  scalar _ _ htype hitems := by simp [isMade, htype, hitems]
  other hkind hitems := by rcases hkind with hkind | hkind <;> simp [isMade, hkind, hitems]
  array _ hitems := by simp [isMade, hitems]
  record hget hbody hkind htype := by
    simp [isMade, hkind, htype, TypeTable.get?_name hget, TypeDecl.isRecord, hbody]
  synonym {s name decl target} hget hbody := by
    cases htype : s.typeName with
    | none => simp [isMade, htype, TypeTable.get?_name hget, TypeDecl.isRecord, hbody]
    | some name => simp [isMade, htype]

/-- Resolution comes to an end under every limit. A lower limit bounds the height of a shape and cuts
it off at that depth: arrays and records there are empty and inferred, and all else is the same. -/
theorem limit_truncates (table : TypeTable) (ty : TypeExpr) (origin : Origin) (d d' : Nat)
    (hd : 1 ≤ d) (hdd : d ≤ d') :
    (∀ s, Resolves table d [] [] ty (.root origin) s ↔ s = resolve table d (.typed ty origin)) ∧
    (resolve table d (.typed ty origin)).height ≤ d ∧
    resolve table d (.typed ty origin) =
      (resolve table d' (.typed ty origin)).cutAt (isMade table) d ∧
    ((∀ m ∈ ty.mentions, ScalarKinds isScalar m) →
      (∀ decl ∈ table.decls, ∀ m ∈ decl.mentions, ScalarKinds isScalar m) →
        resolve table d (.typed ty origin) =
          (resolve table d' (.typed ty origin)).cutAt isCompound d) := by
  have hrules (n : Nat) (hn : 1 ≤ n) (s : Shape) : Resolves table n [] [] ty (.root origin) s ↔
      s = resolve table n (.typed ty origin) := by
    rw [resolves_iff, resolve_eq_resolveIn, Nat.max_eq_left hn]
  have hcut {scalars : ShapeKind → Bool} {compound : Shape → Bool}
      (hcompound : IsCompound table scalars compound)
      (hty : ∀ m ∈ ty.mentions, ScalarKinds scalars m)
      (htable : ∀ decl ∈ table.decls, ∀ m ∈ decl.mentions, ScalarKinds scalars m) :
      resolve table d (.typed ty origin) = (resolve table d' (.typed ty origin)).cutAt compound d := by
    have hhigh := (hrules d' (Nat.le_trans hd hdd) _).mpr rfl
    exact ((hrules d hd _).mp (hhigh.cutAt hcompound htable hdd (Bindings.within_nil _) hty
      (Nat.zero_add d))).symm
  have hany (m : TypeExpr.Mention) : ScalarKinds (fun _ => true) m := by cases m <;> trivial
  refine ⟨hrules d hd, ?_, hcut (isMade_spec table) (fun m _ => hany m) fun _ _ m _ => hany m,
    hcut (isCompound_spec table)⟩
  exact ((hrules d hd _).mpr rfl).height_le (Nat.le_of_eq (Nat.zero_add d).symm)

def treeTable : TypeTable := .ofList [
  { name := "Entry", generics := [], location := ⟨"tree.ts", 1, 1⟩,
    body := .record [.plain "name" (.scalar .string) ⟨"tree.ts", 2, 3⟩] },
  { name := "Directory", generics := [], location := ⟨"tree.ts", 4, 1⟩,
    body := .record [
      .embedded (.named "Entry" []) ⟨"tree.ts", 4, 1⟩,
      .plain "parent" (.optional (.named "Folder" [])) ⟨"tree.ts", 5, 3⟩,
      .plain "entries" (.array (.named "Entry" [])) ⟨"tree.ts", 6, 3⟩] },
  { name := "Folder", generics := [], location := ⟨"tree.ts", 8, 1⟩,
    body := .synonym (.named "Directory" []) }]

/-- A directory, of which only the names are seen at the lowest limit. -/
theorem tree_truncated :
    (∀ s, Resolves treeTable 1 [] [] (.named "Folder" []) (.root default) s ↔
      s = resolve treeTable 1 (.typed (.named "Folder" []) default)) ∧
    (resolve treeTable 1 (.typed (.named "Folder" []) default)).height ≤ 1 ∧
    resolve treeTable 1 (.typed (.named "Folder" []) default) =
      (resolve treeTable 3 (.typed (.named "Folder" []) default)).cutAt (isMade treeTable) 1 ∧
    resolve treeTable 1 (.typed (.named "Folder" []) default) =
      (resolve treeTable 3 (.typed (.named "Folder" []) default)).cutAt isCompound 1 := by
  obtain ⟨hrules, hheight, hmade, hkinds⟩ :=
    limit_truncates treeTable (.named "Folder" []) default 1 3 (by decide) (by decide)
  exact ⟨hrules, hheight, hmade, hkinds (by decide) (by decide +kernel)⟩

end Shape

end Concord
