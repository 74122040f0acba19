import Mathlib.Data.List.Induction
import Concord.Proofs.Resolution
import Concord.Proofs.ShapeTrees

/-! A record takes in the members of the types embedded in it. The field that comes first wins a
name: an own field stands before what a later embedded type has under its name, but comes second to,
and repeats, what an earlier one has. -/
namespace Concord

/-- The names of the fields of a record that are not embedded types. -/
def TypeDecl.ownNames (decl : TypeDecl) : List String :=
  match decl.body with
  | .record fields => (fields.filter (!·.isEmbedded)).map (·.wire)
  | _ => []

/-- The own fields of each record have different names. -/
def TypeTable.OwnApart (table : TypeTable) : Prop := ∀ decl ∈ table.decls, decl.ownNames.Nodup

instance (table : TypeTable) : Decidable table.OwnApart :=
  inferInstanceAs (Decidable (∀ decl ∈ table.decls, decl.ownNames.Nodup))

namespace Shape

namespace Visit

variable (x : Visit) (base : FieldDecl → Shape)

/-- The member of some name that a field brings in. -/
def offers (name : String) (field : FieldDecl) : Option Shape :=
  if field.isEmbedded then (base field).child? name
  else if field.wire = name then some (x.member field (base field)) else none

/-- No own field has the name of a member of a type embedded before it. -/
def Clear : Prop :=
  x.fields.Pairwise fun e f => e.isEmbedded = true → f.isEmbedded = false → f.wire ∉ (base e).names

variable {x base} {s : Shape} {field : FieldDecl} {name : String}

theorem child?_add :
    (x.add base s field).child? name = (s.child? name).or (x.offers base name field) := by
  cases hembedded : field.isEmbedded with
  | true =>
    simp only [add, hembedded, if_true, splice, child?, List.find?_append, offers]
    by_cases hname : name ∈ s.children.map (·.name)
    · obtain ⟨c, hc⟩ := Option.isSome_iff_exists.mp (child?_isSome_iff.mpr hname)
      rw [child?] at hc
      rw [hc]
      rfl
    · rw [Keyed.find?_firstsFrom hname]
  | false =>
    have hmember : (x.member field (base field)).name = field.wire := rfl
    simp only [add, hembedded, Bool.false_eq_true, if_false, child?, List.find?_append, offers]
    by_cases hwire : field.wire = name <;> simp [hmember, hwire]

theorem child?_foldl_add (fields : List FieldDecl) (s : Shape) :
    (fields.foldl (x.add base) s).child? name =
      (s.child? name).or (fields.findSome? (x.offers base name)) := by
  induction fields generalizing s with
  | nil => simp
  | cons field fields ih =>
    rw [List.foldl_cons, ih, child?_add, List.findSome?_cons]
    cases s.child? name <;> cases x.offers base name field <;> rfl

/-- The first field that brings a name in wins it. -/
theorem child?_shape : (x.shape base).child? name = x.fields.findSome? (x.offers base name) :=
  child?_foldl_add x.fields x.bare

theorem nodup_names_add : (x.add base s field).names.Nodup ↔
    s.names.Nodup ∧ (field.isEmbedded = false → field.wire ∉ s.names) := by
  cases hembedded : field.isEmbedded with
  | true =>
    have hnames : (x.add base s field).names =
        s.names ++ (Keyed.firstsFrom (·.name) s.names (base field).children).map (·.name) := by
      simp [add, hembedded, splice, names]
    rw [hnames, List.nodup_append]
    refine ⟨fun h => ⟨h.1, by simp⟩, fun h => ⟨h.1, Keyed.nodup_map_firstsFrom _ _ _, ?_⟩⟩
    rintro n hn _ hfresh rfl
    exact (Keyed.mem_map_firstsFrom.mp hfresh).2 hn
  | false =>
    have hnames : (x.add base s field).names = s.names ++ [field.wire] := by
      simp [add, hembedded, names, member, withField]
    rw [hnames, List.nodup_append]
    refine ⟨fun h => ⟨h.1, fun _ hmem => h.2.2 _ hmem _ List.mem_cons_self rfl⟩,
      fun h => ⟨h.1, by simp, ?_⟩⟩
    rintro n hn _ hwire rfl
    exact h.2 rfl (List.mem_singleton.mp hwire ▸ hn)

theorem nodup_names_shape : (x.shape base).names.Nodup ↔
    x.fields.Pairwise fun g f => f.isEmbedded = false → x.offers base f.wire g = none := by
  have hfold (fields : List FieldDecl) : (fields.foldl (x.add base) x.bare).names.Nodup ↔
      fields.Pairwise fun g f => f.isEmbedded = false → x.offers base f.wire g = none := by
    induction fields using List.reverseRecOn with
    | nil => simp [bare, plain, names]
    | append_singleton fields f ih =>
      have hbare : x.bare.child? f.wire = none := rfl
      rw [List.foldl_append, List.foldl_cons, List.foldl_nil, nodup_names_add, ih, List.pairwise_append,
        ← child?_eq_none_iff, child?_foldl_add, hbare, Option.none_or, List.findSome?_eq_none_iff]
      simp only [List.pairwise_singleton, true_and, List.mem_singleton, forall_eq]
      exact and_congr_right fun _ => ⟨fun h g hg hown => h hown g hg, fun h hown g hg => h g hg hown⟩
  exact hfold x.fields

/-- Among fields of which no own one has some name, only embedded types bring it in. -/
theorem findSome?_offers {fields : List FieldDecl}
    (h : ∀ g ∈ fields, g.isEmbedded = false → g.wire ≠ name) :
    fields.findSome? (x.offers base name) =
      (fields.filter (·.isEmbedded)).findSome? fun e => (base e).child? name := by
  induction fields with
  | nil => rfl
  | cons g fields ih =>
    obtain ⟨hg, hfields⟩ := List.forall_mem_cons.mp h
    cases hembedded : g.isEmbedded with
    | true => simp [offers, hembedded, List.findSome?_cons, ih hfields]
    | false => simp [offers, hembedded, hg hembedded, ih hfields]

section OwnApart

variable (hown : ((x.fields.filter (!·.isEmbedded)).map (·.wire)).Nodup)

include hown

theorem pairwise_own : x.fields.Pairwise fun g f =>
    g.isEmbedded = false → f.isEmbedded = false → g.wire ≠ f.wire := by
  simpa [List.Nodup, List.pairwise_map, List.pairwise_filter] using hown

/-- Names differ exactly if no own field repeats one that is inherited before it. -/
theorem nodup_names_iff_clear : (x.shape base).names.Nodup ↔ x.Clear base := by
  have hpair := pairwise_own hown
  rw [nodup_names_shape, Clear]
  constructor
  · intro h
    refine h.imp fun {e f} hoffers hembedded hf => ?_
    have hnone := hoffers hf
    rw [offers, if_pos hembedded] at hnone
    exact child?_eq_none_iff.mp hnone
  · intro h
    refine (h.and hpair).imp fun {e f} hclear hf => ?_
    cases hembedded : e.isEmbedded with
    | true =>
      rw [offers, if_pos hembedded]
      exact child?_eq_none_iff.mpr (hclear.1 hembedded hf)
    | false =>
      rw [offers, hembedded, if_neg Bool.false_ne_true, if_neg (hclear.2 hembedded hf)]

/-- Under the name of an own field stands the first member that is inherited before it, and the field
itself if there is none. -/
theorem child?_wire {before after : List FieldDecl} {f : FieldDecl}
    (hfields : x.fields = before ++ f :: after) (hf : f.isEmbedded = false) :
    (x.shape base).child? f.wire =
      ((before.filter (·.isEmbedded)).findSome? fun e => (base e).child? f.wire).or
        (some (x.member f (base f))) := by
  have hpair := pairwise_own hown
  rw [hfields, List.pairwise_append] at hpair
  have hbefore : before.findSome? (x.offers base f.wire) =
      (before.filter (·.isEmbedded)).findSome? fun e => (base e).child? f.wire :=
    findSome?_offers fun g hg hgown => hpair.2.2 g hg f List.mem_cons_self hgown hf
  have hself : x.offers base f.wire f = some (x.member f (base f)) := by simp [offers, hf]
  rw [child?_shape, hfields, List.findSome?_append, List.findSome?_cons, hself, hbefore]

end OwnApart

variable (x) (table : TypeTable) (limit : Nat)

def shapeOf (field : FieldDecl) : Shape :=
  resolveIn table limit x.visiting x.frame field.ty (x.placeOf field)

def resolved : Shape := x.shape (x.shapeOf table limit)

end Visit

/-- The records that are entered on the way to the shape of a type. -/
inductive Enters (table : TypeTable) (limit : Nat) :
    (visiting : List String) → Bindings → TypeExpr → Place → Visit → Prop
  | array {visiting bindings item p x} (hdepth : p.depth < limit)
    (hitem : Enters table limit visiting bindings item { p with name := "[]", depth := p.depth + 1 } x) :
    Enters table limit visiting bindings (.array item) p x
  | optional {visiting bindings inner p x} (hinner : Enters table limit visiting bindings inner p x) :
    Enters table limit visiting bindings (.optional inner) p x
  | bound {visiting bindings name args p ty x} (hbound : bindings.lookup name = some ty)
    (hty : Enters table limit visiting [] ty { p with instantiated := true } x) :
    Enters table limit visiting bindings (.named name args) p x
  | synonym {visiting bindings name args p decl target x} (hfree : bindings.lookup name = none)
    (hget : table.get? name = some decl) (hbody : decl.body = .synonym target)
    (hvisiting : decl.name ∉ visiting)
    (htarget : Enters table limit (decl.name :: visiting) bindings target p x) :
    Enters table limit visiting bindings (.named name args) p x
  | here {visiting bindings name args p decl fields x} (hfree : bindings.lookup name = none)
    (hget : table.get? name = some decl) (hbody : decl.body = .record fields)
    (hvisiting : decl.name ∉ visiting) (hdepth : p.depth < limit)
    (henter : x = Visit.enter decl fields visiting bindings args p) :
    Enters table limit visiting bindings (.named name args) p x
  | inside {visiting bindings name args p x y field}
    (hx : Enters table limit visiting bindings (.named name args) p x) (hfield : field ∈ x.fields)
    (hasks : x.asks field)
    (hy : Enters table limit x.visiting x.frame field.ty (x.placeOf field) y) :
    Enters table limit visiting bindings (.named name args) p y

section Enters

variable {table : TypeTable} {limit : Nat} {visiting : List String} {bindings : Bindings}
  {ty : TypeExpr} {p : Place} {x : Visit}

theorem Enters.nodup_own (htable : table.OwnApart) (h : Enters table limit visiting bindings ty p x) :
    ((x.fields.filter (!·.isEmbedded)).map (·.wire)).Nodup := by
  induction h with
  | array _ _ ih => exact ih
  | optional _ ih => exact ih
  | bound _ _ ih => exact ih
  | synonym _ _ _ _ _ ih => exact ih
  | @here visiting bindings name args p decl fields x _ hget hbody _ _ henter =>
    have hown := htable decl (List.mem_of_find?_eq_some hget)
    rw [TypeDecl.ownNames, hbody] at hown
    exact henter ▸ hown
  | inside _ _ _ _ _ ih => exact ih

theorem NamesApart.of_eq {s t : Shape} (h : t.NamesApart) (hchildren : s.children = t.children)
    (hitems : s.items = t.items) : s.NamesApart := by
  rw [namesApart_iff, names, hchildren, hitems]
  exact namesApart_iff.mp h

theorem NamesApart.of_empty {s : Shape} (hchildren : s.children = []) (hitems : s.items = none) :
    s.NamesApart := by
  rw [namesApart_iff, names, hchildren, hitems]
  exact ⟨List.nodup_nil, by simp, by simp⟩

theorem Resolves.resolved {name : String} {args : List TypeExpr} {decl : TypeDecl}
    {fields : List FieldDecl} (hfree : bindings.lookup name = none) (hget : table.get? name = some decl)
    (hbody : decl.body = .record fields) (hvisiting : decl.name ∉ visiting) (hdepth : p.depth < limit) :
    Resolves table limit visiting bindings (.named name args) p
      ((Visit.enter decl fields visiting bindings args p).resolved table limit) :=
  .record hfree hget hbody hvisiting hdepth rfl fun _ _ _ => resolves_iff.mpr rfl

theorem Resolves.namesApart (htable : table.OwnApart) {s : Shape}
    (h : Resolves table limit visiting bindings ty p s)
    (hclear : ∀ x, Enters table limit visiting bindings ty p x → x.Clear (x.shapeOf table limit)) :
    s.NamesApart := by
  induction h with
  | scalar => exact .of_empty rfl rfl
  | formatted => exact .of_empty rfl rfl
  | literals => exact .of_empty rfl rfl
  | map => exact .of_empty rfl rfl
  | unknown => exact .of_empty rfl rfl
  | arrayCut => exact .of_empty rfl rfl
  | array hdepth _ ih =>
    have hitem := ih fun x hx => hclear x (.array hdepth hx)
    refine namesApart_iff.mpr ⟨List.nodup_nil, by simp [plain], fun i hi => ?_⟩
    exact Option.mem_some.mp hi ▸ hitem
  | optional _ ih => exact (ih fun x hx => hclear x (.optional hx)).of_eq rfl rfl
  | bound hbound _ ih => exact ih fun x hx => hclear x (.bound hbound hx)
  | missing => exact .of_empty rfl rfl
  | enum => exact .of_empty rfl rfl
  | synonymCut => exact .of_empty rfl rfl
  | synonym hfree hget hbody hvisiting _ ih =>
    exact (ih fun x hx => hclear x (.synonym hfree hget hbody hvisiting hx)).of_eq rfl rfl
  | recordCut => exact .of_empty rfl rfl
  | @record visiting bindings name args p decl fields x base hfree hget hbody hvisiting hdepth henter hfields ih =>
    have hx : Enters table limit visiting bindings (.named name args) p x :=
      .here hfree hget hbody hvisiting hdepth henter
    have hbase : x.shape base = x.shape (x.shapeOf table limit) :=
      Visit.shape_congr fun field hfield hasks => resolves_iff.mp (hfields field hfield hasks)
    have hnames : (x.shape base).names.Nodup := by
      rw [hbase, Visit.nodup_names_iff_clear (hx.nodup_own htable)]
      exact hclear x hx
    have hinside (field : FieldDecl) (hfield : field ∈ x.fields) (hasks : x.asks field) :
        (base field).NamesApart :=
      ih field hfield hasks fun y hy => hclear y (.inside hx hfield hasks hy)
    refine namesApart_iff.mpr ⟨hnames, fun c hc => ?_, by simp [Visit.items_shape]⟩
    obtain ⟨field, hfield, ⟨hown, rfl⟩ | ⟨hembedded, hc⟩⟩ := Visit.mem_children_shape hc
    · cases hopen : x.leavesOpen field with
      | true =>
        rw [Visit.member_of_open hopen]
        exact .of_empty rfl rfl
      | false =>
        rw [Visit.member_of_filled hopen]
        exact (hinside field hfield (.inr hopen)).of_eq rfl rfl
    · exact (namesApart_iff.mp (hinside field hfield (.inl hembedded))).2.1 c hc

theorem Enters.namesApart (htable : table.OwnApart) (h : Enters table limit visiting bindings ty p x)
    (hclear : ∀ y, Enters table limit visiting bindings ty p y → y.Clear (y.shapeOf table limit)) :
    (x.resolved table limit).NamesApart := by
  induction h with
  | array hdepth _ ih => exact ih fun y hy => hclear y (.array hdepth hy)
  | optional _ ih => exact ih fun y hy => hclear y (.optional hy)
  | bound hbound _ ih => exact ih fun y hy => hclear y (.bound hbound hy)
  | synonym hfree hget hbody hvisiting _ ih =>
    exact ih fun y hy => hclear y (.synonym hfree hget hbody hvisiting hy)
  | here hfree hget hbody hvisiting hdepth henter =>
    subst henter
    exact (Resolves.resolved hfree hget hbody hvisiting hdepth).namesApart htable hclear
  | inside hx hfield hasks _ _ ih => exact ih fun z hz => hclear z (.inside hx hfield hasks hz)

end Enters

/-- In every record on the way to the shape of a type, the field that comes first wins a name. Under
the name of an own field stands the first member inherited before it, and the field itself only if there
is none; the names of members differ exactly if there is none for any own field. Where that holds of all
records on the way, and a record that is resolved is one of them, names differ at every depth. -/
theorem first_field_wins (table : TypeTable) (htable : table.OwnApart) (maxDepth : Nat) (ty : TypeExpr)
    (origin : Origin) :
    (∀ x, Enters table (max maxDepth 1) [] [] ty (.root origin) x →
      ((x.resolved table (max maxDepth 1)).names.Nodup ↔ x.Clear (x.shapeOf table (max maxDepth 1))) ∧
      ∀ before field after, x.fields = before ++ field :: after → field.isEmbedded = false →
        (x.resolved table (max maxDepth 1)).child? field.wire =
          ((before.filter (·.isEmbedded)).findSome? fun e =>
            (x.shapeOf table (max maxDepth 1) e).child? field.wire).or
              (some (x.member field (x.shapeOf table (max maxDepth 1) field)))) ∧
    ((∀ x, Enters table (max maxDepth 1) [] [] ty (.root origin) x →
        (x.resolved table (max maxDepth 1)).NamesApart) ↔
      ∀ x, Enters table (max maxDepth 1) [] [] ty (.root origin) x →
        x.Clear (x.shapeOf table (max maxDepth 1))) ∧
    ((∀ x, Enters table (max maxDepth 1) [] [] ty (.root origin) x →
        x.Clear (x.shapeOf table (max maxDepth 1))) →
      (resolve table maxDepth (.typed ty origin)).NamesApart) ∧
    ∀ name args decl fields, ty = .named name args → table.get? name = some decl →
      decl.body = .record fields →
        Enters table (max maxDepth 1) [] [] ty (.root origin)
          (Visit.enter decl fields [] [] args (.root origin)) ∧
        resolve table maxDepth (.typed ty origin) =
          (Visit.enter decl fields [] [] args (.root origin)).resolved table (max maxDepth 1) := by
  refine ⟨fun x hx => ?_, ⟨fun h x hx => ?_, fun h x hx => ?_⟩, fun h => ?_, ?_⟩
  · have hown := hx.nodup_own htable
    exact ⟨Visit.nodup_names_iff_clear hown, fun before field after => Visit.child?_wire hown⟩
  · exact (Visit.nodup_names_iff_clear (hx.nodup_own htable)).mp (namesApart_iff.mp (h x hx)).1
  · exact hx.namesApart htable h
  · exact (resolves_resolve table maxDepth ty origin).namesApart htable h
  · rintro name args decl fields rfl hget hbody
    have hdepth : (Place.root origin).depth < max maxDepth 1 := Nat.le_max_right _ _
    refine ⟨.here rfl hget hbody List.not_mem_nil hdepth rfl, ?_⟩
    rw [resolve_eq_resolveIn]
    exact (resolves_iff.mp (.resolved rfl hget hbody List.not_mem_nil hdepth)).symm

def reorder : TypeDecl where
  name := "Order"
  generics := []
  location := ⟨"order.ts", 4, 1⟩
  body := .record [
    .embedded (.named "Base" []) ⟨"order.ts", 4, 1⟩,
    .plain "id" (.scalar .numeric) ⟨"order.ts", 5, 3⟩]

def reorderTable : TypeTable := .ofList [
  { name := "Base", generics := [], location := ⟨"order.ts", 1, 1⟩,
    body := .record [.plain "id" (.scalar .string) ⟨"order.ts", 2, 3⟩] },
  reorder]

/-- The late `id` of the order comes second to the inherited one, and repeats its name. -/
theorem late_id_comes_second : reorderTable.OwnApart ∧
    ((resolve reorderTable 8 (.typed (.named "Order" []) default)).child? "id").map (·.kind) =
      some .string ∧
    ¬ (resolve reorderTable 8 (.typed (.named "Order" []) default)).names.Nodup := by
  obtain ⟨hrecords, -, -, hroot⟩ :=
    first_field_wins reorderTable (by decide +kernel) 8 (.named "Order" []) default
  obtain ⟨henters, heq⟩ := hroot "Order" [] reorder _ rfl rfl rfl
  obtain ⟨hnodup, hchild⟩ := hrecords _ henters
  refine ⟨by decide +kernel, ?_, ?_⟩
  · have hid := hchild [.embedded (.named "Base" []) ⟨"order.ts", 4, 1⟩]
      (.plain "id" (.scalar .numeric) ⟨"order.ts", 5, 3⟩) [] rfl rfl
    rw [heq]
    refine (congrArg (Option.map (·.kind)) hid).trans ?_
    decide +kernel
  · rw [heq, hnodup]
    intro hclear
    have hpair := List.pairwise_cons.mp hclear
    exact hpair.1 _ List.mem_cons_self rfl rfl (by decide +kernel)

end Shape

end Concord
