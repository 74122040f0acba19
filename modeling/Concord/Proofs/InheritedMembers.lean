import Concord.Proofs.Elections
import Concord.Proofs.Shadowing
import Concord.Proofs.Truncation

/-! A record inherits the members of the types embedded in it, of the types embedded in these, and
so on. Wherever a cycle or the depth limit cuts that chain, or a name in it leads nowhere, the
record is marked as inferred. -/
namespace Concord.Shape

open Convention (PartOf)

namespace Visit

variable {x : Visit} {base : FieldDecl → Shape}

theorem mem_names_shape_iff {name : String} : name ∈ (x.shape base).names ↔ ∃ f ∈ x.fields,
    (f.isEmbedded = false ∧ f.wire = name) ∨ (f.isEmbedded = true ∧ name ∈ (base f).names) := by
  rw [← child?_isSome_iff, child?_shape, List.findSome?_isSome_iff]
  refine exists_congr fun f => and_congr_right fun _ => ?_
  unfold offers
  cases hembedded : f.isEmbedded with
  | true => simp [child?_isSome_iff]
  | false => by_cases hwire : f.wire = name <;> simp [hwire]

/-- A record is declared exactly if the types embedded in it are declared objects. -/
theorem declared_shape_iff : (x.shape base).confidence = .declared ↔ ∀ f ∈ x.fields,
    f.isEmbedded = true → (base f).kind = .object ∧ (base f).confidence = .declared := by
  have hfold (fields : List FieldDecl) (s : Shape) :
      (fields.foldl (x.add base) s).confidence = .declared ↔ s.confidence = .declared ∧
        ∀ f ∈ fields, f.isEmbedded = true →
          (base f).kind = .object ∧ (base f).confidence = .declared := by
    induction fields generalizing s with
    | nil => simp
    | cons f fields ih =>
      have hadd : (x.add base s f).confidence = .declared ↔ s.confidence = .declared ∧
          (f.isEmbedded = true → (base f).kind = .object ∧ (base f).confidence = .declared) := by
        cases hembedded : f.isEmbedded with
        | false => simp [add, hembedded]
        | true =>
          simp only [add, hembedded, if_true, splice]
          cases (base f).kind <;> cases (base f).confidence <;> simp
      rw [List.foldl_cons, ih, hadd, List.forall_mem_cons, and_assoc]
  exact (hfold x.fields x.bare).trans (and_iff_right rfl)

/-- A record fills in nothing but its own parameters. -/
theorem lookup_frame_enter {decl : TypeDecl} {fields : List FieldDecl} {visiting : List String}
    {bindings : Bindings} {args : List TypeExpr} {p : Place} {name : String}
    (hname : name ∉ decl.generics) :
    (enter decl fields visiting bindings args p).frame.lookup name = none := by
  rw [List.lookup_eq_none_iff]
  intro b hb
  simp only [enter] at hb
  split at hb
  · cases hb
  · have hkey := (List.of_mem_zip (List.mem_reverse.mp hb)).1
    exact bne_iff_ne.mpr fun heq => hname (heq ▸ hkey)

end Visit

/-- The record that a type names: through what parameters stand for and through synonyms, whether or not
the record can be entered. -/
inductive Names (table : TypeTable) :
    (visiting : List String) → Bindings → TypeExpr → Place → Visit → Prop
  | optional {visiting bindings inner p y} (hinner : Names table visiting bindings inner p y) :
    Names table visiting bindings (.optional inner) p y
  | bound {visiting bindings name args p ty y} (hbound : bindings.lookup name = some ty)
    (hty : Names table visiting [] ty { p with instantiated := true } y) :
    Names table visiting bindings (.named name args) p y
  | synonym {visiting bindings name args p decl target y} (hfree : bindings.lookup name = none)
    (hget : table.get? name = some decl) (hbody : decl.body = .synonym target)
    (htarget : Names table (decl.name :: visiting) bindings target p y) :
    Names table visiting bindings (.named name args) p y
  | record {visiting bindings name args p decl fields} (hfree : bindings.lookup name = none)
    (hget : table.get? name = some decl) (hbody : decl.body = .record fields) :
    Names table visiting bindings (.named name args) p
      (Visit.enter decl fields visiting bindings args p)

/-- The names of the members that a record has by its declaration, and by those of the records embedded
in it, however far. -/
inductive Visit.Inherits (table : TypeTable) : Visit → String → Prop
  | own {x : Visit} {f : FieldDecl} (hf : f ∈ x.fields) (hown : f.isEmbedded = false) :
    Inherits table x f.wire
  | base {x y : Visit} {e : FieldDecl} {name : String} (he : e ∈ x.fields)
    (hembedded : e.isEmbedded = true) (hy : Names table x.visiting x.frame e.ty (x.placeOf e) y)
    (hname : Inherits table y name) : Inherits table x name

section Chain

variable {table : TypeTable} {limit : Nat} {visiting : List String} {bindings : Bindings}
  {ty : TypeExpr} {p : Place} {s : Shape} {x y : Visit} {name : String}

theorem resolves_resolveIn (table : TypeTable) (limit : Nat) (visiting : List String)
    (bindings : Bindings) (ty : TypeExpr) (p : Place) :
    Resolves table limit visiting bindings ty p (resolveIn table limit visiting bindings ty p) :=
  resolves_iff.mpr rfl

theorem Resolves.unique {t : Shape} (hs : Resolves table limit visiting bindings ty p s)
    (ht : Resolves table limit visiting bindings ty p t) : s = t :=
  (resolves_iff.mp hs).trans (resolves_iff.mp ht).symm

/-- A declared object under the name of a record is that record, with all that it has. -/
theorem Names.resolved_of_declared (hy : Names table visiting bindings ty p y)
    (h : Resolves table limit visiting bindings ty p s) (hkind : s.kind = .object)
    (hdeclared : s.confidence = .declared) :
    (y.resolved table limit).children = s.children ∧
      (y.resolved table limit).confidence = .declared := by
  induction hy generalizing s with
  | @optional visiting bindings inner p y _ ih =>
    have hinner := resolves_resolveIn table limit visiting bindings inner p
    obtain rfl := h.unique (.optional hinner)
    have hbase := ih hinner hkind hdeclared
    exact hbase
  | bound hbound _ ih =>
    obtain rfl := h.unique (.bound hbound (resolves_iff.mpr rfl))
    exact ih (resolves_iff.mpr rfl) hkind hdeclared
  | @synonym visiting bindings name args p decl target y hfree hget hbody _ ih =>
    by_cases hvisiting : decl.name ∈ visiting
    · obtain rfl := h.unique (.synonymCut hfree hget hbody hvisiting)
      cases hkind
    · have htarget := resolves_resolveIn table limit (decl.name :: visiting) bindings target p
      obtain rfl := h.unique (.synonym hfree hget hbody hvisiting htarget)
      have hbase := ih htarget hkind hdeclared
      exact hbase
  | @record visiting bindings name args p decl fields hfree hget hbody =>
    by_cases hcut : decl.name ∈ visiting ∨ limit ≤ p.depth
    · obtain rfl := h.unique (.recordCut hfree hget hbody hcut)
      cases hdeclared
    · obtain ⟨hvisiting, hdepth⟩ := not_or.mp hcut
      obtain rfl := h.unique (.resolved hfree hget hbody hvisiting (Nat.lt_of_not_le hdepth))
      exact ⟨rfl, hdeclared⟩

theorem Visit.Inherits.mem_names (h : x.Inherits table name)
    (hdeclared : (x.resolved table limit).confidence = .declared) :
    name ∈ (x.resolved table limit).names := by
  induction h with
  | own hf hown => exact mem_names_shape_iff.mpr ⟨_, hf, .inl ⟨hown, rfl⟩⟩
  | @base x y e name he hembedded hy _ ih =>
    obtain ⟨hkind, hbase⟩ := declared_shape_iff.mp hdeclared e he hembedded
    obtain ⟨hchildren, hdeclared'⟩ := hy.resolved_of_declared (resolves_iff.mpr rfl) hkind hbase
    have hname := ih hdeclared'
    rw [names, hchildren] at hname
    exact mem_names_shape_iff.mpr ⟨e, he, .inr ⟨hembedded, hname⟩⟩

/-- A declared object that has the name of a record. -/
structure IsDeclared (table : TypeTable) (decl : TypeDecl) (fields : List FieldDecl) (node : Shape) :
    Prop where
  kind : node.kind = .object
  confidence : node.confidence = .declared
  typeName : ∃ name, node.typeName = some name ∧ table.get? name = some decl
  body : decl.body = .record fields

/-- A shape has the members of a record that was entered and counts as declared. -/
structure Visit.Shown (table : TypeTable) (limit : Nat) (x : Visit) (node : Shape) : Prop where
  children : node.children = (x.resolved table limit).children
  confidence : (x.resolved table limit).confidence = .declared

section Declared

variable {decl : TypeDecl} {fields : List FieldDecl} {node t : Shape}

theorem IsDeclared.congr (h : IsDeclared table decl fields t) (hkind : s.kind = t.kind)
    (hconfidence : s.confidence = t.confidence) (htypeName : s.typeName = t.typeName) :
    IsDeclared table decl fields s :=
  ⟨hkind.trans h.kind, hconfidence.trans h.confidence, htypeName ▸ h.typeName, h.body⟩

theorem IsDeclared.of_leaf (h : IsDeclared table decl fields node) (hnode : PartOf node s)
    (hchildren : s.children = []) (hitems : s.items = none) : IsDeclared table decl fields s :=
  hnode.eq_of_empty hchildren hitems ▸ h

theorem IsDeclared.typeName_ne_none (h : IsDeclared table decl fields s) : s.typeName ≠ none := by
  obtain ⟨name, hname, -⟩ := h.typeName
  simp [hname]

/-- A part of a shape with the members and items of another one is a part of that, or looks like it. -/
theorem IsDeclared.exists_part (s : Shape) (h : IsDeclared table decl fields node)
    (hnode : PartOf node t) (hchildren : t.children = s.children)
    (hitems : t.items = s.items)
    (hself : IsDeclared table decl fields t → IsDeclared table decl fields s) :
    ∃ part, PartOf part s ∧ IsDeclared table decl fields part ∧ node.children = part.children := by
  rcases hnode.of_eq hchildren hitems with rfl | hpart
  · exact ⟨s, .self, hself h, hchildren⟩
  · exact ⟨node, hpart, h, rfl⟩

theorem Visit.Shown.of_children (h : x.Shown table limit t) (hchildren : s.children = t.children) :
    x.Shown table limit s :=
  ⟨hchildren.trans h.children, h.confidence⟩

/-- A synonym gives its name only to what has none. -/
theorem IsDeclared.of_synonym {synonym : TypeDecl} {target : TypeExpr}
    (hget : table.get? name = some synonym) (hbody : synonym.body = .synonym target)
    (h : IsDeclared table decl fields { s with typeName := s.typeName.or (some synonym.name) }) :
    IsDeclared table decl fields s := by
  refine ⟨h.kind, h.confidence, ?_, h.body⟩
  obtain ⟨n, hn, hdecl⟩ := h.typeName
  rcases Option.or_eq_some_iff.mp hn with hs | ⟨-, hs⟩
  · exact ⟨n, hs, hdecl⟩
  · obtain rfl := Option.some.inj hs
    obtain rfl := Option.some.inj ((TypeTable.get?_name hget).symm.trans hdecl)
    cases hbody.symm.trans h.body

/-- A declared object in a shape that has the name of a record shows this record as it was entered. -/
theorem Resolves.exists_visit (h : Resolves table limit visiting bindings ty p s)
    (hnode : PartOf node s) (hdeclared : IsDeclared table decl fields node) :
    ∃ x, Enters table limit visiting bindings ty p x ∧ x.decl = decl ∧ x.fields = fields ∧
      x.Shown table limit node := by
  induction h generalizing node with
  | scalar => exact absurd rfl (hdeclared.of_leaf hnode rfl rfl).typeName_ne_none
  | formatted => exact absurd rfl (hdeclared.of_leaf hnode rfl rfl).typeName_ne_none
  | literals => cases (hdeclared.of_leaf hnode rfl rfl).kind
  | map => cases (hdeclared.of_leaf hnode rfl rfl).kind
  | unknown => cases (hdeclared.of_leaf hnode rfl rfl).kind
  | arrayCut => cases (hdeclared.of_leaf hnode rfl rfl).kind
  | array hdepth _ ih =>
    cases hnode with
    | self => cases hdeclared.kind
    | member hc => cases hc
    | item hi hpart =>
      obtain rfl := Option.some.inj hi
      obtain ⟨x, hx, hrest⟩ := ih hpart hdeclared
      exact ⟨x, .array hdepth hx, hrest⟩
  | @optional visiting bindings inner p s _ ih =>
    obtain ⟨part, hpart, hdeclared, hchildren⟩ :=
      hdeclared.exists_part s hnode rfl rfl fun h => h.congr rfl rfl rfl
    obtain ⟨x, hx, hdecl, hfields, hshown⟩ := ih hpart hdeclared
    exact ⟨x, .optional hx, hdecl, hfields, hshown.of_children hchildren⟩
  | bound hbound _ ih =>
    obtain ⟨x, hx, hrest⟩ := ih hnode hdeclared
    exact ⟨x, .bound hbound hx, hrest⟩
  | missing => cases (hdeclared.of_leaf hnode rfl rfl).kind
  | enum => cases (hdeclared.of_leaf hnode rfl rfl).kind
  | synonymCut => cases (hdeclared.of_leaf hnode rfl rfl).kind
  | @synonym visiting bindings name args p synonym target s hfree hget hbody hvisiting _ ih =>
    obtain ⟨part, hpart, hdeclared, hchildren⟩ :=
      hdeclared.exists_part s hnode rfl rfl (.of_synonym hget hbody)
    obtain ⟨x, hx, hdecl, hfields, hshown⟩ := ih hpart hdeclared
    exact ⟨x, .synonym hfree hget hbody hvisiting hx, hdecl, hfields, hshown.of_children hchildren⟩
  | recordCut => cases (hdeclared.of_leaf hnode rfl rfl).confidence
  | @record visiting bindings name args p record entries x base hfree hget hbody hvisiting hdepth henter
      hfields ih =>
    have hx : Enters table limit visiting bindings (.named name args) p x :=
      .here hfree hget hbody hvisiting hdepth henter
    have hbase : x.shape base = x.resolved table limit :=
      Visit.shape_congr fun field hfield hasks => resolves_iff.mp (hfields field hfield hasks)
    cases hnode with
    | self =>
      have hname : (x.shape base).typeName = some x.decl.name := by
        obtain ⟨children, confidence, hshape⟩ := x.exists_shape_eq base
        rw [hshape]
        rfl
      subst henter
      obtain ⟨n, hn, hdecl⟩ := hdeclared.typeName
      obtain rfl := Option.some.inj (hn.symm.trans hname)
      obtain rfl := Option.some.inj ((TypeTable.get?_name hget).symm.trans hdecl)
      have hsame := TypeBody.record.inj (hbody.symm.trans hdeclared.body)
      exact ⟨_, hx, rfl, hsame, congrArg Shape.children hbase, hbase ▸ hdeclared.confidence⟩
    | item hi => simp [Visit.items_shape] at hi
    | @member _ c hc hpart =>
      have hinside : ∃ field ∈ x.fields, x.asks field ∧ ∃ part, PartOf part (base field) ∧
          IsDeclared table decl fields part ∧ node.children = part.children := by
        obtain ⟨field, hfield, ⟨-, rfl⟩ | ⟨hembedded, hc⟩⟩ := Visit.mem_children_shape hc
        · cases hopen : x.leavesOpen field with
          | true =>
            rw [Visit.member_of_open hopen] at hpart
            cases (hdeclared.of_leaf hpart rfl rfl).kind
          | false =>
            rw [Visit.member_of_filled hopen] at hpart
            exact ⟨field, hfield, .inr hopen,
              hdeclared.exists_part _ hpart rfl rfl fun h => h.congr rfl rfl rfl⟩
        · exact ⟨field, hfield, .inl hembedded, node, .member hc hpart, hdeclared, rfl⟩
      obtain ⟨field, hfield, hasks, part, hpart, hdeclared, hchildren⟩ := hinside
      obtain ⟨y, hy, hdecl, hfields, hshown⟩ := ih field hfield hasks hpart hdeclared
      exact ⟨y, .inside hx hfield hasks hy, hdecl, hfields, hshown.of_children hchildren⟩

end Declared

theorem Enters.lookup_frame (h : Enters table limit visiting bindings ty p x)
    (hname : name ∉ x.decl.generics) : x.frame.lookup name = none := by
  induction h with
  | array _ _ ih => exact ih hname
  | optional _ ih => exact ih hname
  | bound _ _ ih => exact ih hname
  | synonym _ _ _ _ _ ih => exact ih hname
  | here _ _ _ _ _ henter =>
    subst henter
    exact Visit.lookup_frame_enter hname
  | inside _ _ _ _ _ ih => exact ih hname

end Chain

/-- Every object in the shape of a type that counts as declared and has the name of a record has the
members of its own fields and all members of the types embedded in it, which are declared objects too.
So it has whatever the record inherits, however far. -/
theorem declared_members_complete (table : TypeTable) (maxDepth : Nat) (ty : TypeExpr) (origin : Origin)
    (node : Shape) (hnode : PartOf node (resolve table maxDepth (.typed ty origin))) (decl : TypeDecl)
    (fields : List FieldDecl) (hdeclared : IsDeclared table decl fields node) :
    ∃ x, Enters table (max maxDepth 1) [] [] ty (.root origin) x ∧ x.decl = decl ∧ x.fields = fields ∧
      (∀ f ∈ fields, f.isEmbedded = false → f.wire ∈ node.names) ∧
      (∀ e ∈ fields, e.isEmbedded = true →
        (x.shapeOf table (max maxDepth 1) e).kind = .object ∧
        (x.shapeOf table (max maxDepth 1) e).confidence = .declared ∧
        (x.shapeOf table (max maxDepth 1) e).names ⊆ node.names) ∧
      ∀ name, x.Inherits table name → name ∈ node.names := by
  obtain ⟨x, hx, rfl, rfl, hshown⟩ :=
    (resolves_resolve table maxDepth ty origin).exists_visit hnode hdeclared
  have hnames : node.names = (x.resolved table (max maxDepth 1)).names := by
    rw [names, hshown.children, names]
  rw [hnames]
  refine ⟨x, hx, rfl, rfl, fun f hf hown => ?_, fun e he hembedded => ?_, fun name hname => ?_⟩
  · exact Visit.mem_names_shape_iff.mpr ⟨f, hf, .inl ⟨hown, rfl⟩⟩
  · obtain ⟨hkind, hbase⟩ := Visit.declared_shape_iff.mp hshown.confidence e he hembedded
    refine ⟨hkind, hbase, fun name hname => ?_⟩
    exact Visit.mem_names_shape_iff.mpr ⟨e, he, .inr ⟨hembedded, hname⟩⟩
  · exact hname.mem_names hshown.confidence

/-- Orders that inherit, through a synonym and a record with a parameter, what every entity has. -/
def entityTable : TypeTable := .ofList [
  { name := "Entity", generics := [], location := ⟨"order.ts", 1, 1⟩,
    body := .record [.plain "id" (.scalar .string) ⟨"order.ts", 2, 3⟩] },
  { name := "Stamped", generics := ["T"], location := ⟨"order.ts", 4, 1⟩,
    body := .record [
      .embedded (.named "Entity" []) ⟨"order.ts", 4, 1⟩,
      .plain "at" (.named "T" []) ⟨"order.ts", 5, 3⟩] },
  { name := "Dated", generics := [], location := ⟨"order.ts", 7, 1⟩,
    body := .synonym (.named "Stamped" [.scalar .string]) },
  { name := "Order", generics := [], location := ⟨"order.ts", 9, 1⟩,
    body := .record [.embedded (.named "Dated" []) ⟨"order.ts", 9, 1⟩] }]

/-- A declared order has the `id` of an entity, which lies three declarations away. -/
theorem order_has_id : ∃ node decl fields,
    PartOf node (resolve entityTable 2 (.typed (.array (.named "Order" [])) default)) ∧
      IsDeclared entityTable decl fields node ∧ "id" ∈ node.names := by
  have hitem : (resolve entityTable 2 (.typed (.array (.named "Order" [])) default)).items.map
      (fun i => (i.kind, i.confidence, i.typeName)) = some (.object, .declared, some "Order") := by
    decide +kernel
  obtain ⟨node, hnode, hshown⟩ := Option.map_eq_some_iff.mp hitem
  simp only [Prod.mk.injEq] at hshown
  obtain ⟨hkind, hconfidence, hname⟩ := hshown
  have hpart : PartOf node (resolve entityTable 2 (.typed (.array (.named "Order" [])) default)) :=
    .item hnode .self
  have hdeclared : IsDeclared entityTable _ _ node := ⟨hkind, hconfidence, ⟨_, hname, rfl⟩, rfl⟩
  obtain ⟨x, hx, hdecl, hfields, -, -, hinherits⟩ :=
    declared_members_complete entityTable 2 _ default node hpart _ _ hdeclared
  have hfree (name : String) : x.frame.lookup name = none :=
    hx.lookup_frame (by rw [hdecl]; exact List.not_mem_nil)
  refine ⟨node, _, _, hpart, hdeclared, hinherits "id" ?_⟩
  apply Visit.Inherits.base (e := .embedded (.named "Dated" []) ⟨"order.ts", 9, 1⟩)
    (hfields ▸ List.mem_cons_self) rfl (.synonym (hfree _) rfl rfl (.record (hfree _) rfl rfl))
  apply Visit.Inherits.base (e := .embedded (.named "Entity" []) ⟨"order.ts", 4, 1⟩)
    List.mem_cons_self rfl (.record (Visit.lookup_frame_enter (by decide)) rfl rfl)
  exact .own (f := .plain "id" (.scalar .string) ⟨"order.ts", 2, 3⟩) List.mem_cons_self rfl

end Concord.Shape
