import Concord.Proofs.Mentions
import Concord.Proofs.Resolution

/-! The shape of a type depends on what it mentions and on the declarations that leads to, and on
nothing else around it. A synonym has the shape of its body where it is used: the parameters of a
record around it reach the body, and what the synonym itself is given does not. -/
namespace Concord

open TypeExpr

/-- What a type mentions, or a declaration that it leads to. -/
inductive TypeTable.Reaches (table : TypeTable) (ty : TypeExpr) : Mention → Prop
  | here {m} (hm : m ∈ ty.mentions) : Reaches table ty m
  | through {name applied decl m} (hname : Reaches table ty (.name name applied))
    (hget : table.get? name = some decl) (hm : m ∈ decl.mentions) : Reaches table ty m

/-- Whether a type leads to a declaration of some name. -/
def TypeTable.Leads (table : TypeTable) (ty : TypeExpr) (name : String) : Prop :=
  ∃ n applied decl, table.Reaches ty (.name n applied) ∧ table.get? n = some decl ∧ decl.name = name

/-- What the declarations mention that satisfying names lead to satisfies `P` as well. -/
def TypeTable.Closed (table : TypeTable) (P : Mention → Prop) : Prop :=
  ∀ name applied decl, P (.name name applied) → table.get? name = some decl → ∀ m ∈ decl.mentions, P m

namespace TypeTable.Reaches

variable {table : TypeTable} {ty : TypeExpr}

theorem closed (table : TypeTable) (ty : TypeExpr) : table.Closed (table.Reaches ty) :=
  fun _ _ _ hname hget _ hm => .through hname hget hm

/-- A type reaches no more than what is closed and has all that it mentions. -/
theorem of_closed {P : Mention → Prop} (hclosed : table.Closed P) (hty : ∀ m ∈ ty.mentions, P m)
    {m : Mention} (h : table.Reaches ty m) : P m := by
  induction h with
  | here hm => exact hty _ hm
  | through _ hget hm ih => exact hclosed _ _ _ ih hget _ hm

end TypeTable.Reaches

namespace Shape

mutual

theorem substitute_congr {bindings bindings' : Bindings} : ∀ ty : TypeExpr,
    (∀ name applied, .name name applied ∈ ty.mentions →
      bindings.lookup name = bindings'.lookup name) →
    substitute bindings ty = substitute bindings' ty
  | .scalar _, _ => rfl
  | .formatted _ _, _ => rfl
  | .named name [], h => by rw [substitute, substitute, h name false List.mem_cons_self]
  | .named _ (ty :: tys), h => by
    have hargs := substituteAll_congr (ty :: tys) fun name applied hm =>
      h name applied (List.mem_cons_of_mem _ hm)
    simpa only [substitute, substituteAll, TypeExpr.named.injEq, true_and] using hargs
  | .array item, h => by rw [substitute, substitute, substitute_congr item h]
  | .optional inner, h => by rw [substitute, substitute, substitute_congr inner h]
  | .map, _ => rfl
  | .literals _, _ => rfl
  | .unknown, _ => rfl

theorem substituteAll_congr {bindings bindings' : Bindings} : ∀ tys : List TypeExpr,
    (∀ name applied, .name name applied ∈ mentionsAll tys →
      bindings.lookup name = bindings'.lookup name) →
    substituteAll bindings tys = substituteAll bindings' tys
  | [], _ => rfl
  | ty :: tys, h => by
    rw [substituteAll, substituteAll,
      substitute_congr ty fun name applied hm => h name applied (List.mem_append_left _ hm),
      substituteAll_congr tys fun name applied hm => h name applied (List.mem_append_right _ hm)]

end

mutual

theorem substitute_nil : ∀ ty : TypeExpr, substitute [] ty = ty
  | .scalar _ => rfl
  | .formatted _ _ => rfl
  | .named _ [] => rfl
  | .named _ (ty :: tys) => by rw [substitute, substitute_nil ty, substituteAll_nil tys]
  | .array item => by rw [substitute, substitute_nil item]
  | .optional inner => by rw [substitute, substitute_nil inner]
  | .map => rfl
  | .literals _ => rfl
  | .unknown => rfl

theorem substituteAll_nil : ∀ tys : List TypeExpr, substituteAll [] tys = tys
  | [] => rfl
  | ty :: tys => by rw [substituteAll, substitute_nil ty, substituteAll_nil tys]

end

/-- Two places in the resolution of types look the same to what satisfies `P`: its names stand for
the same types, the same of its declarations are being entered, and either parameters have been filled
in around both or around none, or there are none to fill in. -/
structure Indistinct (table : TypeTable) (P : Mention → Prop) (visiting visiting' : List String)
    (bindings bindings' : Bindings) (i i' : Bool) : Prop where
  lookup : ∀ {name applied}, P (.name name applied) → bindings.lookup name = bindings'.lookup name
  visiting : ∀ {name applied decl}, P (.name name applied) → table.get? name = some decl →
    (decl.name ∈ visiting ↔ decl.name ∈ visiting')
  filled : i = i' ∨ ∀ name, ¬ P (.name name true)

namespace Indistinct

variable {table : TypeTable} {P : Mention → Prop} {visiting visiting' : List String}
  {bindings bindings' : Bindings} {i i' : Bool}

theorem enter (h : Indistinct table P visiting visiting' bindings bindings' i i') (name : String) :
    Indistinct table P (name :: visiting) (name :: visiting') bindings bindings' i i' where
  lookup := h.lookup
  visiting hname hget := by rw [List.mem_cons, List.mem_cons, h.visiting hname hget]
  filled := h.filled

theorem rebind (h : Indistinct table P visiting visiting' bindings bindings' i i') (frame : Bindings)
    {j j' : Bool} (hfilled : j = j' ∨ ∀ name, ¬ P (.name name true)) :
    Indistinct table P visiting visiting' frame frame j j' where
  lookup _ := rfl
  visiting := h.visiting
  filled := hfilled

variable {name : String} {args : List TypeExpr} {p : Place}

theorem frame_enter (h : Indistinct table P visiting visiting' bindings bindings' p.instantiated i')
    (hty : ∀ m ∈ (TypeExpr.named name args).mentions, P m) (decl : TypeDecl) (fields : List FieldDecl) :
    (Visit.enter decl fields visiting bindings args p).frame =
      (Visit.enter decl fields visiting' bindings' args { p with instantiated := i' }).frame := by
  obtain ⟨hname, hargs⟩ := List.forall_mem_cons.mp hty
  have hsubst : substituteAll bindings args = substituteAll bindings' args :=
    substituteAll_congr args fun name applied hm => h.lookup (hargs _ hm)
  rcases h.filled with hi | hnone
  · simp only [Visit.enter, hi, hsubst]
  · cases args with
    | nil => simp [Visit.enter]
    | cons => exact absurd hname (hnone name)

end Indistinct

/-- A record looks the same wherever it is entered with the same frame. -/
theorem Visit.shape_eq_of_frame {x y : Visit} (hframe : x.frame = y.frame) (hdecl : x.decl = y.decl)
    (hfields : x.fields = y.fields) (hname : x.place.name = y.place.name)
    (horigin : x.place.origin = y.place.origin) (base : FieldDecl → Shape) :
    x.shape base = y.shape base := by
  obtain ⟨decl, fields, ⟨name, origin, depth, i⟩, visiting, frame⟩ := x
  obtain ⟨decl', fields', ⟨name', origin', depth', i'⟩, visiting', frame'⟩ := y
  simp only at hdecl hfields hframe hname horigin
  subst hdecl hfields hframe hname horigin
  rfl

theorem Visit.instantiated_placeOf (x : Visit) (field : FieldDecl) :
    (x.placeOf field).instantiated = x.place.instantiated := by
  rw [placeOf]
  split <;> rfl

theorem Visit.placeOf_eq {x y : Visit} (hdecl : x.decl = y.decl)
    (hplace : { x.place with instantiated := y.place.instantiated } = y.place) (field : FieldDecl) :
    { x.placeOf field with instantiated := y.place.instantiated } = y.placeOf field := by
  rw [placeOf, placeOf, ← hplace, Visit.origin, Visit.origin, hdecl]
  split <;> rfl

/-- In places that look the same to all that is reached, a type has the same shape. -/
theorem Resolves.congr {table : TypeTable} {limit : Nat} {P : Mention → Prop} (hclosed : table.Closed P)
    {visiting visiting' : List String} {bindings bindings' : Bindings} {ty : TypeExpr} {p : Place}
    {s : Shape} (h : Resolves table limit visiting bindings ty p s) (hbindings : bindings.Within P)
    (hty : ∀ m ∈ ty.mentions, P m) {i : Bool}
    (halike : Indistinct table P visiting visiting' bindings bindings' p.instantiated i) :
    Resolves table limit visiting' bindings' ty { p with instantiated := i } s := by
  induction h generalizing visiting' bindings' i with
  | scalar => exact .scalar
  | formatted => exact .formatted
  | literals => exact .literals
  | map => exact .map
  | unknown => exact .unknown
  | arrayCut hdepth => exact .arrayCut hdepth
  | array hdepth _ ih => exact .array hdepth (ih hbindings hty halike)
  | optional _ ih => exact .optional (ih hbindings hty halike)
  | bound hbound _ ih =>
    have hname := (List.forall_mem_cons.mp hty).1
    refine .bound (halike.lookup hname ▸ hbound) ?_
    exact ih (Bindings.within_nil P) (hbindings _ _ _ hname hbound) (halike.rebind [] (.inl rfl))
  | missing hfree hget =>
    have hname := (List.forall_mem_cons.mp hty).1
    exact .missing (halike.lookup hname ▸ hfree) hget
  | enum hfree hget hbody =>
    have hname := (List.forall_mem_cons.mp hty).1
    exact .enum (halike.lookup hname ▸ hfree) hget hbody
  | synonymCut hfree hget hbody hvisiting =>
    have hname := (List.forall_mem_cons.mp hty).1
    exact .synonymCut (halike.lookup hname ▸ hfree) hget hbody ((halike.visiting hname hget).mp hvisiting)
  | @synonym visiting bindings name args p decl target s hfree hget hbody hvisiting _ ih =>
    have hname := (List.forall_mem_cons.mp hty).1
    refine .synonym (halike.lookup hname ▸ hfree) hget hbody
      (mt (halike.visiting hname hget).mpr hvisiting) ?_
    have htarget : ∀ m ∈ target.mentions, P m := fun m hm =>
      hclosed _ _ _ hname hget m (TypeDecl.mem_mentions_of_synonym hbody hm)
    exact ih hbindings htarget (halike.enter decl.name)
  | recordCut hfree hget hbody hcut =>
    have hname := (List.forall_mem_cons.mp hty).1
    exact .recordCut (halike.lookup hname ▸ hfree) hget hbody
      (hcut.imp_left (halike.visiting hname hget).mp)
  | @record visiting bindings name args p decl fields x base hfree hget hbody hvisiting hdepth henter _ ih =>
    subst henter
    have hname := (List.forall_mem_cons.mp hty).1
    have hframe := halike.frame_enter hty decl fields
    have hshape := Visit.shape_eq_of_frame hframe rfl rfl rfl rfl base
    rw [hshape]
    refine .record (halike.lookup hname ▸ hfree) hget hbody (mt (halike.visiting hname hget).mpr hvisiting)
      hdepth rfl fun field hfield hasks => ?_
    have hasks' : (Visit.enter decl fields visiting bindings args p).asks field := by
      rw [Visit.asks, Visit.leavesOpen, hframe]
      exact hasks
    have hwithin := Visit.within_frame hbindings (List.forall_mem_cons.mp hty).2 decl fields visiting p
    have hmentions : ∀ m ∈ field.ty.mentions, P m := fun m hm =>
      hclosed _ _ _ hname hget m (TypeDecl.mem_mentions_of_record hbody hfield hm)
    have hfilled : (p.instantiated || !args.isEmpty) = (i || !args.isEmpty) ∨
        ∀ name, ¬ P (.name name true) :=
      halike.filled.imp_left fun hi => by rw [hi]
    have hplace := Visit.placeOf_eq (x := Visit.enter decl fields visiting bindings args p)
      (y := Visit.enter decl fields visiting' bindings' args { p with instantiated := i }) rfl rfl field
    rw [← hframe, ← hplace]
    refine ih field hfield hasks' hwithin hmentions ?_
    rw [Visit.instantiated_placeOf]
    exact (halike.enter decl.name).rebind _ hfilled

section Congr

variable {table : TypeTable} {limit : Nat} {visiting : List String} {bindings : Bindings}

theorem resolveIn_congr {P : Mention → Prop} (hclosed : table.Closed P) {visiting' : List String}
    {bindings' : Bindings} {ty : TypeExpr} {p : Place} {i : Bool} (hbindings : bindings.Within P)
    (hty : ∀ m ∈ ty.mentions, P m)
    (halike : Indistinct table P visiting visiting' bindings bindings' p.instantiated i) :
    resolveIn table limit visiting bindings ty p =
      resolveIn table limit visiting' bindings' ty { p with instantiated := i } :=
  resolves_iff.mp (Resolves.congr hclosed (resolves_iff.mpr rfl) hbindings hty halike)

/-- A shape of a type that goes by some name, unless it has a name. -/
def knownAs (name : String) (s : Shape) : Shape := { s with typeName := s.typeName.or (some name) }

variable {name : String} {decl : TypeDecl} {target : TypeExpr}

theorem resolveIn_synonym (hget : table.get? name = some decl) (hbody : decl.body = .synonym target)
    (hfree : bindings.lookup name = none) (hvisiting : decl.name ∉ visiting) (args : List TypeExpr)
    (p : Place) : resolveIn table limit visiting bindings (.named name args) p =
      (resolveIn table limit (decl.name :: visiting) bindings target p).knownAs decl.name :=
  (resolves_iff.mp (.synonym hfree hget hbody hvisiting (resolves_iff.mpr rfl))).symm

theorem resolveIn_cons (hty : ¬ table.Leads target name)
    (hframe : ∀ q ty, bindings.lookup q = some ty → ¬ table.Leads ty name) (p : Place) :
    resolveIn table limit (name :: visiting) bindings target p =
      resolveIn table limit visiting bindings target p := by
  -- All that is reached from the type or from what a parameter stands for.
  have hclosed : table.Closed fun m =>
      table.Reaches target m ∨ ∃ q ty, bindings.lookup q = some ty ∧ table.Reaches ty m := by
    rintro n applied decl (hn | ⟨q, ty, hq, hn⟩) hget m hm
    · exact .inl (.through hn hget hm)
    · exact .inr ⟨q, ty, hq, .through hn hget hm⟩
  refine resolveIn_congr hclosed ?_ (fun m hm => .inl (.here hm)) ⟨fun _ => rfl, ?_, .inl rfl⟩
  · exact fun q _ ty _ hq m hm => .inr ⟨q, ty, hq, .here hm⟩
  · intro n applied decl hn hget
    refine ⟨fun hmem => (List.mem_cons.mp hmem).resolve_left fun hname => ?_, List.mem_cons_of_mem _⟩
    rcases hn with hn | ⟨q, ty, hq, hn⟩
    · exact hty ⟨n, applied, decl, hn, hget, hname⟩
    · exact hframe q ty hq ⟨n, applied, decl, hn, hget, hname⟩

/-- Where nothing that a type leads to is a parameter or is being entered, it has the shape that it has
on its own. -/
theorem resolveIn_apart {p : Place} {i : Bool}
    (hunbound : ∀ n applied, table.Reaches target (.name n applied) → bindings.lookup n = none)
    (hentered : ∀ n ∈ visiting, ¬ table.Leads target n)
    (hfilled : i = p.instantiated ∨ ∀ n, ¬ table.Reaches target (.name n true)) :
    resolveIn table limit (name :: visiting) bindings target { p with instantiated := i } =
      resolveIn table limit [name] [] target p := by
  have halike : Indistinct table (table.Reaches target) [] visiting [] bindings p.instantiated i := by
    refine ⟨fun hn => (hunbound _ _ hn).symm, fun {n applied decl} hn hget => ?_,
      hfilled.imp_left Eq.symm⟩
    exact iff_of_false List.not_mem_nil fun hmem => hentered _ hmem ⟨n, applied, decl, hn, hget, rfl⟩
  exact (resolveIn_congr (.closed table target) (Bindings.within_nil _) (fun _ hm => .here hm)
    (halike.enter name)).symm

end Congr

/-- A synonym that does not lead to itself has the shape of its body as it stands where the synonym is
used, whatever the synonym is given. So it has the shape of the body with its parameters filled in where
the body mentions none. It has one shape everywhere as long as nothing that the body leads to is a
parameter or is being entered there, and parameters that the body would fill in are filled in alike. -/
theorem synonym_is_its_body (table : TypeTable) (name : String) (decl : TypeDecl) (target : TypeExpr)
    (hget : table.get? name = some decl) (hbody : decl.body = .synonym target)
    (hacyclic : ¬ table.Leads target decl.name) :
    (∀ limit visiting bindings args p, bindings.lookup name = none → decl.name ∉ visiting →
      (∀ q ty, bindings.lookup q = some ty → ¬ table.Leads ty decl.name) →
        resolveIn table limit visiting bindings (.named name args) p =
          (resolveIn table limit visiting bindings target p).knownAs decl.name) ∧
    (∀ maxDepth args origin, resolve table maxDepth (.typed (.named name args) origin) =
      (resolve table maxDepth (.typed target origin)).knownAs decl.name) ∧
    (∀ maxDepth args origin,
      (∀ q ∈ decl.generics, ∀ applied, .name q applied ∉ target.mentions) →
        resolve table maxDepth (.typed (.named name args) origin) =
          (resolve table maxDepth
            (.typed (substitute (decl.generics.zip args) target) origin)).knownAs decl.name) ∧
    ∀ limit visiting bindings args p i, bindings.lookup name = none → decl.name ∉ visiting →
      (∀ n applied, table.Reaches target (.name n applied) → bindings.lookup n = none) →
      (∀ n ∈ visiting, ¬ table.Leads target n) →
      (i = p.instantiated ∨ ∀ n, ¬ table.Reaches target (.name n true)) →
        resolveIn table limit visiting bindings (.named name args) { p with instantiated := i } =
          resolveIn table limit [] [] (.named name []) p := by
  have hbodies (limit visiting bindings args p) (hfree : bindings.lookup name = none)
      (hvisiting : decl.name ∉ visiting)
      (hframe : ∀ q ty, bindings.lookup q = some ty → ¬ table.Leads ty decl.name) :
      resolveIn table limit visiting bindings (.named name args) p =
        (resolveIn table limit visiting bindings target p).knownAs decl.name := by
    rw [resolveIn_synonym hget hbody hfree hvisiting, resolveIn_cons hacyclic hframe]
  have hroot (maxDepth args origin) : resolve table maxDepth (.typed (.named name args) origin) =
      (resolve table maxDepth (.typed target origin)).knownAs decl.name := by
    rw [resolve_eq_resolveIn, resolve_eq_resolveIn]
    exact hbodies _ _ _ _ _ rfl List.not_mem_nil (by simp)
  refine ⟨hbodies, hroot, fun maxDepth args origin hnone => ?_, ?_⟩
  · have hsubst : substitute (decl.generics.zip args) target = target := by
      refine (substitute_congr target fun q applied hq => ?_).trans (substitute_nil target)
      refine List.lookup_eq_none_iff.mpr fun entry hentry => ?_
      rw [bne_iff_ne]
      rintro rfl
      exact hnone _ (List.of_mem_zip hentry).1 applied hq
    rw [hsubst]
    exact hroot maxDepth args origin
  · intro limit visiting bindings args p i hfree hvisiting hunbound hentered hfilled
    have hself : ([] : Bindings).lookup name = none := rfl
    rw [resolveIn_synonym hget hbody hfree hvisiting,
      resolveIn_synonym hget hbody hself List.not_mem_nil,
      resolveIn_apart hunbound hentered hfilled]

def maybe : TypeDecl where
  name := "Maybe"
  generics := ["T"]
  location := ⟨"cart.ts", 1, 1⟩
  body := .synonym (.optional (.named "T" []))

def cartTable : TypeTable := .ofList [
  maybe,
  { name := "Order", generics := [], location := ⟨"cart.ts", 2, 1⟩,
    body := .record [.plain "id" (.scalar .string) ⟨"cart.ts", 3, 3⟩] }]

/-- An order that may be missing looks like a value that nothing is known of. -/
theorem maybe_forgets_order :
    resolve cartTable 8 (.typed (.named "Maybe" [.named "Order" []]) default) =
      (resolve cartTable 8 (.typed (.optional (.named "T" [])) default)).knownAs "Maybe" ∧
    (resolve cartTable 8 (.typed (.named "Maybe" [.named "Order" []]) default)).kind = .unknown ∧
    (resolve cartTable 8 (.typed (substitute (["T"].zip [.named "Order" []])
      (.optional (.named "T" []))) default)).kind = .object := by
  have hopen : cartTable.get? "T" = none := rfl
  have hacyclic : ¬ cartTable.Leads (.optional (.named "T" [])) "Maybe" := by
    have hclosed : cartTable.Closed (· = .name "T" false) := by
      rintro _ _ decl ⟨⟩ hget
      simp [hopen] at hget
    rintro ⟨n, applied, decl, hreach, hget, -⟩
    obtain ⟨⟩ := hreach.of_closed hclosed (by decide)
    simp [hopen] at hget
  obtain ⟨-, hroot, -, -⟩ := synonym_is_its_body cartTable "Maybe" maybe _ rfl rfl hacyclic
  refine ⟨hroot 8 [.named "Order" []] default, ?_, ?_⟩
  · decide +kernel
  · decide +kernel

end Shape

end Concord
