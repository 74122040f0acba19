import Mathlib.Data.List.Basic
import Concord.Proofs.Keys
import Concord.Shape.Resolve

/-! What shape a type has, as rules without a bound on how often they are used. A declaration is
entered only while it is not being entered, so the rules come to an end on every type, and what they
give is what resolution computes. -/
namespace Concord.Shape

variable {fuel : Nat}

def Visit.asks (x : Visit) (field : FieldDecl) : Prop :=
  field.isEmbedded = true ∨ x.leavesOpen field = false

/-- The rules of resolution: the shape of a type at some place, while the declarations in `visiting`
are being entered and parameters stand for what `bindings` says. -/
inductive Resolves (table : TypeTable) (limit : Nat) :
    (visiting : List String) → Bindings → TypeExpr → Place → Shape → Prop
  | scalar {visiting bindings kind p} :
    Resolves table limit visiting bindings (.scalar kind) p (plain p.name kind p.origin)
  | formatted {visiting bindings kind format p} :
    Resolves table limit visiting bindings (.formatted kind format) p
      { plain p.name kind p.origin with format := some format }
  | literals {visiting bindings values p} :
    Resolves table limit visiting bindings (.literals values) p
      { plain p.name .enum p.origin with enumValues := values }
  | map {visiting bindings p} :
    Resolves table limit visiting bindings .map p (obscure p.name p.origin)
  | unknown {visiting bindings p} :
    Resolves table limit visiting bindings .unknown p (obscure p.name p.origin)
  | arrayCut {visiting bindings item p} (hdepth : limit ≤ p.depth) :
    Resolves table limit visiting bindings (.array item) p
      { plain p.name .array p.origin with confidence := .inferred }
  | array {visiting bindings item p s} (hdepth : p.depth < limit)
    (hitem : Resolves table limit visiting bindings item { p with name := "[]", depth := p.depth + 1 } s) :
    Resolves table limit visiting bindings (.array item) p
      { plain p.name .array p.origin with items := some s }
  | optional {visiting bindings inner p s} (hinner : Resolves table limit visiting bindings inner p s) :
    Resolves table limit visiting bindings (.optional inner) p
      { s with required := false, validated := false }
  | bound {visiting bindings name args p ty s} (hbound : bindings.lookup name = some ty)
    (hty : Resolves table limit visiting [] ty { p with instantiated := true } s) :
    Resolves table limit visiting bindings (.named name args) p s
  | missing {visiting bindings name args p} (hfree : bindings.lookup name = none)
    (hget : table.get? name = none) :
    Resolves table limit visiting bindings (.named name args) p
      { obscure p.name p.origin with typeName := some name }
  | enum {visiting bindings name args p decl values} (hfree : bindings.lookup name = none)
    (hget : table.get? name = some decl) (hbody : decl.body = .enum values) :
    Resolves table limit visiting bindings (.named name args) p
      { plain p.name .enum p.origin with typeName := some decl.name, enumValues := values }
  | synonymCut {visiting bindings name args p decl target} (hfree : bindings.lookup name = none)
    (hget : table.get? name = some decl) (hbody : decl.body = .synonym target)
    (hvisiting : decl.name ∈ visiting) :
    Resolves table limit visiting bindings (.named name args) p
      { obscure p.name p.origin with typeName := some decl.name }
  | synonym {visiting bindings name args p decl target s} (hfree : bindings.lookup name = none)
    (hget : table.get? name = some decl) (hbody : decl.body = .synonym target)
    (hvisiting : decl.name ∉ visiting)
    (htarget : Resolves table limit (decl.name :: visiting) bindings target p s) :
    Resolves table limit visiting bindings (.named name args) p
      { s with typeName := s.typeName.or (some decl.name) }
  | recordCut {visiting bindings name args p decl fields} (hfree : bindings.lookup name = none)
    (hget : table.get? name = some decl) (hbody : decl.body = .record fields)
    (hcut : decl.name ∈ visiting ∨ limit ≤ p.depth) :
    Resolves table limit visiting bindings (.named name args) p
      { (Visit.enter decl fields visiting bindings args p).bare with confidence := .inferred }
  | record {visiting bindings name args p decl fields} {x : Visit} {base : FieldDecl → Shape}
    (hfree : bindings.lookup name = none) (hget : table.get? name = some decl)
    (hbody : decl.body = .record fields) (hvisiting : decl.name ∉ visiting) (hdepth : p.depth < limit)
    (henter : x = Visit.enter decl fields visiting bindings args p)
    (hfields : ∀ field ∈ x.fields, x.asks field →
      Resolves table limit x.visiting x.frame field.ty (x.placeOf field) (base field)) :
    Resolves table limit visiting bindings (.named name args) p (x.shape base)

variable {field : FieldDecl} {ty : TypeExpr}

def unentered (table : TypeTable) (visiting : List String) : Nat :=
  (table.decls.filter (!visiting.contains ·.name)).length

/-- How deep look-ups nest at most. Between two declarations that are entered, one parameter may be
looked up. -/
def budget (table : TypeTable) (visiting : List String) (bindings : Bindings) : Nat :=
  2 * unentered table visiting + if bindings.isEmpty then 1 else 2

theorem unentered_cons_lt {table : TypeTable} {visiting : List String} {decl : TypeDecl}
    (hdecl : decl ∈ table.decls) (hvisiting : decl.name ∉ visiting) :
    unentered table (decl.name :: visiting) < unentered table visiting := by
  have hfilter : table.decls.filter (!(decl.name :: visiting).contains ·.name) =
      (table.decls.filter (!visiting.contains ·.name)).filter (·.name != decl.name) := by
    rw [List.filter_filter]
    apply List.filter_congr
    intro d _
    simp [bne, Bool.beq_eq_decide_eq]
  rw [unentered, hfilter, unentered, List.length_filter_lt_length_iff_exists]
  exact ⟨decl, by simpa using ⟨hdecl, hvisiting⟩, by simp⟩

section

variable {table : TypeTable} {limit : Nat} {visiting : List String} {bindings : Bindings}

theorem exists_succ_of_budget_le (h : budget table visiting bindings ≤ fuel) :
    ∃ rest, fuel = rest + 1 := by
  have hpos : 0 < budget table visiting bindings := by
    unfold budget
    split <;> omega
  exact ⟨fuel - 1, by omega⟩

theorem budget_bound_le {name : String} (hbound : bindings.lookup name = some ty)
    (h : budget table visiting bindings ≤ fuel + 1) : budget table visiting [] ≤ fuel := by
  cases bindings with
  | nil => simp at hbound
  | cons =>
    simp only [budget, List.isEmpty_cons, List.isEmpty_nil, Bool.false_eq_true, if_false, if_true] at h ⊢
    omega

theorem budget_enter_le {name : String} {decl : TypeDecl} (hget : table.get? name = some decl)
    (hvisiting : decl.name ∉ visiting) (h : budget table visiting bindings ≤ fuel + 1)
    (frame : Bindings) : budget table (decl.name :: visiting) frame ≤ fuel := by
  have hlt := unentered_cons_lt (List.mem_of_find?_eq_some hget) hvisiting
  have hle : budget table (decl.name :: visiting) frame ≤ 2 * unentered table visiting := by
    unfold budget
    split <;> omega
  have hge : 2 * unentered table visiting + 1 ≤ budget table visiting bindings := by
    unfold budget
    split <;> omega
  omega

theorem resolves_ofType {f : String → List TypeExpr → Place → Shape}
    (h : ∀ name args p, Resolves table limit visiting bindings (.named name args) p (f name args p))
    (ty : TypeExpr) (p : Place) :
    Resolves table limit visiting bindings ty p (ofType limit f ty p) := by
  fun_induction ofType limit f ty p with
  | case1 => exact .scalar
  | case2 => exact .formatted
  | case3 => exact .literals
  | case4 => exact .map
  | case5 => exact .unknown
  | case6 item p shape hdepth => exact .arrayCut hdepth
  | case7 item p shape hdepth ih => exact .array (Nat.lt_of_not_le hdepth) ih
  | case8 inner p shape ih => exact .optional ih
  | case9 name args p => exact h name args p

/-- Within the budget, look-ups follow the rules. -/
theorem resolves_ofName (hfuel : budget table visiting bindings ≤ fuel) (name : String)
    (args : List TypeExpr) (p : Place) :
    Resolves table limit visiting bindings (.named name args) p
      (ofName table limit fuel visiting bindings name args p) := by
  induction fuel generalizing visiting bindings name args p with
  | zero =>
    obtain ⟨rest, hrest⟩ := exists_succ_of_budget_le hfuel
    omega
  | succ fuel ih =>
    unfold ofName
    split
    · next ty hbound =>
      exact .bound hbound (resolves_ofType (ih (budget_bound_le hbound hfuel)) _ _)
    · next hfree =>
      split
      · next hget => exact .missing hfree hget
      · next decl hget =>
        have hinside (hvisiting : decl.name ∉ visiting) (frame : Bindings) (ty : TypeExpr) (p : Place) :=
          resolves_ofType (ih (budget_enter_le hget hvisiting hfuel frame)) ty p
        split
        · next values hbody => exact .enum hfree hget hbody
        · next target hbody =>
          split
          · next hcut => exact .synonymCut hfree hget hbody (by simpa using hcut)
          · next hcut =>
            have hvisiting : decl.name ∉ visiting := by simpa using hcut
            exact .synonym hfree hget hbody hvisiting (hinside hvisiting bindings target p)
        · next fields hbody =>
          split
          · next hcut => exact .recordCut hfree hget hbody (by simpa using hcut)
          · next hcut =>
            obtain ⟨hvisiting, hdepth⟩ : decl.name ∉ visiting ∧ p.depth < limit := by simpa using hcut
            exact .record hfree hget hbody hvisiting hdepth rfl fun field _ _ =>
              hinside hvisiting _ field.ty _

theorem Visit.shape_congr {x : Visit} {base base' : FieldDecl → Shape}
    (h : ∀ field ∈ x.fields, x.asks field → base field = base' field) : x.shape base = x.shape base' := by
  apply List.foldl_ext
  intro shape field hfield
  by_cases hembedded : field.isEmbedded = true
  · simp [add, hembedded, h field hfield (.inl hembedded)]
  · by_cases hopen : x.leavesOpen field = true
    · simp [add, hembedded, member, hopen]
    · simp [add, hembedded, h field hfield (.inr (by simpa using hopen))]

/-- What the rules give is what is computed within the budget. -/
theorem Resolves.eq_ofType {p : Place} {s : Shape} (h : Resolves table limit visiting bindings ty p s)
    (hfuel : budget table visiting bindings ≤ fuel) :
    s = ofType limit (ofName table limit fuel visiting bindings) ty p := by
  induction h generalizing fuel with
  | scalar => rfl
  | formatted => rfl
  | literals => rfl
  | map => rfl
  | unknown => rfl
  | arrayCut hdepth => simp [ofType, hdepth]
  | array hdepth _ ih => simp [ofType, Nat.not_le_of_lt hdepth, ← ih hfuel]
  | optional _ ih => simp [ofType, ← ih hfuel]
  | bound hbound _ ih =>
    obtain ⟨fuel, rfl⟩ := exists_succ_of_budget_le hfuel
    simp [ofType, ofName, hbound, ← ih (budget_bound_le hbound hfuel)]
  | missing hfree hget =>
    obtain ⟨fuel, rfl⟩ := exists_succ_of_budget_le hfuel
    simp [ofType, ofName, hfree, hget]
  | enum hfree hget hbody =>
    obtain ⟨fuel, rfl⟩ := exists_succ_of_budget_le hfuel
    simp [ofType, ofName, hfree, hget, hbody]
  | synonymCut hfree hget hbody hvisiting =>
    obtain ⟨fuel, rfl⟩ := exists_succ_of_budget_le hfuel
    simp [ofType, ofName, hfree, hget, hbody, hvisiting]
  | synonym hfree hget hbody hvisiting _ ih =>
    obtain ⟨fuel, rfl⟩ := exists_succ_of_budget_le hfuel
    simp [ofType, ofName, hfree, hget, hbody, hvisiting,
      ← ih (budget_enter_le hget hvisiting hfuel _)]
  | recordCut hfree hget hbody hcut =>
    obtain ⟨fuel, rfl⟩ := exists_succ_of_budget_le hfuel
    simp [ofType, ofName, hfree, hget, hbody, hcut]
  | record hfree hget hbody hvisiting hdepth henter _ ih =>
    obtain ⟨fuel, rfl⟩ := exists_succ_of_budget_le hfuel
    subst henter
    simp only [ofType, ofName, hfree, hget, hbody]
    rw [if_neg (by simp [hvisiting, hdepth])]
    exact Visit.shape_congr fun field hfield hasks =>
      ih field hfield hasks (budget_enter_le hget hvisiting hfuel _)

end

def resolveIn (table : TypeTable) (limit : Nat) (visiting : List String) (bindings : Bindings)
    (ty : TypeExpr) (p : Place) : Shape :=
  ofType limit (ofName table limit (budget table visiting bindings) visiting bindings) ty p

theorem resolves_iff {table : TypeTable} {limit : Nat} {visiting : List String} {bindings : Bindings}
    {p : Place} {s : Shape} :
    Resolves table limit visiting bindings ty p s ↔ s = resolveIn table limit visiting bindings ty p := by
  refine ⟨fun h => h.eq_ofType (Nat.le_refl _), ?_⟩
  rintro rfl
  exact resolves_ofType (resolves_ofName (Nat.le_refl _)) ty p

def Place.root (origin : Origin) : Place := ⟨"", origin, 0, false⟩

theorem resolves_resolve (table : TypeTable) (maxDepth : Nat) (ty : TypeExpr) (origin : Origin) :
    Resolves table (max maxDepth 1) [] [] ty (.root origin) (resolve table maxDepth (.typed ty origin)) := by
  have hbudget : budget table [] [] ≤ 2 * table.size + 2 := by
    simp [budget, unentered, TypeTable.size]
  exact resolves_ofType (resolves_ofName hbudget) ty _

theorem resolve_eq_resolveIn (table : TypeTable) (maxDepth : Nat) (ty : TypeExpr) (origin : Origin) :
    resolve table maxDepth (.typed ty origin) =
      resolveIn table (max maxDepth 1) [] [] ty (.root origin) :=
  resolves_iff.mp (resolves_resolve table maxDepth ty origin)

namespace Visit

theorem depth_placeOf_own {x : Visit} (h : field.isEmbedded = false) :
    (x.placeOf field).depth = x.place.depth + 1 := by
  simp [placeOf, h]

theorem depth_placeOf_embedded {x : Visit} (h : field.isEmbedded = true) :
    (x.placeOf field).depth = x.place.depth := by
  simp [placeOf, h]

theorem member_of_open {x : Visit} (h : x.leavesOpen field = true) (base : Shape) :
    x.member field base = withField field (x.origin field) (obscure field.wire (x.origin field)) := by
  rw [member, if_pos h]

theorem member_of_filled {x : Visit} (h : x.leavesOpen field = false) (base : Shape) :
    x.member field base = withField field (x.origin field) base := by
  rw [member, if_neg (by simp [h])]

variable (x : Visit) (base : FieldDecl → Shape)

/-- A record differs from one without members in its members and in how well they are known. -/
theorem exists_shape_eq : ∃ children confidence,
    x.shape base = { x.bare with children, confidence } := by
  have hfold (fields : List FieldDecl) (s : Shape) : ∃ children confidence,
      fields.foldl (x.add base) s = { s with children, confidence } := by
    induction fields generalizing s with
    | nil =>
      refine ⟨s.children, s.confidence, ?_⟩
      cases s
      rfl
    | cons field fields ih =>
      obtain ⟨children, confidence, hrest⟩ := ih (x.add base s field)
      refine ⟨children, confidence, ?_⟩
      rw [List.foldl_cons, hrest, add]
      split <;> rfl
  exact hfold x.fields x.bare

theorem items_shape : (x.shape base).items = none := by
  obtain ⟨children, confidence, hshape⟩ := x.exists_shape_eq base
  rw [hshape]
  rfl

variable {x base}

theorem mem_children_shape {c : Shape} (h : c ∈ (x.shape base).children) : ∃ field ∈ x.fields,
    (field.isEmbedded = false ∧ c = x.member field (base field)) ∨
      (field.isEmbedded = true ∧ c ∈ (base field).children) := by
  have hfold (fields : List FieldDecl) (s : Shape) (hc : c ∈ (fields.foldl (x.add base) s).children) :
      c ∈ s.children ∨ ∃ field ∈ fields,
        (field.isEmbedded = false ∧ c = x.member field (base field)) ∨
          (field.isEmbedded = true ∧ c ∈ (base field).children) := by
    induction fields generalizing s with
    | nil => exact .inl hc
    | cons field fields ih =>
      rcases ih (x.add base s field) hc with hc | ⟨f, hf, hc⟩
      · cases hembedded : field.isEmbedded with
        | true =>
          simp only [add, hembedded, if_true, splice, List.mem_append] at hc
          refine hc.imp_right fun hc => ⟨field, List.mem_cons_self, .inr ⟨hembedded, ?_⟩⟩
          exact Keyed.mem_of_mem_firstsFrom hc
        | false =>
          simp only [add, hembedded, Bool.false_eq_true, if_false, List.mem_append,
            List.mem_singleton] at hc
          exact hc.imp_right fun hc => ⟨field, List.mem_cons_self, .inl ⟨hembedded, hc⟩⟩
      · exact .inr ⟨f, List.mem_cons_of_mem _ hf, hc⟩
  rcases hfold x.fields x.bare h with hc | hc
  · simp [bare, plain] at hc
  · exact hc

end Visit

end Concord.Shape
