import Concord.Proofs.Readers
import Concord.Proofs.ShapeTrees

/-! The walk meets a change to one participant's shape at the place of the change only: its findings
are those on the part that changed, under the path of that part. -/
namespace Concord

variable {P : Participant → Prop} {part : Shape → Option Shape}

def pathAlong (path : String) (steps : List Step) : String :=
  steps.foldl (fun path step => FieldPath.join path step.name) path

namespace FieldSchema

/-- The field that a step leads to. Nothing is inside a field that is cut off. -/
def step? (f : FieldSchema) : Step → Option FieldSchema
  | .member name =>
    if f.type = .object ∧ f.truncated = false then f.children.find? (·.name == name) else none
  | .item => if f.type = .array ∧ f.truncated = false then f.items else none

def at? : List Step → FieldSchema → Option FieldSchema
  | [], f => some f
  | step :: rest, f => (f.step? step).bind (at? rest)

theorem at?_append (steps rest : List Step) (f : FieldSchema) :
    f.at? (steps ++ rest) = (f.at? steps).bind (at? rest) := by
  induction steps generalizing f with
  | nil => rfl
  | cons step steps ih =>
    simp only [List.cons_append, at?, Option.bind_assoc]
    congr 1
    funext g
    exact ih g

end FieldSchema

theorem mem_of_find?_name {fields : List FieldSchema} {f : FieldSchema} {name : String}
    (h : fields.find? (·.name == name) = some f) : f ∈ fields ∧ f.name = name :=
  ⟨List.mem_of_find?_eq_some h, by simpa using List.find?_some h⟩

def fieldAt? (fields : Payload) : List Step → Option FieldSchema
  | .member name :: rest => (fields.find? (·.name == name)).bind (FieldSchema.at? rest)
  | _ => none

namespace Shape

/-- A shape with the part at the end of some steps changed. -/
def update (g : Shape → Shape) : List Step → Shape → Shape
  | [], s => g s
  | .member name :: rest, s =>
    { s with children := s.children.map fun c => if c.name = name then update g rest c else c }
  | .item :: rest, s => { s with items := s.items.map (update g rest) }

section Update

variable {g : Shape → Shape} {steps : List Step} {s : Shape} {name : String}

theorem name_update (hg : ∀ s, (g s).name = s.name) (steps : List Step) (s : Shape) :
    (s.update g steps).name = s.name := by
  cases steps with
  | nil => exact hg s
  | cons step rest => cases step <;> rfl

theorem names_update (hg : ∀ s, (g s).name = s.name) :
    (s.update g (.member name :: steps)).children.map (·.name) = s.children.map (·.name) := by
  simp only [update, List.map_map]
  apply List.map_congr_left
  intro c _
  by_cases hc : c.name = name <;> simp [hc, name_update hg]

theorem child?_update (hg : ∀ s, (g s).name = s.name) (other : String) :
    (s.update g (.member name :: steps)).child? other =
      (s.child? other).map fun c => if other = name then c.update g steps else c := by
  have hsame : ((fun c : Shape => c.name == other) ∘
      fun c => if c.name = name then c.update g steps else c) = fun c => c.name == other := by
    funext c
    by_cases hc : c.name = name <;> simp [hc, name_update hg]
  simp only [update, child?, List.find?_map, hsame]
  apply Option.map_congr
  intro c hc
  have hname : c.name = other := by simpa using List.find?_some hc
  rw [hname]

end Update

end Shape

namespace Comparison

theorem Agrees.inside {f : FieldSchema} {s : Shape} (h : Agrees f s) (children : List Shape)
    (items : Option Shape) : Agrees f { s with children, items } :=
  ⟨h.name, h.kind, h.format, h.unit, h.range, h.enumValues, h.required, h.validated, h.declared,
    h.anonymous⟩

theorem Agrees.update {f : FieldSchema} {s : Shape} (h : Agrees f s) (g : Shape → Shape)
    (step : Step) (rest : List Step) : Agrees f (s.update g (step :: rest)) := by
  cases step with
  | member name => exact h.inside _ s.items
  | item => exact h.inside s.children _

/-- Who takes part, apart from the shape. -/
def Participant.who (p : Participant) : Binding × Bool := (p.binding, p.supplier)

@[simp] theorem Participant.who_inside (p : Participant) (s : Shape) : (p.inside s).who = p.who := rfl

/-- Participants of whom one is singled out. -/
structure Focus where
  before : List Participant
  one : Participant
  after : List Participant

namespace Focus

variable {c d : Focus} {g : Shape → Shape} {p : Participant}

def others (c : Focus) : List Participant := c.before ++ c.after

def all (c : Focus) : List Participant := c.before ++ c.one :: c.after

def altered (c : Focus) (g : Shape → Shape) : List Participant :=
  c.before ++ c.one.inside (g c.one.shape) :: c.after

theorem mem_all : p ∈ c.all ↔ p = c.one ∨ p ∈ c.others := by
  simp only [all, others, List.mem_append, List.mem_cons]
  exact or_left_comm

theorem mem_altered : p ∈ c.altered g ↔ p = c.one.inside (g c.one.shape) ∨ p ∈ c.others := by
  simp only [altered, others, List.mem_append, List.mem_cons]
  exact or_left_comm

theorem one_mem_all (c : Focus) : c.one ∈ c.all := mem_all.mpr (.inl rfl)

theorem mem_all_of_others (h : p ∈ c.others) : p ∈ c.all := mem_all.mpr (.inr h)

theorem forall_altered (hall : ∀ p ∈ c.all, P p) (hone : P c.one → P (c.one.inside (g c.one.shape))) :
    ∀ p ∈ c.altered g, P p := by
  intro p hp
  rcases mem_altered.mp hp with rfl | hp
  · exact hone (hall _ c.one_mem_all)
  · exact hall p (mem_all_of_others hp)

theorem filterMap_altered {α : Type} {h : Participant → Option α}
    (hothers : ∀ p ∈ c.others, h p = none) :
    (c.altered g).filterMap h = (h (c.one.inside (g c.one.shape))).toList := by
  have hbefore : c.before.filterMap h = [] :=
    List.filterMap_eq_nil_iff.mpr fun p hp => hothers p (List.mem_append_left _ hp)
  have hafter : c.after.filterMap h = [] :=
    List.filterMap_eq_nil_iff.mpr fun p hp => hothers p (List.mem_append_right _ hp)
  rw [altered, List.filterMap_append, List.filterMap_cons, hbefore, hafter]
  cases h (c.one.inside (g c.one.shape)) <;> rfl

/-- The same participants take part, maybe at another place. -/
structure Same (c d : Focus) : Prop where
  one : d.one.who = c.one.who
  all : d.all.map (·.who) = c.all.map (·.who)

theorem Same.refl (c : Focus) : Same c c := ⟨rfl, rfl⟩

theorem Same.trans {e : Focus} (h : Same c d) (h' : Same d e) : Same c e :=
  ⟨h'.one.trans h.one, h'.all.trans h.all⟩

theorem Same.suppliers {t : Participant} (h : Same c d)
    (hsuppliers : c.all.filter (·.supplier) = [t]) :
    ∃ t', d.all.filter (·.supplier) = [t'] ∧ t'.binding = t.binding := by
  have hwho (ps : List Participant) :
      (ps.filter (·.supplier)).map (·.who) = (ps.map (·.who)).filter (·.2) := by
    rw [List.filter_map]
    rfl
  have hone : (d.all.filter (·.supplier)).map (·.who) = [t.who] := by
    rw [hwho, h.all, ← hwho, hsuppliers, List.map_singleton]
  obtain ⟨t', hsuppliers', ht'⟩ := List.map_eq_singleton_iff.mp hone
  exact ⟨t', hsuppliers', congrArg Prod.fst ht'⟩

theorem map_who_inside {ps : List Participant} (h : ∀ p ∈ ps, ∃ s, part p.shape = some s) :
    (ps.filterMap fun p => (part p.shape).map p.inside).map (·.who) = ps.map (·.who) := by
  induction ps with
  | nil => rfl
  | cons p ps ih =>
    obtain ⟨⟨s, hs⟩, hps⟩ := List.forall_mem_cons.mp h
    simp [hs, ih hps]

/-- All participants go inside, to a part that each of them has. -/
theorem exists_inside (h : ∀ p ∈ c.all, ∃ s, part p.shape = some s ∧ P (p.inside s)) :
    ∃ d, Same c d ∧ (∀ p ∈ d.all, P p) ∧
      ∀ g g' : Shape → Shape, part (g' c.one.shape) = (part c.one.shape).map g →
        (c.altered g').filterMap (fun p => (part p.shape).map p.inside) = d.altered g := by
  obtain ⟨s, hs, hone⟩ := h c.one c.one_mem_all
  let inside (ps : List Participant) := ps.filterMap fun p => (part p.shape).map p.inside
  have hall : inside c.all = inside c.before ++ c.one.inside s :: inside c.after := by
    simp [inside, all, hs]
  refine ⟨⟨inside c.before, c.one.inside s, inside c.after⟩, ⟨rfl, ?_⟩, ?_, ?_⟩
  · have hpart : ∀ p ∈ c.all, ∃ s, part p.shape = some s := by
      intro p hp
      obtain ⟨s, hs, -⟩ := h p hp
      exact ⟨s, hs⟩
    rw [← map_who_inside hpart, all, ← hall]
  · intro q hq
    rw [all, ← hall] at hq
    obtain ⟨p, hp, hinside⟩ := List.mem_filterMap.mp hq
    obtain ⟨s, hs, hP⟩ := h p hp
    rw [hs] at hinside
    exact Option.some.inj hinside ▸ hP
  · intro g g' hg
    have hpart : part (g' c.one.shape) = some (g s) := by rw [hg, hs, Option.map_some]
    simp [inside, altered, Participant.inside, hpart]

end Focus

section Walk

variable {x : Exchange} {path : String} {ps : List Participant} {f target : FieldSchema}
  {fields : List FieldSchema} {c : Focus} {g : Shape → Shape}

theorem memberFindings_eq (x : Exchange) (declared : List String) (path : String)
    (ps : List Participant) (fields : List FieldSchema) :
    memberFindings x declared path ps fields = fields.flatMap fun f =>
      ps.flatMap (presence x declared f (FieldPath.join path f.name)) ++
        fieldFindings x (FieldPath.join path f.name)
          (ps.filterMap fun p => (carrier? declared f p.shape).map p.inside) f := by
  induction fields with
  | nil => rfl
  | cons f fields ih => simp [memberFindings, ih]

theorem flatMap_eq_of_silent {onField : FieldSchema → List Finding}
    (hnames : (fields.map (·.name)).Nodup) (hf : f ∈ fields)
    (hsilent : ∀ f' ∈ fields, f'.name ≠ f.name → onField f' = []) :
    fields.flatMap onField = onField f := by
  induction fields with
  | nil => cases hf
  | cons f' fields ih =>
    rw [List.map_cons, List.nodup_cons] at hnames
    obtain ⟨hfirst, hrest⟩ := List.forall_mem_cons.mp hsilent
    rw [List.flatMap_cons]
    rcases List.mem_cons.mp hf with rfl | hf
    · have hnone : fields.flatMap onField = [] := by
        apply List.flatMap_eq_nil_iff.mpr
        intro f' hf'
        apply hrest f' hf'
        intro heq
        exact hnames.1 (heq ▸ List.mem_map_of_mem hf')
      rw [hnone, List.append_nil]
    · have hne : f'.name ≠ f.name := by
        intro heq
        exact hnames.1 (heq ▸ List.mem_map_of_mem hf)
      rw [hfirst hne, ih hnames.2 hf hrest, List.nil_append]

theorem carrier?_eq {declared : List String} {s part : Shape} (h : s.child? f.name = some part) :
    carrier? declared f s = some part := by
  rw [carrier?, h, Option.some_or]

theorem presence_eq_nil {declared : List String} {p : Participant}
    (h : f.name ∈ p.shape.children.map (·.name)) : presence x declared f path p = [] := by
  obtain ⟨s, hs, -⟩ := exists_child_of_mem h
  rw [presence, hs]

/-- A change of a shape that leaves all members but the one of a name as they are. -/
structure ChangesOnly (name : String) (g : Shape → Shape) (s : Shape) : Prop where
  others : ∀ other, other ≠ name → (g s).child? other = s.child? other
  names : ∀ other ∈ (g s).children.map (·.name), other ∈ s.children.map (·.name)

/-- Where the members of one name were changed in one participant, there is nothing to say but about
the field of that name, and about drifts. -/
theorem objectFindings_changed (hnames : (fields.map (·.name)).Nodup)
    (hsilent : ∀ f ∈ fields, SilentOn x f) (hc : ∀ p ∈ c.all, FaithfulAll x fields p) (hf : f ∈ fields)
    (hg : ChangesOnly f.name g c.one.shape) :
    objectFindings x fields path (c.altered g)
        (memberFindings x (fields.map (·.name)) path (c.altered g) fields) =
      drifts x path (c.altered g) ++
        ((c.altered g).flatMap (presence x (fields.map (·.name)) f (FieldPath.join path f.name)) ++
          fieldFindings x (FieldPath.join path f.name) ((c.altered g).filterMap fun p =>
            (carrier? (fields.map (·.name)) f p.shape).map p.inside) f) := by
  have hone : FaithfulAll x fields c.one := hc _ c.one_mem_all
  have hextras : (c.altered g).flatMap (extras x fields path) = [] := by
    apply List.flatMap_eq_nil_iff.mpr
    apply Focus.forall_altered
    · exact fun p hp => extras_eq_nil fun _ h => (hc p hp).names ▸ h
    · exact fun _ => extras_eq_nil fun name h => hone.names ▸ hg.names name h
  have hchild {f' : FieldSchema} (hf' : f' ∈ fields) (hne : f'.name ≠ f.name) :
      ∀ p ∈ c.altered g, ∃ s, p.shape.child? f'.name = some s ∧ Faithful x f' (p.inside s) := by
    apply Focus.forall_altered
    · exact fun p hp => (hc p hp).exists_child hnames hf'
    · rintro ⟨s, hs, hfaithful⟩
      exact ⟨s, (hg.others _ hne).trans hs, hfaithful⟩
  have hfields : fields.isEmpty = false := List.isEmpty_eq_false_iff.mpr (List.ne_nil_of_mem hf)
  rw [objectFindings, hfields, hextras, List.append_nil, memberFindings_eq,
    flatMap_eq_of_silent hnames hf]
  · rfl
  · intro f' hf' hne
    apply List.append_eq_nil_iff.mpr ⟨?_, ?_⟩
    · apply List.flatMap_eq_nil_iff.mpr
      intro p hp
      obtain ⟨s, hs, -⟩ := hchild hf' hne p hp
      rw [presence, hs]
    · apply hsilent f' hf'
      intro q hq
      obtain ⟨p, hp, hinside⟩ := List.mem_filterMap.mp hq
      obtain ⟨s, hs, hfaithful⟩ := hchild hf' hne p hp
      rw [carrier?_eq hs] at hinside
      exact Option.some.inj hinside ▸ hfaithful

/-- One step of the walk, into a member of an object. -/
theorem exists_member (hnames : (fields.map (·.name)).Nodup) (hsilent : ∀ f ∈ fields, SilentOn x f)
    (hc : ∀ p ∈ c.all, FaithfulAll x fields p) (hf : f ∈ fields) :
    ∃ d, Focus.Same c d ∧ (∀ p ∈ d.all, Faithful x f p) ∧
      ∀ (g : Shape → Shape) (rest : List Step) (path : String), (∀ s, (g s).name = s.name) →
        objectFindings x fields path (c.altered (Shape.update g (.member f.name :: rest)))
          (memberFindings x (fields.map (·.name)) path
            (c.altered (Shape.update g (.member f.name :: rest))) fields) =
          fieldFindings x (FieldPath.join path f.name) (d.altered (Shape.update g rest)) f := by
  have hone : FaithfulAll x fields c.one := hc _ c.one_mem_all
  have hcarriers : ∀ p ∈ c.all, ∃ s, carrier? (fields.map (·.name)) f p.shape = some s ∧
      Faithful x f (p.inside s) := by
    intro p hp
    obtain ⟨s, hs, hfaithful⟩ := (hc p hp).exists_child hnames hf
    exact ⟨s, carrier?_eq hs, hfaithful⟩
  obtain ⟨d, hsame, hfaithful, haltered⟩ := Focus.exists_inside hcarriers
  refine ⟨d, hsame, hfaithful, ?_⟩
  intro g rest path hg
  have hkept : ∀ p ∈ c.altered (Shape.update g (.member f.name :: rest)),
      p.shape.children.map (·.name) = fields.map (·.name) := by
    apply Focus.forall_altered
    · exact fun p hp => (hc p hp).names
    · exact fun h => (Shape.names_update hg).trans h
  have hchanges : ChangesOnly f.name (Shape.update g (.member f.name :: rest)) c.one.shape := by
    constructor
    · intro other hne
      simp [Shape.child?_update hg, hne]
    · intro other hother
      rwa [Shape.names_update hg] at hother
  have hpresence : (c.altered (Shape.update g (.member f.name :: rest))).flatMap
      (presence x (fields.map (·.name)) f (FieldPath.join path f.name)) = [] := by
    apply List.flatMap_eq_nil_iff.mpr
    intro p hp
    apply presence_eq_nil
    rw [hkept p hp]
    exact List.mem_map_of_mem hf
  have hcarrier : carrier? (fields.map (·.name)) f
      (Shape.update g (.member f.name :: rest) c.one.shape) =
        (carrier? (fields.map (·.name)) f c.one.shape).map (Shape.update g rest) := by
    obtain ⟨s, hs, -⟩ := hone.exists_child hnames hf
    rw [carrier?_eq hs]
    apply carrier?_eq
    simp [Shape.child?_update hg, hs]
  rw [objectFindings_changed hnames hsilent hc hf hchanges, drifts_eq_nil hkept, hpresence,
    haltered _ _ hcarrier]
  rfl

theorem Faithful.exists_item {i : FieldSchema} {p : Participant} (h : Faithful x f p)
    (htruncated : f.truncated = false) (hi : f.items = some i) :
    ∃ s, p.shape.items = some s ∧ Faithful x i (p.inside s) := by
  have hinside := (mirrors_iff.mp h.mirrors).2
  rw [htruncated, hi] at hinside
  cases hitems : p.shape.items with
  | none =>
    rw [hitems] at hinside
    simp [mirrorsItem] at hinside
  | some s => exact ⟨s, rfl, h.item htruncated hi hitems⟩

theorem fieldFindings_array {i : FieldSchema} (htruncated : f.truncated = false)
    (htype : f.type = .array) (hi : f.items = some i) :
    fieldFindings x path ps f = (fieldMismatches x f path ps).map .plain ++
      fieldFindings x (FieldPath.join path "[]") (ps.filterMap fun p => p.shape.items.map p.inside)
        i := by
  rw [fieldFindings_eq, htruncated, htype, hi]
  rfl

theorem fieldMismatches_update (hx : ∀ cls, x.conventions.forClass? cls = none)
    (hc : ∀ p ∈ c.all, Faithful x f p) (step : Step) (rest : List Step) :
    fieldMismatches x f path (c.altered (Shape.update g (step :: rest))) = [] := by
  apply fieldMismatches_eq_nil hx
  apply Focus.forall_altered
  · exact fun p hp => (hc p hp).accords
  · exact fun h => ⟨h.quiet, h.casing, h.agrees.update g step rest⟩

theorem filter_objects (htype : f.type = .object) (hps : ∀ p ∈ ps, Agrees f p.shape) :
    ps.filter (·.shape.kind = .object) = ps := by
  apply List.filter_eq_self.mpr
  intro p hp
  simp [(hps p hp).kind, htype, kindOf]

/-- The walk to the end of some steps from a field: all it says of a change there is what it says at
that place. -/
theorem exists_at (hx : ∀ cls, x.conventions.forClass? cls = none) {steps : List Step}
    (hat : f.at? steps = some target) (hf : f.every FieldSchema.distinctMembers = true)
    (hc : ∀ p ∈ c.all, Faithful x f p) :
    target.every FieldSchema.distinctMembers = true ∧
      ∃ d, Focus.Same c d ∧ (∀ p ∈ d.all, Faithful x target p) ∧
        ∀ (g : Shape → Shape) (path : String), (∀ s, (g s).name = s.name) →
          fieldFindings x path (c.altered (Shape.update g steps)) f =
            fieldFindings x (pathAlong path steps) (d.altered g) target := by
  -- each step leads all participants one level down, and leaves a level that is silent
  induction steps generalizing f c with
  | nil =>
    obtain rfl := Option.some.inj hat
    exact ⟨hf, c, .refl c, hc, fun _ _ _ => rfl⟩
  | cons step rest ih =>
    obtain ⟨f', hstep, hrest⟩ := Option.bind_eq_some_iff.mp hat
    obtain ⟨hdistinct, hitem⟩ := FieldSchema.every_distinctMembers_iff.mp hf
    cases step with
    | member name =>
      obtain ⟨⟨htype, htruncated⟩, hfind⟩ := Option.ite_none_right_eq_some.mp hstep
      obtain ⟨hmem, rfl⟩ := mem_of_find?_name hfind
      have hmembers : ∀ p ∈ c.all, FaithfulAll x f.children p :=
        fun p hp => (hc p hp).members htruncated
      obtain ⟨d, hsame, hd, hfindings⟩ :=
        exists_member hdistinct.names (silentOn_members hx hdistinct) hmembers hmem
      obtain ⟨htarget, d', hsame', hd', hfindings'⟩ := ih hrest (hdistinct.inside f' hmem) hd
      refine ⟨htarget, d', hsame.trans hsame', hd', ?_⟩
      intro g path hg
      have hobjects : ∀ p ∈ c.altered (Shape.update g (.member f'.name :: rest)),
          Agrees f p.shape := by
        apply Focus.forall_altered
        · exact fun p hp => (hc p hp).agrees
        · exact fun h => h.update g _ rest
      rw [fieldFindings_object htruncated htype, fieldMismatches_update hx hc,
        filter_objects htype hobjects, hfindings g rest path hg, hfindings' g _ hg]
      rfl
    | item =>
      obtain ⟨⟨htype, htruncated⟩, hitems⟩ := Option.ite_none_right_eq_some.mp hstep
      obtain ⟨d, hsame, hd, haltered⟩ := Focus.exists_inside fun p hp =>
        (hc p hp).exists_item htruncated hitems
      obtain ⟨htarget, d', hsame', hd', hfindings'⟩ := ih hrest (hitem f' hitems) hd
      refine ⟨htarget, d', hsame.trans hsame', hd', ?_⟩
      intro g path hg
      rw [fieldFindings_array htruncated htype hitems, fieldMismatches_update hx hc,
        haltered (Shape.update g rest) _ rfl, hfindings' g _ hg]
      rfl

theorem exists_fieldAt (hx : ∀ cls, x.conventions.forClass? cls = none) {steps : List Step}
    (hat : fieldAt? fields steps = some target) (hfields : DistinctNames fields)
    (hc : ∀ p ∈ c.all, FaithfulAll x fields p) :
    target.every FieldSchema.distinctMembers = true ∧
      ∃ d, Focus.Same c d ∧ (∀ p ∈ d.all, Faithful x target p) ∧
        ∀ g : Shape → Shape, (∀ s, (g s).name = s.name) →
          payloadFindings x fields (c.altered (Shape.update g steps)) =
            fieldFindings x (pathAlong "" steps) (d.altered g) target := by
  cases steps with
  | nil => cases hat
  | cons step rest =>
    cases step with
    | item => cases hat
    | member name =>
      obtain ⟨f, hfind, hrest⟩ := Option.bind_eq_some_iff.mp hat
      obtain ⟨hmem, rfl⟩ := mem_of_find?_name hfind
      obtain ⟨d, hsame, hd, hfindings⟩ :=
        exists_member hfields.names (silentOn_members hx hfields) hc hmem
      obtain ⟨htarget, d', hsame', hd', hfindings'⟩ := exists_at hx hrest (hfields.inside f hmem) hd
      refine ⟨htarget, d', hsame.trans hsame', hd', ?_⟩
      intro g hg
      rw [payloadFindings_eq, hfindings g rest "" hg, hfindings' g _ hg]
      rfl

end Walk

end Comparison

end Concord
