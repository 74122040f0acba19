import Concord.Proofs.CleanInput

/-! Who reads a payload is judged by the manifest and by those who write it. A reader that comes or
goes takes its own findings along and leaves those on all others as they are, but for drifts, which
are between two. -/
namespace Concord

/-- The elements of two lists in one, those of each in their order. -/
inductive Interleave {α : Type} : List α → List α → List α → Prop
  | nil : Interleave [] [] []
  | left {a : α} {xs ys zs : List α} (h : Interleave xs ys zs) : Interleave (a :: xs) ys (a :: zs)
  | right {a : α} {xs ys zs : List α} (h : Interleave xs ys zs) : Interleave xs (a :: ys) (a :: zs)

namespace Interleave

variable {α β : Type} {xs xs' ys ys' zs zs' : List α}

theorem of_left (xs : List α) : Interleave xs [] xs := by
  induction xs with
  | nil => exact .nil
  | cons a xs ih => exact .left ih

theorem of_right (ys : List α) : Interleave [] ys ys := by
  induction ys with
  | nil => exact .nil
  | cons a ys ih => exact .right ih

theorem append (h : Interleave xs ys zs) (h' : Interleave xs' ys' zs') :
    Interleave (xs ++ xs') (ys ++ ys') (zs ++ zs') := by
  induction h with
  | nil => exact h'
  | left _ ih => exact .left ih
  | right _ ih => exact .right ih

theorem flatMap (f : α → List β) (h : Interleave xs ys zs) :
    Interleave (xs.flatMap f) (ys.flatMap f) (zs.flatMap f) := by
  induction h with
  | nil => exact .nil
  | left _ ih =>
    simp only [List.flatMap_cons]
    exact (of_left _).append ih
  | right _ ih =>
    simp only [List.flatMap_cons]
    exact (of_right _).append ih

theorem filterMap (f : α → Option β) (h : Interleave xs ys zs) :
    Interleave (xs.filterMap f) (ys.filterMap f) (zs.filterMap f) := by
  simp only [List.filterMap_eq_flatMap_toList]
  exact h.flatMap _

theorem filter (p : α → Bool) (h : Interleave xs ys zs) :
    Interleave (xs.filter p) (ys.filter p) (zs.filter p) := by
  simp only [← List.filterMap_eq_filter]
  exact h.filterMap _

theorem eq_of_nil_left (h : Interleave [] ys zs) : ys = zs := by
  generalize hxs : ([] : List α) = xs at h
  induction h with
  | nil => rfl
  | left => cases hxs
  | right _ ih => rw [ih hxs]

theorem sublist (h : Interleave xs ys zs) : ys.Sublist zs := by
  induction h with
  | nil => exact .slnil
  | left _ ih => exact ih.cons _
  | right _ ih => exact ih.cons_cons _

theorem mem_or_mem {a : α} (h : Interleave xs ys zs) (ha : a ∈ zs) : a ∈ xs ∨ a ∈ ys := by
  induction h with
  | nil => cases ha
  | left _ ih =>
    rcases List.mem_cons.mp ha with rfl | ha
    · exact .inl List.mem_cons_self
    · exact (ih ha).imp_left (List.mem_cons_of_mem _)
  | right _ ih =>
    rcases List.mem_cons.mp ha with rfl | ha
    · exact .inr List.mem_cons_self
    · exact (ih ha).imp_right (List.mem_cons_of_mem _)

theorem filterMap_eq {g : α → Option β} (h : Interleave xs ys zs) (hg : ∀ a ∈ xs, g a = none) :
    zs.filterMap g = ys.filterMap g := by
  have hfound := h.filterMap g
  rw [List.filterMap_eq_nil_iff.mpr hg] at hfound
  exact hfound.eq_of_nil_left.symm

end Interleave

namespace Comparison

/-- The shapes inside a shape, and the shape itself. -/
inductive Holds : Shape → Shape → Prop
  | refl (s : Shape) : Holds s s
  | child {s c part : Shape} (hc : c ∈ s.children) (h : Holds c part) : Holds s part
  | item {s i part : Shape} (hi : s.items = some i) (h : Holds i part) : Holds s part

/-- The findings of the checks of one participant. -/
inductive Verdict (x : Exchange) (p : Participant) : Mismatch → Prop
  | presence {declared : List String} {f : FieldSchema} {path : String} {m : Mismatch}
    (h : .plain m ∈ presence x declared f path p) : Verdict x p m
  | value {f : FieldSchema} {path : String} {m : Mismatch}
    (h : valueMismatch? x f path p = some m) : Verdict x p m
  | quantity {f : FieldSchema} {path : String} {ps : List Participant} {m : Mismatch}
    (h : quantityMismatch? x f path ps p = some m) : Verdict x p m
  | strictness {f : FieldSchema} {path : String} {m : Mismatch}
    (h : strictnessMismatch? x f p path = some m) : Verdict x p m
  | extra {fields : List FieldSchema} {path : String} {m : Mismatch}
    (h : .plain m ∈ extras x fields path p) : Verdict x p m

/-- A finding about one of several participants, at the place of the walk or inside. -/
def AboutOne (x : Exchange) (ps : List Participant) (m : Mismatch) : Prop :=
  ∃ p ∈ ps, ∃ part, Holds p.shape part ∧ Verdict x (p.inside part) m

/-- All findings are those of before, between which stand others that satisfy `A`. -/
def Joined (A : Mismatch → Prop) (before all : List Mismatch) : Prop :=
  ∃ own, Interleave own before all ∧ ∀ m ∈ own, A m

namespace Joined

variable {A B : Mismatch → Prop} {before before' all all' : List Mismatch}

theorem nil : Joined A [] [] := ⟨[], .nil, by simp⟩

theorem append (h : Joined A before all) (h' : Joined A before' all') :
    Joined A (before ++ before') (all ++ all') := by
  obtain ⟨own, hown, hA⟩ := h
  obtain ⟨own', hown', hA'⟩ := h'
  refine ⟨own ++ own', hown.append hown', ?_⟩
  intro m hm
  exact (List.mem_append.mp hm).elim (hA m) (hA' m)

theorem mono (hAB : ∀ m, A m → B m) (h : Joined A before all) : Joined B before all := by
  obtain ⟨own, hown, hA⟩ := h
  exact ⟨own, hown, fun m hm => hAB m (hA m hm)⟩

end Joined

section Field

variable {x : Exchange} {f : FieldSchema} {path : String} {mine others ps : List Participant}

theorem suppliers_eq (h : Interleave mine others ps) (hmine : ∀ p ∈ mine, p.supplier = false) :
    others.filter (·.supplier) = ps.filter (·.supplier) := by
  have hnone : mine.filter (·.supplier) = [] := by
    simpa using hmine
  have hsuppliers := h.filter (·.supplier)
  rw [hnone] at hsuppliers
  exact hsuppliers.eq_of_nil_left

/-- Only who writes the payload counts for units and formats. -/
theorem quantityMismatch?_congr (h : others.filter (·.supplier) = ps.filter (·.supplier)) :
    quantityMismatch? x f path others = quantityMismatch? x f path ps := by
  funext p
  simp only [quantityMismatch?, unitMismatch?, formatMismatch?, arrivals, h]

theorem fieldMismatches_joined (x : Exchange) (f : FieldSchema) (path : String)
    (h : Interleave mine others ps) (hmine : ∀ p ∈ mine, p.supplier = false) :
    Joined (AboutOne x mine) (fieldMismatches x f path others) (fieldMismatches x f path ps) := by
  have hverdict {p : Participant} {m : Mismatch} (hp : p ∈ mine) (hm : Verdict x p m) :
      AboutOne x mine m := ⟨p, hp, p.shape, .refl _, hm⟩
  unfold fieldMismatches
  dsimp only
  rw [quantityMismatch?_congr (suppliers_eq h hmine)]
  -- the checks are made one after the other, each on those who passed the ones before
  have hpassed := h.filter fun p => (valueMismatch? x f path p).isNone
  have hclean := hpassed.filter fun p => (quantityMismatch? x f path ps p).isNone
  refine .append (.append ⟨_, h.filterMap _, ?_⟩ ⟨_, hpassed.filterMap _, ?_⟩)
    ⟨_, hclean.filterMap _, ?_⟩
  · intro m hm
    obtain ⟨p, hp, hvalue⟩ := List.mem_filterMap.mp hm
    exact hverdict hp (.value hvalue)
  · intro m hm
    obtain ⟨p, hp, hquantity⟩ := List.mem_filterMap.mp hm
    exact hverdict (List.mem_of_mem_filter hp) (.quantity hquantity)
  · intro m hm
    obtain ⟨p, hp, hstrictness⟩ := List.mem_filterMap.mp hm
    exact hverdict (List.mem_of_mem_filter (List.mem_of_mem_filter hp)) (.strictness hstrictness)

end Field

def undrifted (findings : List Finding) : List Mismatch :=
  findings.filterMap fun y => if y.drift.isNone then some y.mismatch else none

@[simp] theorem undrifted_nil : undrifted [] = [] := rfl

@[simp] theorem undrifted_append (ys zs : List Finding) :
    undrifted (ys ++ zs) = undrifted ys ++ undrifted zs := List.filterMap_append

@[simp] theorem undrifted_plain (ms : List Mismatch) : undrifted (ms.map .plain) = ms := by
  induction ms with
  | nil => rfl
  | cons m ms ih => simp_all [undrifted, Finding.plain]

theorem mem_undrifted {m : Mismatch} {ys : List Finding} : m ∈ undrifted ys ↔ .plain m ∈ ys := by
  simp only [undrifted, List.mem_filterMap]
  constructor
  · rintro ⟨⟨m', drift⟩, hy, hm⟩
    cases drift with
    | none => exact Option.some.inj hm ▸ hy
    | some subject => cases hm
  · intro h
    exact ⟨.plain m, h, rfl⟩

@[simp] theorem undrifted_drifts (x : Exchange) (path : String) (ps : List Participant) :
    undrifted (drifts x path ps) = [] := by
  induction ps with
  | nil => rfl
  | cons p ps ih =>
    have hpairs : undrifted (ps.filterMap (driftBetween? x path p)) = [] := by
      rw [undrifted, List.filterMap_filterMap]
      apply List.filterMap_eq_nil_iff.mpr
      intro q _
      unfold driftBetween?
      split
      · rfl
      · split
        · dsimp only
          split <;> rfl
        · rfl
    simp [drifts, hpairs, ih]

section Walk

variable {x : Exchange} {f : FieldSchema} {fields : List FieldSchema} {path : String}
  {declared : List String} {mine others ps : List Participant}

theorem fieldFindings_nobody (f : FieldSchema) (path : String) : fieldFindings x path [] f = [] := by
  induction f using FieldSchema.induction_inside generalizing path with
  | step f _ item =>
    rw [fieldFindings_eq]
    cases f.truncated with
    | true => rfl
    | false =>
      cases f.type with
      | array =>
        cases hitems : f.items with
        | none => rfl
        | some i => exact item i hitems _
      | _ => rfl

theorem memberFindings_nobody : memberFindings x declared path [] fields = [] := by
  induction fields with
  | nil => rfl
  | cons f fields ih => simp [memberFindings, fieldFindings_nobody, ih]

theorem objectFindings_nobody :
    objectFindings x fields path [] (memberFindings x declared path [] fields) = [] := by
  simp [objectFindings, drifts, memberFindings_nobody]

/-- The findings on a field that is an object, also if it is one to nobody. -/
theorem fieldFindings_object (htruncated : f.truncated = false) (htype : f.type = .object) :
    fieldFindings x path ps f = (fieldMismatches x f path ps).map .plain ++
      objectFindings x f.children path (ps.filter (·.shape.kind = .object))
        (memberFindings x (f.children.map (·.name)) path (ps.filter (·.shape.kind = .object))
          f.children) := by
  rw [fieldFindings_eq, htruncated, htype]
  cases ps.filter (·.shape.kind = .object) with
  | nil => simp [objectFindings_nobody]
  | cons p ps => rfl

theorem payloadFindings_eq : payloadFindings x fields ps =
    objectFindings x fields "" ps (memberFindings x (fields.map (·.name)) "" ps fields) := by
  cases ps with
  | nil => simp [payloadFindings, objectFindings_nobody]
  | cons p ps => rfl

/-- Whether readers of a field are judged apart from the others. -/
def JudgedApart (x : Exchange) (f : FieldSchema) : Prop :=
  ∀ (path : String) (mine others ps : List Participant), Interleave mine others ps →
    (∀ p ∈ mine, p.supplier = false) →
    Joined (AboutOne x mine) (undrifted (fieldFindings x path others f))
      (undrifted (fieldFindings x path ps f))

theorem flatMap_joined {g : Participant → List Finding}
    (hg : ∀ p m, .plain m ∈ g p → Verdict x p m) (h : Interleave mine others ps) :
    Joined (AboutOne x mine) (undrifted (others.flatMap g)) (undrifted (ps.flatMap g)) := by
  refine ⟨undrifted (mine.flatMap g), (h.flatMap g).filterMap _, ?_⟩
  intro m hm
  obtain ⟨p, hp, hm⟩ := List.mem_flatMap.mp (mem_undrifted.mp hm)
  exact ⟨p, hp, p.shape, .refl _, hg p m hm⟩

theorem JudgedApart.inside (hf : JudgedApart x f) (h : Interleave mine others ps)
    (hmine : ∀ p ∈ mine, p.supplier = false) {part : Participant → Option Shape}
    (hpart : ∀ p c, part p = some c → c ∈ p.shape.children ∨ p.shape.items = some c) (path : String) :
    Joined (AboutOne x mine)
      (undrifted (fieldFindings x path (others.filterMap fun p => (part p).map p.inside) f))
      (undrifted (fieldFindings x path (ps.filterMap fun p => (part p).map p.inside) f)) := by
  have hinside {q : Participant} (hq : q ∈ mine.filterMap fun p => (part p).map p.inside) :
      ∃ p ∈ mine, ∃ c, part p = some c ∧ p.inside c = q := by
    obtain ⟨p, hp, hc⟩ := List.mem_filterMap.mp hq
    exact ⟨p, hp, Option.map_eq_some_iff.mp hc⟩
  apply Joined.mono ?_ (hf path _ _ _ (h.filterMap _) ?_)
  · rintro m ⟨q, hq, s, hs, hm⟩
    obtain ⟨p, hp, c, hc, rfl⟩ := hinside hq
    rcases hpart p c hc with hchild | hitem
    · exact ⟨p, hp, s, .child hchild hs, hm⟩
    · exact ⟨p, hp, s, .item hitem hs, hm⟩
  · intro q hq
    obtain ⟨p, hp, c, -, rfl⟩ := hinside hq
    exact hmine p hp

theorem mem_children_of_carrier? {s c : Shape} (h : carrier? declared f s = some c) :
    c ∈ s.children := by
  rw [carrier?, Option.or_eq_some_iff] at h
  rcases h with h | ⟨-, h⟩
  · exact List.mem_of_find?_eq_some h
  · exact List.mem_of_find?_eq_some h

theorem memberFindings_joined (hfields : ∀ f ∈ fields, JudgedApart x f)
    (h : Interleave mine others ps) (hmine : ∀ p ∈ mine, p.supplier = false) :
    Joined (AboutOne x mine) (undrifted (memberFindings x declared path others fields))
      (undrifted (memberFindings x declared path ps fields)) := by
  induction fields with
  | nil => exact .nil
  | cons f fields ih =>
    obtain ⟨hf, hfields⟩ := List.forall_mem_cons.mp hfields
    simp only [memberFindings, undrifted_append]
    apply Joined.append (Joined.append ?_ ?_) (ih hfields)
    · exact flatMap_joined (fun p m hm => .presence hm) h
    · apply hf.inside h hmine
      intro p c hc
      exact .inl (mem_children_of_carrier? hc)

theorem objectFindings_joined (hfields : ∀ f ∈ fields, JudgedApart x f)
    (h : Interleave mine others ps) (hmine : ∀ p ∈ mine, p.supplier = false) :
    Joined (AboutOne x mine)
      (undrifted (objectFindings x fields path others (memberFindings x declared path others fields)))
      (undrifted (objectFindings x fields path ps (memberFindings x declared path ps fields))) := by
  cases hempty : fields.isEmpty with
  | true =>
    simp only [objectFindings, hempty, undrifted_append, undrifted_drifts]
    exact .nil
  | false =>
    simp only [objectFindings, hempty, undrifted_append, undrifted_drifts, List.nil_append,
      Bool.false_eq_true, if_false]
    apply Joined.append (memberFindings_joined hfields h hmine)
    exact flatMap_joined (fun p m hm => .extra hm) h

/-- At every depth of a schema, readers are judged apart from the others. -/
theorem judgedApart (x : Exchange) (f : FieldSchema) : JudgedApart x f := by
  induction f using FieldSchema.induction_inside with
  | step f members item =>
    intro path mine others ps h hmine
    have hown := fieldMismatches_joined x f path h hmine
    cases htruncated : f.truncated with
    | true => simpa [fieldFindings_eq, htruncated] using hown
    | false =>
      cases htype : f.type with
      | object =>
        simp only [fieldFindings_object htruncated htype, undrifted_append, undrifted_plain]
        apply hown.append
        apply Joined.mono ?_ (objectFindings_joined members (h.filter _) ?_)
        · rintro m ⟨p, hp, hm⟩
          exact ⟨p, List.mem_of_mem_filter hp, hm⟩
        · intro p hp
          exact hmine p (List.mem_of_mem_filter hp)
      | array =>
        simp only [fieldFindings_eq, htruncated, htype, undrifted_append, undrifted_plain]
        apply hown.append
        cases hitems : f.items with
        | none => exact .nil
        | some i =>
          apply (item i hitems).inside h hmine
          intro p c hc
          exact .inr hc
      | _ => simpa [fieldFindings_eq, htruncated, htype] using hown

end Walk

/-- What holds of everything that a walk is put together from. -/
structure HoldsOfPieces (x : Exchange) (P : Finding → Prop) : Prop where
  drift : ∀ path ps, ∀ y ∈ drifts x path ps, P y
  presence : ∀ declared f path p, ∀ y ∈ presence x declared f path p, P y
  own : ∀ f path ps, ∀ m ∈ fieldMismatches x f path ps, P (.plain m)
  extra : ∀ fields path p, ∀ y ∈ extras x fields path p, P y

section Pieces

variable {x : Exchange} {P : Finding → Prop} {fields : List FieldSchema} {path : String}
  {declared : List String} {ps : List Participant}

theorem HoldsOfPieces.memberFindings (h : HoldsOfPieces x P)
    (hfields : ∀ f ∈ fields, ∀ path ps, ∀ y ∈ fieldFindings x path ps f, P y) :
    ∀ y ∈ memberFindings x declared path ps fields, P y := by
  induction fields with
  | nil => simp [Comparison.memberFindings]
  | cons f fields ih =>
    obtain ⟨hf, hfields⟩ := List.forall_mem_cons.mp hfields
    intro y hy
    simp only [Comparison.memberFindings, List.mem_append, List.mem_flatMap] at hy
    rcases hy with (⟨p, -, hy⟩ | hy) | hy
    · exact h.presence _ _ _ p y hy
    · exact hf _ _ y hy
    · exact ih hfields y hy

theorem HoldsOfPieces.objectFindings (h : HoldsOfPieces x P)
    (hfields : ∀ f ∈ fields, ∀ path ps, ∀ y ∈ fieldFindings x path ps f, P y) :
    ∀ y ∈ objectFindings x fields path ps (Comparison.memberFindings x declared path ps fields),
      P y := by
  intro y hy
  simp only [Comparison.objectFindings, List.mem_append] at hy
  rcases hy with hy | hy
  · exact h.drift _ _ y hy
  · split at hy
    · cases hy
    · rcases List.mem_append.mp hy with hy | hy
      · exact h.memberFindings hfields y hy
      · obtain ⟨p, -, hy⟩ := List.mem_flatMap.mp hy
        exact h.extra _ _ p y hy

theorem HoldsOfPieces.fieldFindings (h : HoldsOfPieces x P) (f : FieldSchema) :
    ∀ path ps, ∀ y ∈ fieldFindings x path ps f, P y := by
  induction f using FieldSchema.induction_inside with
  | step f members item =>
    intro path ps y hy
    have hown : ∀ y ∈ (fieldMismatches x f path ps).map Finding.plain, P y := by
      simpa using h.own f path ps
    cases htruncated : f.truncated with
    | true =>
      rw [fieldFindings_eq, htruncated] at hy
      exact hown y (by simpa using hy)
    | false =>
      cases htype : f.type with
      | object =>
        rw [fieldFindings_object htruncated htype] at hy
        exact (List.mem_append.mp hy).elim (hown y) (h.objectFindings members y)
      | array =>
        rw [fieldFindings_eq, htruncated, htype] at hy
        rcases List.mem_append.mp hy with hy | hy
        · exact hown y hy
        · cases hitems : f.items with
          | none =>
            rw [hitems] at hy
            cases hy
          | some i =>
            rw [hitems] at hy
            exact item i hitems _ _ y hy
      | _ =>
        rw [fieldFindings_eq, htruncated, htype] at hy
        exact hown y (by simpa using hy)

theorem HoldsOfPieces.payloadFindings (h : HoldsOfPieces x P) :
    ∀ y ∈ payloadFindings x fields ps, P y := by
  rw [payloadFindings_eq]
  exact h.objectFindings fun f _ => h.fieldFindings f

end Pieces

/-- How the pieces of two walks over one schema are related, if their participants are related by `P`. -/
structure RelatesPieces (x : Exchange) (P : List Participant → List Participant → Prop)
    (R : List Finding → List Finding → Prop) : Prop where
  nil : R [] []
  append : ∀ {ys ys' zs zs'}, R ys ys' → R zs zs' → R (ys ++ zs) (ys' ++ zs')
  inside : ∀ (part : Shape → Option Shape) {ps ps'}, P ps ps' →
    P (ps.filterMap fun p => (part p.shape).map p.inside)
      (ps'.filterMap fun p => (part p.shape).map p.inside)
  drift : ∀ path {ps ps'}, P ps ps' → R (drifts x path ps) (drifts x path ps')
  presence : ∀ declared f path {ps ps'}, P ps ps' →
    R (ps.flatMap (presence x declared f path)) (ps'.flatMap (presence x declared f path))
  own : ∀ f path {ps ps'}, P ps ps' →
    R ((fieldMismatches x f path ps).map .plain) ((fieldMismatches x f path ps').map .plain)
  extra : ∀ fields path {ps ps'}, P ps ps' →
    R (ps.flatMap (extras x fields path)) (ps'.flatMap (extras x fields path))

section TwoWalks

variable {x : Exchange} {P : List Participant → List Participant → Prop}
  {R : List Finding → List Finding → Prop} {fields : List FieldSchema} {path : String}
  {declared : List String} {ps ps' : List Participant}

theorem RelatesPieces.objects (h : RelatesPieces x P R) (hps : P ps ps') :
    P (ps.filter (·.shape.kind = .object)) (ps'.filter (·.shape.kind = .object)) := by
  have hfilter (ps : List Participant) : ps.filter (·.shape.kind = .object) = ps.filterMap fun p =>
      (if p.shape.kind = .object then some p.shape else none).map p.inside := by
    rw [← List.filterMap_eq_filter]
    apply List.filterMap_congr
    intro p _
    by_cases hkind : p.shape.kind = .object <;> simp [Option.guard, hkind, Participant.inside]
  rw [hfilter, hfilter]
  exact h.inside (fun s => if s.kind = .object then some s else none) hps

theorem RelatesPieces.memberFindings (h : RelatesPieces x P R) (hps : P ps ps')
    (hfields : ∀ f ∈ fields, ∀ path ps ps', P ps ps' →
      R (fieldFindings x path ps f) (fieldFindings x path ps' f)) :
    R (memberFindings x declared path ps fields) (memberFindings x declared path ps' fields) := by
  induction fields with
  | nil => exact h.nil
  | cons f fields ih =>
    obtain ⟨hf, hfields⟩ := List.forall_mem_cons.mp hfields
    exact h.append (h.append (h.presence _ _ _ hps) (hf _ _ _ (h.inside _ hps))) (ih hfields)

theorem RelatesPieces.objectFindings (h : RelatesPieces x P R) (hps : P ps ps')
    (hfields : ∀ f ∈ fields, ∀ path ps ps', P ps ps' →
      R (fieldFindings x path ps f) (fieldFindings x path ps' f)) :
    R (objectFindings x fields path ps (Comparison.memberFindings x declared path ps fields))
      (Comparison.objectFindings x fields path ps'
        (Comparison.memberFindings x declared path ps' fields)) := by
  unfold Comparison.objectFindings
  apply h.append (h.drift path hps)
  split
  · exact h.nil
  · exact h.append (h.memberFindings hps hfields) (h.extra _ _ hps)

theorem RelatesPieces.fieldFindings (h : RelatesPieces x P R) (f : FieldSchema) :
    ∀ path ps ps', P ps ps' → R (fieldFindings x path ps f) (fieldFindings x path ps' f) := by
  induction f using FieldSchema.induction_inside with
  | step f members item =>
    intro path ps ps' hps
    have hown := h.own f path hps
    cases htruncated : f.truncated with
    | true =>
      simp only [fieldFindings_eq, htruncated]
      exact h.append hown h.nil
    | false =>
      cases htype : f.type with
      | object =>
        rw [fieldFindings_object htruncated htype, fieldFindings_object htruncated htype]
        exact h.append hown (h.objectFindings (h.objects hps) members)
      | array =>
        simp only [fieldFindings_eq, htruncated, htype]
        apply h.append hown
        cases hitems : f.items with
        | none => exact h.nil
        | some i => exact item i hitems _ _ _ (h.inside (·.items) hps)
      | _ =>
        simp only [fieldFindings_eq, htruncated, htype]
        exact h.append hown h.nil

theorem RelatesPieces.payloadFindings (h : RelatesPieces x P R) (hps : P ps ps') :
    R (payloadFindings x fields ps) (payloadFindings x fields ps') := by
  rw [payloadFindings_eq, payloadFindings_eq]
  exact h.objectFindings hps fun f _ => h.fieldFindings f

end TwoWalks

/-- A finding is a drift if its kind says so. -/
def Kinded (y : Finding) : Prop := y.drift = none ↔ y.mismatch.kind ≠ .drift

theorem kinded_plain {m : Mismatch} (h : m.kind ≠ .drift) : Kinded (.plain m) :=
  iff_of_true rfl h

def ownKinds : List MismatchKind := [.type, .enum, .case, .unit, .format, .strictness]

structure OnField (path : String) (m : Mismatch) : Prop where
  kind : m.kind ∈ ownKinds
  field : m.field = path

section Kinds

variable {x : Exchange} {f : FieldSchema} {path : String} {p : Participant} {ps : List Participant}
  {m : Mismatch}

theorem onField_error {kind : MismatchKind} {rule : Rule} {location : Location}
    {expected observed : String} (h : kind ∈ ownKinds) :
    OnField path (x.error kind rule path location expected observed) := ⟨h, rfl⟩

theorem exists_error_of_kindMismatch? (h : kindMismatch? x f p path = some m) :
    ∃ location expected observed, m = x.error .type x.rule path location expected observed := by
  unfold kindMismatch? at h
  split at h
  · cases h
  · obtain rfl := Option.some.inj h
    exact ⟨_, _, _, rfl⟩

theorem exists_error_of_enumMismatch? (h : enumMismatch? x f p path = some m) :
    ∃ kind rule location expected observed, (kind = .enum ∨ kind = .case) ∧
      m = x.error kind rule path location expected observed := by
  unfold enumMismatch? at h
  dsimp only at h
  split at h
  · obtain rfl := Option.some.inj h
    unfold unlisted
    dsimp only
    split
    · exact ⟨_, _, _, _, _, .inr rfl, rfl⟩
    · exact ⟨_, _, _, _, _, .inl rfl, rfl⟩
  · obtain ⟨casing, -, h⟩ := Option.bind_eq_some_iff.mp h
    obtain ⟨value, -, rfl⟩ := Option.map_eq_some_iff.mp h
    exact ⟨_, _, _, _, _, .inr rfl, rfl⟩

theorem exists_disparity_of_unitMismatch? (h : unitMismatch? x f p ps path = some m) :
    ∃ location expected observed, m = x.disparity .unit path location expected observed := by
  obtain ⟨unit, -, h⟩ := Option.bind_eq_some_iff.mp h
  dsimp only at h
  split at h
  · obtain rfl := Option.some.inj h
    exact ⟨_, _, _, rfl⟩
  · obtain ⟨a, -, rfl⟩ := Option.map_eq_some_iff.mp h
    exact ⟨_, _, _, rfl⟩

theorem exists_disparity_of_formatMismatch? (h : formatMismatch? x f p ps path = some m) :
    ∃ location expected observed, m = x.disparity .format path location expected observed := by
  obtain ⟨format, -, h⟩ := Option.bind_eq_some_iff.mp h
  dsimp only at h
  split at h
  · split at h
    · cases h
    · obtain rfl := Option.some.inj h
      exact ⟨_, _, _, rfl⟩
  · split at h
    · cases h
    · obtain ⟨s, -, rfl⟩ := Option.map_eq_some_iff.mp h
      exact ⟨_, _, _, rfl⟩

theorem exists_disparity_of_strictnessMismatch? (h : strictnessMismatch? x f p path = some m) :
    ∃ location expected observed, m = x.disparity .strictness path location expected observed := by
  obtain ⟨texts, -, rfl⟩ := Option.map_eq_some_iff.mp h
  exact ⟨_, _, _, rfl⟩

theorem onField_of_quantityMismatch? (h : quantityMismatch? x f path ps p = some m) :
    OnField path m := by
  unfold quantityMismatch? at h
  have hformat (h : formatMismatch? x f p ps path = some m) : OnField path m := by
    obtain ⟨_, _, _, rfl⟩ := exists_disparity_of_formatMismatch? h
    exact onField_error (by decide)
  split at h
  · exact hformat h
  · rcases Option.or_eq_some_iff.mp h with h | ⟨-, h⟩
    · obtain ⟨_, _, _, rfl⟩ := exists_disparity_of_unitMismatch? h
      exact onField_error (by decide)
    · exact hformat h

theorem onField_of_mem_fieldMismatches (h : m ∈ fieldMismatches x f path ps) : OnField path m := by
  simp only [fieldMismatches, List.mem_append, List.mem_filterMap] at h
  rcases h with (⟨p, -, h⟩ | ⟨p, -, h⟩) | ⟨p, -, h⟩
  · rcases Option.or_eq_some_iff.mp h with h | ⟨-, h⟩
    · obtain ⟨_, _, _, rfl⟩ := exists_error_of_kindMismatch? h
      exact onField_error (by decide)
    · obtain ⟨kind, _, _, _, _, hkind, rfl⟩ := exists_error_of_enumMismatch? h
      exact onField_error (by rcases hkind with rfl | rfl <;> decide)
  · exact onField_of_quantityMismatch? h
  · obtain ⟨_, _, _, rfl⟩ := exists_disparity_of_strictnessMismatch? h
    exact onField_error (by decide)

theorem OnField.kind_ne {kind : MismatchKind} (h : OnField path m) (hkind : kind ∉ ownKinds) :
    m.kind ≠ kind := fun heq => hkind (heq ▸ h.kind)

end Kinds

theorem kinded_pieces (x : Exchange) : HoldsOfPieces x Kinded := by
  constructor
  case drift =>
    intro path ps y hy
    induction ps with
    | nil => cases hy
    | cons p ps ih =>
      rw [drifts] at hy
      rcases List.mem_append.mp hy with hy | hy
      · obtain ⟨q, -, hy⟩ := List.mem_filterMap.mp hy
        unfold driftBetween? at hy
        split at hy
        · cases hy
        · split at hy
          · dsimp only at hy
            split at hy
            · cases hy
            · obtain rfl := Option.some.inj hy
              simp [Kinded, Exchange.error]
          · cases hy
      · exact ih hy
  case presence =>
    intro declared f path p y hy
    unfold presence at hy
    split at hy
    · cases hy
    · split at hy
      · obtain rfl := List.mem_singleton.mp hy
        exact kinded_plain (by simp [Exchange.error])
      · split at hy
        · obtain rfl := List.mem_singleton.mp hy
          exact kinded_plain (by simp [Exchange.error])
        · cases hy
  case own =>
    intro f path ps m hm
    exact kinded_plain ((onField_of_mem_fieldMismatches hm).kind_ne (by decide))
  case extra =>
    intro fields path p y hy
    unfold extras at hy
    obtain ⟨c, -, rfl⟩ := List.mem_map.mp hy
    exact kinded_plain (by simp [Exchange.error])

theorem filter_reportedFrom {ys : List Finding} (h : ∀ y ∈ ys, Kinded y) (seen : List DriftSubject) :
    (Finding.reportedFrom seen ys).filter (·.kind ≠ .drift) = undrifted ys := by
  induction ys generalizing seen with
  | nil => rfl
  | cons y ys ih =>
    obtain ⟨hy, hys⟩ := List.forall_mem_cons.mp h
    obtain ⟨m, drift⟩ := y
    cases drift with
    | none =>
      have hkind : decide (m.kind ≠ .drift) = true := by simpa [Kinded] using hy
      rw [Finding.reportedFrom, List.filter_cons, if_pos hkind, ih hys]
      rfl
    | some subject =>
      have hkind : ¬decide (m.kind ≠ .drift) = true := by simpa [Kinded] using hy
      rw [Finding.reportedFrom]
      split
      · exact ih hys seen
      · rw [List.filter_cons, if_neg hkind]
        exact ih hys _

def undriftedMismatches (conventions : Conventions) (contract : Contract) (e : Endpoint)
    (bindings : List Binding) : List Mismatch :=
  (compareEndpoint conventions contract e bindings).filter (·.kind ≠ .drift)

/-- A finding about a binding, on one of its payloads or on a part of one. -/
def About (conventions : Conventions) (contract : Contract) (e : Endpoint) (b : Binding)
    (m : Mismatch) : Prop :=
  ∃ payload, AboutOne ⟨conventions, contract.id, e.id, payload⟩ (participants payload [b]) m

section Endpoint

variable {conventions : Conventions} {contract : Contract} {e : Endpoint} {bindings : List Binding}

def findingsOn (conventions : Conventions) (contract : Contract) (e : Endpoint)
    (bindings : List Binding) (payload : PayloadKind) : List Finding :=
  ((declaredFields? e payload).map fun fields =>
    payloadFindings ⟨conventions, contract.id, e.id, payload⟩ fields
      (participants payload bindings)).getD []

theorem endpointFindings_eq : endpointFindings conventions contract e bindings =
    findingsOn conventions contract e bindings .request ++
      findingsOn conventions contract e bindings .response := by
  unfold endpointFindings findingsOn declaredFields?
  cases e.request <;> cases e.success? <;> rfl

theorem kinded_findingsOn (payload : PayloadKind) :
    ∀ y ∈ findingsOn conventions contract e bindings payload, Kinded y := by
  unfold findingsOn
  cases declaredFields? e payload with
  | none => simp
  | some fields => exact (kinded_pieces _).payloadFindings

theorem endpointFindings_rel {P : List Participant → List Participant → Prop}
    {R : List Finding → List Finding → Prop} {bindings' : List Binding}
    (hpieces : ∀ x, RelatesPieces x P R)
    (h : ∀ payload, P (participants payload bindings) (participants payload bindings')) :
    R (endpointFindings conventions contract e bindings)
      (endpointFindings conventions contract e bindings') := by
  have hpayload (payload : PayloadKind) : R (findingsOn conventions contract e bindings payload)
      (findingsOn conventions contract e bindings' payload) := by
    have hx := hpieces ⟨conventions, contract.id, e.id, payload⟩
    unfold findingsOn
    cases declaredFields? e payload with
    | none => exact hx.nil
    | some fields => exact hx.payloadFindings (h payload)
  rw [endpointFindings_eq, endpointFindings_eq]
  exact (hpieces ⟨conventions, contract.id, e.id, .request⟩).append (hpayload .request)
    (hpayload .response)

theorem kinded_endpointFindings :
    ∀ y ∈ endpointFindings conventions contract e bindings, Kinded y := by
  rw [endpointFindings_eq]
  intro y hy
  exact (List.mem_append.mp hy).elim (kinded_findingsOn .request y) (kinded_findingsOn .response y)

theorem undriftedMismatches_eq : undriftedMismatches conventions contract e bindings =
    undrifted (findingsOn conventions contract e bindings .request) ++
      undrifted (findingsOn conventions contract e bindings .response) := by
  rw [← undrifted_append, ← endpointFindings_eq]
  exact filter_reportedFrom kinded_endpointFindings _

theorem findingsOn_joined {before after : List Binding} {r : Binding} {payload : PayloadKind}
    (hreader : (declaredFields? e payload).isSome → r.supplies payload = true →
      r.shape? payload = none) :
    Joined (About conventions contract e r)
      (undrifted (findingsOn conventions contract e (before ++ after) payload))
      (undrifted (findingsOn conventions contract e (before ++ r :: after) payload)) := by
  cases hfields : declaredFields? e payload with
  | none => simpa [findingsOn, hfields] using Joined.nil
  | some fields =>
    have hone : Interleave [r] (before ++ after) (before ++ r :: after) :=
      (Interleave.of_right before).append ((Interleave.of_right after).left)
    have hmine : ∀ p ∈ participants payload [r], p.supplier = false := by
      intro p hp
      obtain ⟨b, hb, hshape⟩ := List.mem_filterMap.mp hp
      obtain rfl := List.mem_singleton.mp hb
      obtain ⟨s, hs, rfl⟩ := Option.map_eq_some_iff.mp hshape
      cases hsupplies : b.supplies payload with
      | false => rfl
      | true => simp [hreader (by simp [hfields]) hsupplies] at hs
    simp only [findingsOn, hfields, Option.map_some, Option.getD_some, payloadFindings_eq]
    apply Joined.mono ?_ (objectFindings_joined (fun f _ => judgedApart _ f) (hone.filterMap _) hmine)
    intro m hm
    exact ⟨payload, hm⟩

/-- With a binding that writes none of the payloads that are compared, the findings of before, drifts
apart, are all there in their order, and what stands between them is about that binding. -/
theorem readers_judged_apart (conventions : Conventions) (contract : Contract) (e : Endpoint)
    (before after : List Binding) (r : Binding)
    (hreader : ∀ payload, (declaredFields? e payload).isSome → r.supplies payload = true →
      r.shape? payload = none) :
    (undriftedMismatches conventions contract e (before ++ after)).Sublist
        (undriftedMismatches conventions contract e (before ++ r :: after)) ∧
      ∃ own, Interleave own (undriftedMismatches conventions contract e (before ++ after))
          (undriftedMismatches conventions contract e (before ++ r :: after)) ∧
        ∀ m ∈ own, About conventions contract e r m := by
  have hjoined : Joined (About conventions contract e r)
      (undriftedMismatches conventions contract e (before ++ after))
      (undriftedMismatches conventions contract e (before ++ r :: after)) := by
    simp only [undriftedMismatches_eq]
    exact (findingsOn_joined (hreader .request)).append (findingsOn_joined (hreader .response))
  obtain ⟨own, hown, habout⟩ := hjoined
  exact ⟨hown.sublist, own, hown, habout⟩

def orderEndpoint : Endpoint where
  method := "GET"
  path := "/order"
  request := none
  responses := [(200, [⟨"id", .string, none, none, none, [], true, [], none, none, false⟩])]
  statusCodes := []

def orderBinding (service : String) (side : Side) (kind : ShapeKind) : Binding where
  key := ⟨"orders", "GET /order", service, .producer, side, false⟩
  request := none
  response := some { Shape.plain "" .object default with children := [.plain "id" kind default] }
  statusCodes := []
  headersRead := []
  headersWritten := []
  evidence := []
  location := default
  locations := []

/-- A client that takes the number for an integer comes between the server and another client. -/
theorem order_readers_apart :
    (∀ payload, (declaredFields? orderEndpoint payload).isSome →
      (orderBinding "web" .client .integer).supplies payload = true →
        (orderBinding "web" .client .integer).shape? payload = none) ∧
    (undriftedMismatches default default orderEndpoint
      [orderBinding "shop" .server .string, orderBinding "app" .client .boolean]).Sublist
        (undriftedMismatches default default orderEndpoint
          [orderBinding "shop" .server .string, orderBinding "web" .client .integer,
            orderBinding "app" .client .boolean]) ∧
    ∃ own, Interleave own (undriftedMismatches default default orderEndpoint
        [orderBinding "shop" .server .string, orderBinding "app" .client .boolean])
        (undriftedMismatches default default orderEndpoint
          [orderBinding "shop" .server .string, orderBinding "web" .client .integer,
            orderBinding "app" .client .boolean]) ∧
      ∀ m ∈ own, About default default orderEndpoint (orderBinding "web" .client .integer) m := by
  have hreader : ∀ payload, (declaredFields? orderEndpoint payload).isSome →
      (orderBinding "web" .client .integer).supplies payload = true →
        (orderBinding "web" .client .integer).shape? payload = none := by
    decide
  exact ⟨hreader, readers_judged_apart default default orderEndpoint
    [orderBinding "shop" .server .string] [orderBinding "app" .client .boolean]
    (orderBinding "web" .client .integer) hreader⟩

end Endpoint

end Comparison

end Concord
