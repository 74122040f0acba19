import Mathlib.Data.Finset.Card
import Concord.Proofs.Keys
import Concord.Proofs.Production
import Concord.Proofs.ShapeTrees

/-! A service without a declared casing is held to the casing that most of its enum values follow.
Only a strict majority makes a casing binding, so what is reported is a minority, and a service that
keeps to one casing hears nothing. -/
namespace Concord

/-- The first of the candidates with the highest score. -/
structure Elected {α : Type} (score : α → Nat) (candidates : List α) (a : α) : Prop where
  greatest : ∀ c ∈ candidates, score c ≤ score a
  first : ∃ before after, candidates = before ++ a :: after ∧ ∀ b ∈ before, score b < score a

theorem Elected.mem {α : Type} {score : α → Nat} {candidates : List α} {a : α}
    (h : Elected score candidates a) : a ∈ candidates := by
  obtain ⟨before, after, rfl, -⟩ := h.first
  simp

/-- To keep the better one of each two finds the first with the highest score. -/
theorem elected_foldl {α : Type} (score : α → Nat) (l : List α) (a : α) :
    Elected score (a :: l) (l.foldl (fun best c => if score best < score c then c else best) a) := by
  induction l generalizing a with
  | nil => exact ⟨by simp, [], [], rfl, by simp⟩
  | cons c l ih =>
    rw [List.foldl_cons]
    by_cases hlt : score a < score c
    · rw [if_pos hlt]
      obtain ⟨hgreatest, before, after, hl, hbefore⟩ := ih c
      have ha := hlt.trans_le (hgreatest c List.mem_cons_self)
      exact ⟨List.forall_mem_cons.mpr ⟨ha.le, hgreatest⟩, a :: before, after, by simp [hl],
        List.forall_mem_cons.mpr ⟨ha, hbefore⟩⟩
    · rw [if_neg hlt]
      obtain ⟨hgreatest, before, after, hl, hbefore⟩ := ih a
      obtain ⟨ha, hrest⟩ := List.forall_mem_cons.mp hgreatest
      have hca : score c ≤ score a := not_lt.mp hlt
      refine ⟨List.forall_mem_cons.mpr ⟨ha, List.forall_mem_cons.mpr ⟨hca.trans ha, hrest⟩⟩, ?_⟩
      cases before with
      | nil =>
        obtain ⟨hsame, -⟩ := List.cons.inj hl
        exact ⟨[], c :: l, congrArg (· :: c :: l) hsame, by simp⟩
      | cons b before =>
        -- `a` is beaten, and so is `c`, which is not better
        obtain ⟨rfl, hsame⟩ := List.cons.inj hl
        obtain ⟨hb, hbefore⟩ := List.forall_mem_cons.mp hbefore
        exact ⟨a :: c :: before, after, congrArg (a :: c :: ·) hsame,
          List.forall_mem_cons.mpr ⟨hb, List.forall_mem_cons.mpr ⟨hca.trans_lt hb, hbefore⟩⟩⟩

theorem Casing.elected_best (values : List String) :
    Elected (hits values) inferred (best values) := by
  have hbest : best values = inferred.tail.foldl
      (fun best c => if hits values best < hits values c then c else best) .snake := by
    simp only [best, inferred, List.foldl_cons, Nat.lt_irrefl, if_false, List.tail_cons]
  rw [hbest]
  exact elected_foldl (hits values) inferred.tail .snake

namespace Convention

/-- A shape is another one or a part of it at any depth. -/
inductive PartOf (part : Shape) : Shape → Prop
  | self : PartOf part part
  | member {s c : Shape} (hc : c ∈ s.children) (h : PartOf part c) : PartOf part s
  | item {s i : Shape} (hi : i ∈ s.items) (h : PartOf part i) : PartOf part s

theorem PartOf.eq_of_empty {part s : Shape} (h : PartOf part s) (hchildren : s.children = [])
    (hitems : s.items = none) : part = s := by
  cases h with
  | self => rfl
  | member hc => simp [hchildren] at hc
  | item hi => simp [hitems] at hi

theorem PartOf.of_eq {part s t : Shape} (h : PartOf part s) (hchildren : s.children = t.children)
    (hitems : s.items = t.items) : part = s ∨ PartOf part t := by
  cases h with
  | self => exact .inl rfl
  | member hc h => exact .inr (.member (hchildren ▸ hc) h)
  | item hi h => exact .inr (.item (hitems ▸ hi) h)

/-- A service writes an enum value to the wire in production. -/
def Supplies (bindings : List Binding) (service value : String) : Prop :=
  ∃ b ∈ bindings, b.key.inTest = false ∧ b.key.service = service ∧
    ∃ payload shape part, b.supplies payload = true ∧ b.shape? payload = some shape ∧
      PartOf part shape ∧ value ∈ part.enumValues

theorem mem_enumUsesOfMembers {path : String} {u : EnumUse} {shapes : List Shape} :
    u ∈ enumUsesOfMembers path shapes ↔
      ∃ c ∈ shapes, u ∈ enumUses (FieldPath.join path c.name) c := by
  induction shapes with
  | nil => simp [enumUsesOfMembers]
  | cons c shapes ih => simp [enumUsesOfMembers, ih]

theorem mem_enumUses_iff {path : String} {u : EnumUse} {s : Shape} :
    u ∈ enumUses path s ↔ (∃ v ∈ s.enumValues, u = ⟨v, path, s.origin.location⟩) ∨
      (∃ c ∈ s.children, u ∈ enumUses (FieldPath.join path c.name) c) ∨
      ∃ i ∈ s.items, u ∈ enumUses (FieldPath.join path "[]") i := by
  obtain ⟨name, declared, typeName, kind, format, unit, range, values, required, validated, children,
    items, origin, confidence⟩ := s
  have hitems : u ∈ enumUsesOfItems path items ↔
      ∃ i ∈ items, u ∈ enumUses (FieldPath.join path "[]") i := by
    cases items <;> simp [enumUsesOfItems]
  simp only [enumUses, List.mem_append, List.mem_map, mem_enumUsesOfMembers, hitems, or_assoc, eq_comm]

theorem exists_enumUse_iff {s : Shape} (path value : String) :
    (∃ u ∈ enumUses path s, u.value = value) ↔ ∃ part, PartOf part s ∧ value ∈ part.enumValues := by
  induction s using Shape.induction_inside generalizing path with
  | step s hchildren hitems =>
    constructor
    · rintro ⟨u, hu, rfl⟩
      rcases mem_enumUses_iff.mp hu with ⟨v, hv, rfl⟩ | ⟨c, hc, hu⟩ | ⟨i, hi, hu⟩
      · exact ⟨s, .self, hv⟩
      · obtain ⟨part, hpart, hv⟩ := (hchildren c hc _).mp ⟨u, hu, rfl⟩
        exact ⟨part, .member hc hpart, hv⟩
      · obtain ⟨part, hpart, hv⟩ := (hitems i hi _).mp ⟨u, hu, rfl⟩
        exact ⟨part, .item hi hpart, hv⟩
    · rintro ⟨part, hpart, hv⟩
      cases hpart with
      | self => exact ⟨_, mem_enumUses_iff.mpr (.inl ⟨value, hv, rfl⟩), rfl⟩
      | member hc hpart =>
        obtain ⟨u, hu, hvalue⟩ := (hchildren _ hc _).mpr ⟨part, hpart, hv⟩
        exact ⟨u, mem_enumUses_iff.mpr (.inr (.inl ⟨_, hc, hu⟩)), hvalue⟩
      | item hi hpart =>
        obtain ⟨u, hu, hvalue⟩ := (hitems _ hi _).mpr ⟨part, hpart, hv⟩
        exact ⟨u, mem_enumUses_iff.mpr (.inr (.inr ⟨_, hi, hu⟩)), hvalue⟩

theorem mem_suppliedBy {b : Binding} {s : Supplied} : s ∈ suppliedBy b ↔ s.binding = b ∧
    ∃ payload shape, b.supplies payload = true ∧ b.shape? payload = some shape ∧
      s.use ∈ enumUses "" shape := by
  have hon (payload : PayloadKind) : (s ∈ if b.supplies payload then
      (((b.shape? payload).map (enumUses "")).getD []).map (⟨·, b⟩) else []) ↔
        s.binding = b ∧ ∃ shape, b.supplies payload = true ∧ b.shape? payload = some shape ∧
          s.use ∈ enumUses "" shape := by
    obtain ⟨use, binding⟩ := s
    cases b.supplies payload <;> cases b.shape? payload <;> simp [and_comm, eq_comm]
  simp only [suppliedBy, List.mem_flatMap, hon]
  constructor
  · rintro ⟨payload, -, hb, shape, h⟩
    exact ⟨hb, payload, shape, h⟩
  · rintro ⟨hb, payload, shape, h⟩
    exact ⟨payload, by cases payload <;> simp, hb, shape, h⟩

theorem mem_values_iff {bindings : List Binding} {service value : String} :
    value ∈ (suppliedIn bindings service).map (·.use.value) ↔ Supplies bindings service value := by
  simp only [suppliedIn, List.mem_map, List.mem_flatMap, List.mem_filter, Bool.and_eq_true,
    Bool.not_eq_true', beq_iff_eq]
  constructor
  · rintro ⟨s, ⟨b, ⟨hb, htest, hservice⟩, hs⟩, rfl⟩
    obtain ⟨-, payload, shape, hsupplies, hshape, huse⟩ := mem_suppliedBy.mp hs
    obtain ⟨part, hpart, hvalue⟩ := (exists_enumUse_iff "" s.use.value).mp ⟨s.use, huse, rfl⟩
    exact ⟨b, hb, htest, hservice, payload, shape, part, hsupplies, hshape, hpart, hvalue⟩
  · rintro ⟨b, hb, htest, hservice, payload, shape, part, hsupplies, hshape, hpart, hvalue⟩
    obtain ⟨use, huse, rfl⟩ := (exists_enumUse_iff "" value).mpr ⟨part, hpart, hvalue⟩
    exact ⟨⟨use, b⟩, ⟨b, ⟨hb, htest, hservice⟩,
      mem_suppliedBy.mpr ⟨rfl, payload, shape, hsupplies, hshape, huse⟩⟩, rfl⟩

/-- What is expected of the values of a service. -/
def expectation (casing : Casing) (service : String) : String :=
  s!"{casing.display} (dominant in {service})"

def reportsOn (service : String) (ms : List Mismatch) : List Mismatch :=
  ms.filter fun m => Casing.inferred.any fun casing => m.expected == expectation casing service

/-- A finding says of a value that a service sends that it does not have a casing. -/
structure Flags (bindings : List Binding) (service : String) (casing : Casing) (m : Mismatch)
    (value : String) : Prop where
  kind : m.kind = .case
  rule : m.rule = .strictnessParity
  severity : m.severity = .warning
  expected : m.expected = expectation casing service
  observed : ∃ b ∈ bindings, b.key.service = service ∧ m.observed = s!"'{value}' sent by {b.describe}"

theorem expectation_inj {casing casing' : Casing} {service service' : String}
    (h : expectation casing service = expectation casing' service') : service = service' := by
  have htext (casing : Casing) (service : String) : (expectation casing service).toList =
      casing.display.toList ++ ' ' :: ("(dominant in ".toList ++ service.toList ++ [')']) := by
    simp [expectation, toString]
  have hword (casing : Casing) : ∀ c ∈ casing.display.toList, (c != ' ') = true :=
    List.all_eq_true.mp (by cases casing <;> decide)
  have hrest := congrArg (fun text => text.toList.dropWhile (· != ' ')) h
  simp only [htext, List.dropWhile_append_of_pos (hword _)] at hrest
  exact String.toList_inj.mp (by simpa using hrest)

theorem filter_flatMap_eq {α β : Type} [DecidableEq α] {l : List α} {g : α → List β} {p : β → Bool} {k : α}
    (hl : l.Nodup) (hp : ∀ a ∈ l, ∀ b ∈ g a, p b = true ↔ a = k) :
    (l.flatMap g).filter p = if k ∈ l then g k else [] := by
  induction l with
  | nil => simp
  | cons a l ih =>
    obtain ⟨ha, hl⟩ := List.nodup_cons.mp hl
    obtain ⟨hpa, hpl⟩ := List.forall_mem_cons.mp hp
    rw [List.flatMap_cons, List.filter_append, ih hl hpl]
    by_cases hk : a = k
    · subst hk
      rw [List.filter_eq_self.mpr fun b hb => (hpa b hb).mpr rfl]
      simp [ha]
    · rw [List.filter_eq_nil_iff.mpr fun b hb h => hk ((hpa b hb).mp h)]
      simp [Ne.symm hk]

section Service

variable (bindings : List Binding) (service : String)

def distinctValues : List String :=
  Text.sortedUnique ((suppliedIn bindings service).map (·.use.value))

/-- The casing that a service is held to, if most of its values follow it. -/
def electedCasing : Casing := Casing.best (distinctValues bindings service)

/-- More than half of the values of a service follow the casing. -/
def Prevails : Prop :=
  (distinctValues bindings service).length <
    2 * Casing.hits (distinctValues bindings service) (electedCasing bindings service)

instance : Decidable (Prevails bindings service) := inferInstanceAs (Decidable (_ < _))

theorem dominant?_distinctValues : Casing.dominant? (distinctValues bindings service) =
    if Prevails bindings service then some (electedCasing bindings service) else none := by
  have hle : Casing.hits (distinctValues bindings service) (electedCasing bindings service) ≤
      (distinctValues bindings service).length := List.countP_le_length
  have hiff : Prevails bindings service ↔ (distinctValues bindings service).length -
      Casing.hits (distinctValues bindings service) (electedCasing bindings service) <
        Casing.hits (distinctValues bindings service) (electedCasing bindings service) := by
    unfold Prevails
    omega
  simp only [hiff]
  rfl

/-- Where values stand that do not have the casing, each value at its first place. -/
def strays : List Supplied :=
  Keyed.firsts (·.use.value) ((suppliedIn bindings service).filter fun s =>
    !(electedCasing bindings service).holds s.use.value)

def strayReport (s : Supplied) : Mismatch where
  contract := s.binding.key.contract
  endpoint := s.binding.key.endpoint
  field := s.use.field
  kind := .case
  expected := expectation (electedCasing bindings service) service
  observed := s!"'{s.use.value}' sent by {s.binding.describe}"
  rule := .strictnessParity
  severity := .warning
  location := s.use.location

theorem casingMismatchesOf_eq : casingMismatchesOf bindings service =
    if Prevails bindings service then (strays bindings service).map (strayReport bindings service)
    else [] := by
  have hdominant := dominant?_distinctValues bindings service
  unfold distinctValues at hdominant
  by_cases h : Prevails bindings service
  · rw [if_pos h] at hdominant ⊢
    simp only [casingMismatchesOf, hdominant]
    rfl
  · rw [if_neg h] at hdominant ⊢
    simp only [casingMismatchesOf, hdominant]

variable {bindings service}

theorem mem_distinctValues {v : String} :
    v ∈ distinctValues bindings service ↔ Supplies bindings service v := by
  rw [distinctValues, Text.mem_sortedUnique, mem_values_iff]

theorem service_of_mem_suppliedIn {s : Supplied} (h : s ∈ suppliedIn bindings service) :
    s.binding ∈ bindings ∧ s.binding.key.service = service := by
  obtain ⟨b, hb, hs⟩ := List.mem_flatMap.mp h
  obtain ⟨rfl, -⟩ := mem_suppliedBy.mp hs
  simp_all

variable (bindings service) in
theorem exists_told :
    ∃ told : List String, told.Nodup ∧
      (∀ v, v ∈ told ↔ v ∈ distinctValues bindings service ∧
        (electedCasing bindings service).holds v = false ∧ Prevails bindings service) ∧
      List.Forall₂ (Flags bindings service (electedCasing bindings service))
        (casingMismatchesOf bindings service) told := by
  rw [casingMismatchesOf_eq]
  by_cases h : Prevails bindings service
  · rw [if_pos h]
    refine ⟨(strays bindings service).map (·.use.value), Keyed.nodup_map_firstsFrom _ _ _, ?_, ?_⟩
    · intro v
      rw [strays, Keyed.mem_map_firsts, distinctValues, Text.mem_sortedUnique]
      simp only [List.mem_map, List.mem_filter]
      grind
    · rw [List.forall₂_map_left_iff, List.forall₂_map_right_iff, List.forall₂_same]
      intro s hs
      have hmem := (List.mem_filter.mp (Keyed.mem_of_mem_firstsFrom hs)).1
      obtain ⟨hb, hservice⟩ := service_of_mem_suppliedIn hmem
      exact ⟨rfl, rfl, rfl, rfl, s.binding, hb, hservice, rfl⟩
  · rw [if_neg h]
    exact ⟨[], List.nodup_nil, by simp [h], .nil⟩

theorem expected_of_mem {m : Mismatch} (h : m ∈ casingMismatchesOf bindings service) :
    m.expected = expectation (electedCasing bindings service) service := by
  rw [casingMismatchesOf_eq] at h
  split at h
  · obtain ⟨s, -, rfl⟩ := List.mem_map.mp h
    rfl
  · simp at h

theorem reportsOn_casingMismatches {manifest : Manifest}
    (h : manifest.conventions.enumCaseOf? service = none) :
    reportsOn service (casingMismatches manifest bindings) = casingMismatchesOf bindings service := by
  have hservices : ((Text.sortedUnique (bindings.map (·.key.service))).filter fun s =>
      (manifest.conventions.enumCaseOf? s).isNone).Nodup := (Text.nodup_sortedUnique _).filter _
  rw [reportsOn, casingMismatches, filter_flatMap_eq hservices (k := service)]
  · by_cases hbound : service ∈ bindings.map (·.key.service)
    · rw [if_pos]
      exact List.mem_filter.mpr ⟨Text.mem_sortedUnique.mpr hbound, by simp [h]⟩
    · rw [casingMismatchesOf_unbound hbound, ite_self]
  · intro s _ m hm
    rw [expected_of_mem hm]
    simp only [List.any_eq_true, beq_iff_eq]
    constructor
    · rintro ⟨casing, -, heq⟩
      exact expectation_inj heq
    · rintro rfl
      exact ⟨_, (Casing.elected_best _).mem, rfl⟩

theorem nodup_distinctValues : (distinctValues bindings service).Nodup := Text.nodup_sortedUnique _

theorem card_filter_holds (casing : Casing) :
    ((distinctValues bindings service).toFinset.filter (casing.holds ·)).card =
      Casing.hits (distinctValues bindings service) casing := by
  rw [← List.toFinset_filter, List.toFinset_card_of_nodup (nodup_distinctValues.filter _), Casing.hits,
    List.countP_eq_length_filter]

theorem holds_electedCasing {casing : Casing} (hcasing : casing ∈ Casing.inferred)
    (hall : ∀ v ∈ distinctValues bindings service, casing.holds v = true) :
    ∀ v ∈ distinctValues bindings service, (electedCasing bindings service).holds v = true := by
  have hhits := (Casing.elected_best (distinctValues bindings service)).greatest casing hcasing
  rw [Casing.hits, List.countP_eq_length.mpr hall] at hhits
  exact List.countP_eq_length.mp (List.countP_le_length.antisymm hhits)

/-- What is told of a casing that prevails is less than half. -/
theorem length_told_lt {told : List String} (hnodup : told.Nodup) (hprevails : Prevails bindings service)
    (htold : ∀ v, v ∈ told ↔ v ∈ distinctValues bindings service ∧
      (electedCasing bindings service).holds v = false ∧ Prevails bindings service) :
    2 * told.length < (distinctValues bindings service).length := by
  have hperm : told.Perm ((distinctValues bindings service).filter fun v =>
      !(electedCasing bindings service).holds v) := by
    apply (List.perm_ext_iff_of_nodup hnodup (nodup_distinctValues.filter _)).mpr
    simp [htold, hprevails]
  have hsplit := List.length_eq_countP_add_countP (electedCasing bindings service).holds
    (l := distinctValues bindings service)
  have hlength : told.length = (distinctValues bindings service).countP fun v =>
      decide ¬(electedCasing bindings service).holds v = true := by
    rw [hperm.length_eq, List.countP_eq_length_filter]
    simp
  unfold Prevails Casing.hits at hprevails
  omega

end Service

/-- A service without a declared casing hears nothing if one of the casings fits all the values that it
supplies. Otherwise it is held to the first of the casings that most values follow: each value that does not
follow it is told once, and there are fewer than half of them; and nothing is told if not more than half of
the values follow it. -/
theorem minority_casing_told (manifest : Manifest) (bindings : List Binding) (service : String)
    (h : manifest.conventions.enumCaseOf? service = none) :
    ∃ supplied : Finset String, (∀ v, v ∈ supplied ↔ Supplies bindings service v) ∧
      ((∃ casing ∈ Casing.inferred, ∀ v ∈ supplied, casing.holds v = true) →
        reportsOn service (casingMismatches manifest bindings) = []) ∧
      ((¬∃ casing ∈ Casing.inferred, ∀ v ∈ supplied, casing.holds v = true) →
        ∃ (elected : Casing) (told : List String),
          Elected (fun casing => (supplied.filter (casing.holds ·)).card) Casing.inferred elected ∧
          told.Nodup ∧ 2 * told.length < supplied.card ∧
          List.Forall₂ (Flags bindings service elected)
            (reportsOn service (casingMismatches manifest bindings)) told ∧
          ∀ v, v ∈ told ↔ v ∈ supplied ∧ elected.holds v = false ∧
            supplied.card < 2 * (supplied.filter (elected.holds ·)).card) := by
  obtain ⟨told, hnodup, htold, hflags⟩ := exists_told bindings service
  rw [← reportsOn_casingMismatches h] at hflags
  have hcard : (distinctValues bindings service).toFinset.card =
      (distinctValues bindings service).length := List.toFinset_card_of_nodup nodup_distinctValues
  refine ⟨(distinctValues bindings service).toFinset, by simp [mem_distinctValues], ?_, ?_⟩
  · rintro ⟨casing, hcasing, hall⟩
    have hholds := holds_electedCasing hcasing (by simpa using hall)
    have hnone : told = [] := by
      apply List.eq_nil_iff_forall_not_mem.mpr
      intro v hv
      obtain ⟨hmem, hfails, -⟩ := (htold v).mp hv
      simp [hholds v hmem] at hfails
    rw [hnone] at hflags
    exact List.forall₂_nil_right_iff.mp hflags
  · intro hmixed
    refine ⟨electedCasing bindings service, told, ?_, hnodup, ?_, hflags, ?_⟩
    · simp only [card_filter_holds]
      exact Casing.elected_best _
    · rw [hcard]
      by_cases hprevails : Prevails bindings service
      · exact length_told_lt hnodup hprevails htold
      · have hnone : told = [] := List.eq_nil_iff_forall_not_mem.mpr fun v hv =>
          hprevails ((htold v).mp hv).2.2
        have hsome : distinctValues bindings service ≠ [] := by
          intro hempty
          exact hmixed ⟨.snake, by decide, by simp [hempty]⟩
        simpa [hnone, List.length_pos_iff] using hsome
    · intro v
      rw [htold, List.mem_toFinset, hcard, card_filter_holds]
      rfl

def statusShape (values : List String) : Shape :=
  { Shape.plain "status" .string default with enumValues := values }

def parcelShape : Shape :=
  { Shape.plain "" .object default with
    children := [statusShape ["in_transit", "pending"], { Shape.plain "history" .array default with
      items := some (statusShape ["ReturnedToSender", "delivered", "pending"]) }] }

def parcelBinding : Binding :=
  ⟨⟨"parcels", "GET /parcels", "shipping", .producer, .server, false⟩, none, some parcelShape, [], [],
    [], [], default, []⟩

def parcelValues : Finset String := {"in_transit", "pending", "ReturnedToSender", "delivered"}

/-- Three of four values are in snake case, so the fourth is told, and once. -/
theorem returned_parcel_told :
    (default : Manifest).conventions.enumCaseOf? "shipping" = none ∧
    ∃ told : List String, told.Nodup ∧
      List.Forall₂ (Flags [parcelBinding] "shipping" .snake)
        (reportsOn "shipping" (casingMismatches default [parcelBinding])) told ∧
      ∀ v, v ∈ told ↔ v = "ReturnedToSender" := by
  have hfree : (default : Manifest).conventions.enumCaseOf? "shipping" = none := rfl
  obtain ⟨supplied, hsupplied, -, hmixed⟩ :=
    minority_casing_told default [parcelBinding] "shipping" hfree
  obtain rfl : supplied = parcelValues := by
    have hvalues : (suppliedIn [parcelBinding] "shipping").map (·.use.value) =
        ["in_transit", "pending", "ReturnedToSender", "delivered", "pending"] := by decide
    ext v
    rw [hsupplied, ← mem_values_iff, hvalues]
    grind [parcelValues]
  obtain ⟨elected, told, helected, hnodup, -, hflags, htold⟩ := hmixed (by decide +kernel)
  have hbest : ∀ casing ∈ Casing.inferred, (parcelValues.filter (Casing.snake.holds ·)).card ≤
      (parcelValues.filter (casing.holds ·)).card → casing = .snake := by decide +kernel
  obtain rfl := hbest elected helected.mem (helected.greatest .snake (by decide))
  have hfourth : ∀ v ∈ parcelValues, Casing.snake.holds v = false → v = "ReturnedToSender" := by
    decide +kernel
  refine ⟨hfree, told, hnodup, hflags, fun v => (htold v).trans ⟨?_, ?_⟩⟩
  · rintro ⟨hv, hstray, -⟩
    exact hfourth v hv hstray
  · rintro rfl
    exact ⟨by decide, by decide +kernel, by decide +kernel⟩

end Convention

end Concord
