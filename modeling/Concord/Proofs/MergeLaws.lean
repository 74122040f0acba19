import Concord.Proofs.MergedShapes

/-! Shapes whose members have different names and whose enum values ascend form a band under
merging: it is associative and idempotent, and keeps both. The members of a union are those of the
first shape and then those that only the second one has. -/
namespace Concord

variable {a b s : Shape}

namespace Keyed

variable {α κ : Type} [DecidableEq κ]

theorem eq_of_keys_of_find? (key : α → κ) {l l' : List α} (hkeys : l.map key = l'.map key)
    (hnodup : (l.map key).Nodup) (hfind : ∀ k, l.find? (key · == k) = l'.find? (key · == k)) :
    l = l' := by
  induction l generalizing l' with
  | nil => exact (List.map_eq_nil_iff.mp hkeys.symm).symm
  | cons a l ih =>
    cases l' with
    | nil => simp at hkeys
    | cons a' l' =>
      obtain ⟨hkey, htail⟩ : key a = key a' ∧ l.map key = l'.map key := by simpa using hkeys
      obtain ⟨ha, hnodup⟩ := List.nodup_cons.mp hnodup
      have hhead : a = a' := by simpa [hkey] using hfind (key a)
      subst hhead
      rw [ih htail hnodup]
      intro k
      by_cases hk : key a = k
      · subst hk
        rw [List.find?_eq_none.mpr, List.find?_eq_none.mpr]
        · simpa [htail] using ha
        · simpa using ha
      · simpa [hk] using hfind k

end Keyed

namespace Text

theorem sortedUnique_congr {names names' : List String} (h : ∀ x, x ∈ names ↔ x ∈ names') :
    sortedUnique names = sortedUnique names' :=
  eq_of_ascending (ascending_dropRepeats_mergeSort names) (ascending_dropRepeats_mergeSort names')
    fun x => by simpa using h x

theorem compare_eq_lt_iff {a b : String} : compare a b = .lt ↔ a < b := compareOfLessAndEq_eq_lt

theorem sortedUnique_ascending (names : List String) : (sortedUnique names).Pairwise (· < ·) := by
  apply List.Pairwise.imp ?_ (ascending_dropRepeats_mergeSort names)
  exact fun h => compare_eq_lt_iff.mp h

theorem sortedUnique_of_ascending {names : List String} (h : names.Pairwise (· < ·)) :
    sortedUnique names = names := by
  refine eq_of_ascending (ascending_dropRepeats_mergeSort names) ?_ fun x => by simp
  exact h.imp fun hlt => compare_eq_lt_iff.mpr hlt

end Text

namespace Shape

/-- The members of a shape have different names and its enum values ascend, without repetitions; and so
it is with every shape inside it. -/
def Tidy (s : Shape) : Prop :=
  s.every (fun s => decide (s.names.Nodup ∧ s.enumValues.Pairwise (· < ·))) = true

instance (s : Shape) : Decidable s.Tidy := inferInstanceAs (Decidable (_ = true))

theorem tidy_iff : s.Tidy ↔ (s.names.Nodup ∧ s.enumValues.Pairwise (· < ·)) ∧
    (∀ c ∈ s.children, c.Tidy) ∧ ∀ i ∈ s.items, i.Tidy := by
  rw [Tidy, every_iff, decide_eq_true_iff]
  rfl

theorem Tidy.namesApart (h : s.Tidy) : s.NamesApart := by
  induction s using induction_inside with
  | step s ihchildren ihitems =>
    obtain ⟨⟨hnames, -⟩, hchildren, hitems⟩ := tidy_iff.mp h
    exact namesApart_iff.mpr
      ⟨hnames, fun c hc => ihchildren c hc (hchildren c hc), fun i hi => ihitems i hi (hitems i hi)⟩

theorem Tidy.step {s t : Shape} (h : s.Tidy) {step : Step} (ht : s.step? step = some t) : t.Tidy := by
  obtain ⟨-, hchildren, hitems⟩ := tidy_iff.mp h
  cases step with
  | member name => exact hchildren t (List.mem_of_find?_eq_some ht)
  | item => exact hitems t ht

theorem names_mergeChildren {theirs : List Shape} (h : (theirs.map (·.name)).Nodup)
    (mine : List Shape) :
    (mergeChildren mine theirs).map (·.name) =
      mine.map (·.name) ++ (theirs.map (·.name)).filter (· ∉ mine.map (·.name)) := by
  induction theirs generalizing mine with
  | nil => simp [mergeChildren]
  | cons c cs ih =>
    obtain ⟨hc, hcs⟩ := List.nodup_cons.mp h
    rw [mergeChildren, ih hcs, Keyed.map_upsert Shape.name fun m => name_merge m c]
    by_cases hmem : c.name ∈ mine.map (·.name)
    · rw [if_pos hmem, List.map_cons, List.filter_cons_of_neg (by simpa using hmem)]
    · -- the name has just been added, and no later one is the same
      have hlater : (cs.map (·.name)).filter (· ∉ mine.map (·.name) ++ [c.name]) =
          (cs.map (·.name)).filter (· ∉ mine.map (·.name)) := by
        refine List.filter_congr fun n hn => ?_
        have : n ≠ c.name := by
          rintro rfl
          exact hc hn
        simp [this]
      rw [if_neg hmem, hlater, List.map_cons, List.filter_cons_of_pos (by simpa using hmem)]
      simp

theorem names_merge (a : Shape) (hb : b.names.Nodup) :
    (a.merge b).names = a.names ++ b.names.filter (· ∉ a.names) := by
  rw [names, children_merge, names_mergeChildren hb]
  rfl

theorem enumValues_merge (a b : Shape) :
    (a.merge b).enumValues = Text.sortedUnique (a.enumValues ++ b.enumValues) := by
  cases b
  rfl

theorem Tidy.merge (ha : a.Tidy) (hb : b.Tidy) : (a.merge b).Tidy := by
  refine every_merge (fun a b htidy => ?_) ha hb
  rw [decide_eq_true_iff] at htidy ⊢
  constructor
  · rw [names, children_merge]
    exact nodup_mergeChildren htidy.1
  · rw [enumValues_merge]
    exact Text.sortedUnique_ascending _

def alone (s : Shape) : Shape := { s with children := [], items := none }

theorem eq_of_steps {s t : Shape} (halone : s.alone = t.alone) (hnodup : s.names.Nodup)
    (hnames : s.names = t.names) (hstep : ∀ step, s.step? step = t.step? step) : s = t := by
  have hchildren : s.children = t.children :=
    Keyed.eq_of_keys_of_find? Shape.name hnames hnodup fun name => hstep (.member name)
  have hitems : s.items = t.items := hstep .item
  cases s
  cases t
  simp only [alone, mk.injEq] at halone hchildren hitems ⊢
  simp only [halone, hchildren, hitems, and_self]

/-- What holds of a shape as soon as it holds wherever a step leads holds of every shape. -/
theorem induction_steps {P : Shape → Prop}
    (inside : ∀ s : Shape, (∀ step t, s.step? step = some t → P t) → P s) (s : Shape) : P s := by
  induction s using induction_inside with
  | step s ihchildren ihitems =>
    refine inside s fun step t ht => ?_
    cases step with
    | member name => exact ihchildren t (List.mem_of_find?_eq_some ht)
    | item => exact ihitems t ht

theorem Tidy.nodup_names (h : s.Tidy) : s.names.Nodup := (tidy_iff.mp h).1.1

theorem alone_merge_assoc (a b c : Shape) :
    ((a.merge b).merge c).alone = (a.merge (b.merge c)).alone := by
  have hvalues : Text.sortedUnique (Text.sortedUnique (a.enumValues ++ b.enumValues) ++ c.enumValues) =
      Text.sortedUnique (a.enumValues ++ Text.sortedUnique (b.enumValues ++ c.enumValues)) :=
    Text.sortedUnique_congr fun x => by simp [or_assoc]
  cases a
  cases b
  cases c
  simp only [alone, merge, Option.or_assoc, Bool.or_assoc, hvalues]
  congr 1
  · grind
  · grind

theorem names_merge_assoc {a b c : Shape} (hb : b.Tidy) (hc : c.Tidy) :
    ((a.merge b).merge c).names = (a.merge (b.merge c)).names := by
  rw [names_merge _ hc.nodup_names, names_merge _ hb.nodup_names, names_merge _ (hb.merge hc).nodup_names,
    names_merge _ hc.nodup_names, List.append_assoc, List.filter_append, List.filter_filter]
  congr 2
  refine List.filter_congr fun n _ => ?_
  by_cases hn : n ∈ a.names <;> simp [hn]

theorem merge_assoc {a b c : Shape} (ha : a.Tidy) (hb : b.Tidy) (hc : c.Tidy) :
    (a.merge b).merge c = a.merge (b.merge c) := by
  induction a using induction_steps generalizing b c with
  | inside a ih =>
    refine eq_of_steps (alone_merge_assoc a b c) ((ha.merge hb).merge hc).nodup_names
      (names_merge_assoc hb hc) fun step => ?_
    rw [step?_merge hc.nodup_names, step?_merge hb.nodup_names, step?_merge (hb.merge hc).nodup_names,
      step?_merge hc.nodup_names]
    cases hx : a.step? step with
    | none => simp
    | some x =>
      cases hy : b.step? step with
      | none => simp
      | some y =>
        cases hz : c.step? step with
        | none => simp
        | some z => simp [ih step x hx (ha.step hx) (hb.step hy) (hc.step hz)]

theorem alone_merge_self (ha : a.Tidy) : (a.merge a).alone = a.alone := by
  have hvalues : Text.sortedUnique (a.enumValues ++ a.enumValues) = a.enumValues := by
    rw [← Text.sortedUnique_of_ascending (tidy_iff.mp ha).1.2]
    exact Text.sortedUnique_congr fun x => by simp
  cases a
  simp only [alone, merge, Option.or_self, Bool.or_self, ite_self, hvalues]
  congr 1
  grind

theorem merge_self (ha : a.Tidy) : a.merge a = a := by
  induction a using induction_steps with
  | inside a ih =>
    refine eq_of_steps (alone_merge_self ha) (ha.merge ha).nodup_names ?_ fun step => ?_
    · rw [names_merge _ ha.nodup_names, List.filter_eq_nil_iff.mpr (by simp), List.append_nil]
    · rw [step?_merge ha.nodup_names]
      cases hx : a.step? step with
      | none => rfl
      | some x => exact congrArg some (ih step x hx (ha.step hx))

/-- The steps that lead to a field in a union are those that do in either shape. -/
theorem isSome_at?_merge (a : Shape) (hb : b.Tidy) (steps : List Step) :
    (at? steps (a.merge b)).isSome = true ↔
      (at? steps a).isSome = true ∨ (at? steps b).isSome = true := by
  have haccount (s : Shape) : (at? steps s).isSome = (accountAt (some s) steps).isSome := by
    simp [accountAt]
  rw [haccount, haccount, haccount, accountAt_merge a hb.namesApart]
  cases accountAt (some a) steps <;> cases accountAt (some b) steps <;> simp

/-- Merging shapes with different names and ascending values is associative and idempotent, and takes a
shape in once only. The union is again such a shape, its members are those of the first and then those
that only the second has, and what either has at the end of some steps the union has too. -/
theorem merge_is_union {a b c : Shape} (ha : a.Tidy) (hb : b.Tidy) (hc : c.Tidy) :
    (a.merge b).merge c = a.merge (b.merge c) ∧ a.merge a = a ∧ (a.merge b).merge b = a.merge b ∧
    (a.merge b).Tidy ∧ (a.merge b).names = a.names ++ b.names.filter (· ∉ a.names) ∧
    ∀ steps, (at? steps (a.merge b)).isSome = true ↔
      (at? steps a).isSome = true ∨ (at? steps b).isSome = true := by
  refine ⟨merge_assoc ha hb hc, merge_self ha, ?_, ha.merge hb, names_merge a hb.nodup_names,
    isSome_at?_merge a hb⟩
  rw [merge_assoc ha hb hb, merge_self hb]

def orderOrigin : Origin := ⟨⟨"shop/api.go", 1, 1⟩, ""⟩

def orderSent (value : String) (field : String) : Shape :=
  { plain "" .object orderOrigin with
    children := [
      { plain "status" .enum orderOrigin with enumValues := [value] },
      { plain "lines" .array orderOrigin with
        items := some { plain "[]" .object orderOrigin with
          children := [plain field .string orderOrigin] } }] }

/-- Three places send an order, each with another field of its lines. -/
theorem orders_united :
    (orderSent "paid" "sku").Tidy ∧ (orderSent "open" "count").Tidy ∧ (orderSent "sent" "note").Tidy ∧
    ((orderSent "paid" "sku").merge (orderSent "open" "count")).merge (orderSent "sent" "note") =
      (orderSent "paid" "sku").merge ((orderSent "open" "count").merge (orderSent "sent" "note")) ∧
    ((orderSent "paid" "sku").merge (orderSent "open" "count")).names = ["status", "lines"] ∧
    (at? [.member "lines", .item, .member "count"]
      ((orderSent "paid" "sku").merge (orderSent "open" "count"))).isSome = true := by
  have hsku : (orderSent "paid" "sku").Tidy := by decide
  have hcount : (orderSent "open" "count").Tidy := by decide
  have hnote : (orderSent "sent" "note").Tidy := by decide
  have hunion := merge_is_union hsku hcount hnote
  exact ⟨hsku, hcount, hnote, hunion.1, hunion.2.2.2.2.1.trans (by decide),
    (hunion.2.2.2.2.2 _).mpr (.inr (by decide))⟩

end Shape

end Concord
