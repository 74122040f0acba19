import Concord.Manifest.Schema
import Concord.Proofs.Cuts

/-! Anchors are looked for one after the other, each from the line after the last one on. Taking the
first line for an anchor leaves the most lines to those after it, so the last anchor is found as
early as it can be in any walk through the lines. -/
namespace Concord.Manifest

open Text

variable {ls : List (List Char)} {is : List Nat}

/-- Lines from `start` on, each after the one before, that hold the anchors in turn. -/
inductive Walk (ls : List (List Char)) : (start : Nat) → (anchors : List (List Char)) → List Nat → Prop
  | nil {start : Nat} : Walk ls start [] []
  | cons {start i : Nat} {a t : List Char} {anchors : List (List Char)} {is : List Nat}
      (hstart : start ≤ i) (hline : ls[i]? = some t) (hholds : a <:+: t)
      (hrest : Walk ls (i + 1) anchors is) : Walk ls start (a :: anchors) (i :: is)

def EndsOn (ls : List (List Char)) (start : Nat) (anchors : List (List Char)) (i : Nat) : Prop :=
  ∃ is, Walk ls start anchors is ∧ is.getLast? = some i

/-- The first line that a walk can end on, and the bytes before the last anchor there. -/
structure Earliest (ls : List (List Char)) (start : Nat) (anchors : List (List Char))
    (line column : Nat) : Prop where
  ends : EndsOn ls start anchors line
  least : ∀ i, EndsOn ls start anchors i → line ≤ i
  occurs : ∃ a t before rest, anchors.getLast? = some a ∧ ls[line]? = some t ∧
    t = before ++ (a ++ rest) ∧ column = byteSize before ∧
    ∀ before' rest', t = before' ++ (a ++ rest') → before.length ≤ before'.length

theorem Walk.mono {start start' : Nat} {anchors : List (List Char)} (h : Walk ls start anchors is)
    (hle : start' ≤ start) : Walk ls start' anchors is := by
  cases h with
  | nil => exact .nil
  | cons hstart hline hholds hrest => exact .cons (Nat.le_trans hle hstart) hline hholds hrest

/-- Line `i` is the first from `start` on that holds an anchor. -/
structure FirstLine (ls : List (List Char)) (a : List Char) (start i : Nat) : Prop where
  start_le : start ≤ i
  holds : ∃ t, ls[i]? = some t ∧ a <:+: t
  first : ∀ j t, start ≤ j → ls[j]? = some t → a <:+: t → i ≤ j

theorem findLine?_cases (ls : List (List Char)) (a : List Char) (start : Nat) :
    (∃ i t before rest, findLine? a start (ls.drop start) = some (i, byteSize before, ls.drop (i + 1)) ∧
      FirstLine ls a start i ∧ ls[i]? = some t ∧ cut? a t = some (before, rest)) ∨
    (findLine? a start (ls.drop start) = none ∧
      ∀ j t, start ≤ j → ls[j]? = some t → ¬a <:+: t) := by
  induction hdrop : ls.drop start generalizing start with
  | nil =>
    refine .inr ⟨rfl, fun j t hj ht _ => ?_⟩
    have := List.drop_eq_nil_iff.mp hdrop
    obtain ⟨hlt, -⟩ := List.getElem?_eq_some_iff.mp ht
    omega
  | cons t rest ih =>
    have hline : ls[start]? = some t := by simpa using congrArg List.head? hdrop
    have hrest : ls.drop (start + 1) = rest := by rw [← List.tail_drop, hdrop, List.tail_cons]
    rw [findLine?, find?]
    cases hcut : cut? a t with
    | some p =>
      obtain ⟨before, after⟩ := p
      have hholds : a <:+: t := ⟨before, after, by rw [eq_of_cut? hcut, List.append_assoc]⟩
      exact .inl ⟨start, t, before, after, by simp [hrest],
        ⟨Nat.le_refl _, ⟨t, hline, hholds⟩, fun j _ hj _ _ => hj⟩, hline, hcut⟩
    | none =>
      have habsent := cut?_eq_none_iff.mp hcut
      have hnext {j : Nat} {u : List Char} (hj : start ≤ j) (hu : ls[j]? = some u) (ha : a <:+: u) :
          start + 1 ≤ j := by
        refine Nat.lt_of_le_of_ne hj ?_
        rintro rfl
        exact habsent (Option.some.inj (hline.symm.trans hu) ▸ ha)
      rcases ih (start + 1) hrest with ⟨i, u, before, after, hfind, hfirst, hu, hucut⟩ | ⟨hfind, hnone⟩
      · exact .inl ⟨i, u, before, after, by simpa using hfind, ⟨Nat.le_of_succ_le hfirst.start_le,
          hfirst.holds, fun j v hj hv ha => hfirst.first j v (hnext hj hv ha) hv ha⟩, hu, hucut⟩
      · exact .inr ⟨by simpa using hfind, fun j v hj hv ha => hnone j v (hnext hj hv ha) hv ha⟩

namespace FirstLine

variable {a : List Char} {anchors : List (List Char)} {start i : Nat}

theorem walk_cons (h : FirstLine ls a start i) (hw : Walk ls (i + 1) anchors is) :
    Walk ls start (a :: anchors) (i :: is) := by
  obtain ⟨t, ht, ha⟩ := h.holds
  exact .cons h.start_le ht ha hw

/-- The walk goes on from the first line as well as from any other that holds the anchor. -/
theorem walk_tail (h : FirstLine ls a start i) {j : Nat} (hw : Walk ls start (a :: anchors) (j :: is)) :
    i ≤ j ∧ Walk ls (i + 1) anchors is := by
  cases hw with
  | cons hstart hline hholds hrest =>
    have hle := h.first j _ hstart hline hholds
    exact ⟨hle, hrest.mono (Nat.succ_le_succ hle)⟩

theorem exists_walk_iff (h : FirstLine ls a start i) :
    (∃ is, Walk ls start (a :: anchors) is) ↔ ∃ is, Walk ls (i + 1) anchors is := by
  constructor
  · rintro ⟨_ | ⟨j, is⟩, hw⟩
    · cases hw
    · exact ⟨is, (h.walk_tail hw).2⟩
  · rintro ⟨is, hw⟩
    exact ⟨i :: is, h.walk_cons hw⟩

theorem earliest_singleton (h : FirstLine ls a start i) {t before rest : List Char}
    (ht : ls[i]? = some t) (hcut : cut? a t = some (before, rest)) :
    Earliest ls start [a] i (byteSize before) where
  ends := ⟨[i], h.walk_cons .nil, rfl⟩
  least := by
    rintro j ⟨_ | ⟨k, is⟩, hw, hlast⟩
    · cases hw
    · obtain ⟨hle, hrest⟩ := h.walk_tail hw
      cases hrest with
      | nil =>
        obtain rfl : k = j := by simpa using hlast
        exact hle
  occurs := ⟨a, t, before, rest, rfl, ht, eq_of_cut? hcut, rfl, fun _ _ => cut?_first hcut⟩

theorem earliest_cons (h : FirstLine ls a start i) {line column : Nat}
    (hrest : Earliest ls (i + 1) anchors line column) : Earliest ls start (a :: anchors) line column where
  ends := by
    obtain ⟨is, hw, hlast⟩ := hrest.ends
    exact ⟨i :: is, h.walk_cons hw, by simp [List.getLast?_cons, hlast]⟩
  least := by
    rintro j ⟨_ | ⟨k, is⟩, hw, hlast⟩
    · cases hw
    · obtain ⟨-, htail⟩ := h.walk_tail hw
      refine hrest.least j ⟨is, htail, ?_⟩
      cases is with
      | nil =>
        -- the anchors that remain end on some line, so there are some
        cases htail with
        | nil =>
          obtain ⟨_, hnil, hsome⟩ := hrest.ends
          cases hnil with
          | nil => cases hsome
      | cons l is => rwa [List.getLast?_cons_cons] at hlast
  occurs := by
    obtain ⟨b, t, before, rest, hlast, hfound⟩ := hrest.occurs
    exact ⟨b, t, before, rest, by simp [List.getLast?_cons, hlast], hfound⟩

end FirstLine

theorem locateFrom_filter (found : Nat × Nat) (line : Nat) (ls anchors : List (List Char)) :
    locateFrom found line ls anchors = locateFrom found line ls (anchors.filter (!·.isEmpty)) := by
  induction anchors generalizing found line ls with
  | nil => rfl
  | cons a anchors ih =>
    by_cases ha : a.isEmpty = true
    · rw [locateFrom, if_pos ha, List.filter_cons_of_neg (by simp [ha]), ih]
    · rw [List.filter_cons_of_pos (by simpa using ha), locateFrom, locateFrom, if_neg ha, if_neg ha]
      cases findLine? a line ls with
      | none => rfl
      | some p => exact ih _ _ _

/-- The search takes the longest part of the anchors that has a walk, to its earliest end. -/
theorem locateFrom_spec (ls : List (List Char)) {anchors : List (List Char)}
    (hne : ∀ a ∈ anchors, a.isEmpty = false) (found : Nat × Nat) (start : Nat) :
    ∃ n, (∀ k ≤ anchors.length, (∃ is, Walk ls start (anchors.take k) is) ↔ k ≤ n) ∧
      (n = 0 ∧ locateFrom found start (ls.drop start) anchors = found ∨
        ∃ line column, Earliest ls start (anchors.take n) line column ∧
          locateFrom found start (ls.drop start) anchors = (line + 1, column + 1)) := by
  induction anchors generalizing found start with
  | nil => exact ⟨0, fun k hk => by simpa [Nat.le_zero.mp hk] using ⟨[], Walk.nil⟩, .inl ⟨rfl, rfl⟩⟩
  | cons a anchors ih =>
    obtain ⟨ha, hne⟩ := List.forall_mem_cons.mp hne
    rw [locateFrom, if_neg (by simp [ha])]
    rcases findLine?_cases ls a start with ⟨i, t, before, rest, hfind, hfirst, ht, hcut⟩ | ⟨hfind, hnone⟩
    · obtain ⟨n, hn, hplace⟩ := ih hne (i + 1, byteSize before + 1) (i + 1)
      rw [hfind]
      refine ⟨n + 1, fun k hk => ?_, .inr ?_⟩
      · cases k with
        | zero => simpa using ⟨[], Walk.nil⟩
        | succ k =>
          rw [List.take_succ_cons, hfirst.exists_walk_iff, hn k (Nat.le_of_succ_le_succ hk),
            Nat.succ_le_succ_iff]
      · rw [List.take_succ_cons]
        rcases hplace with ⟨rfl, hplace⟩ | ⟨line, column, hearliest, hplace⟩
        · exact ⟨i, _, hfirst.earliest_singleton ht hcut, hplace⟩
        · exact ⟨line, column, hfirst.earliest_cons hearliest, hplace⟩
    · rw [hfind]
      refine ⟨0, fun k _ => ?_, .inl ⟨rfl, rfl⟩⟩
      cases k with
      | zero => simpa using ⟨[], Walk.nil⟩
      | succ k =>
        refine iff_of_false ?_ (Nat.not_succ_le_zero k)
        rintro ⟨is, hw⟩
        cases hw with
        | cons hstart hline hholds hrest => exact hnone _ _ hstart hline hholds

/-- The texts of the anchors that are not empty. -/
def anchorTexts (anchors : List String) : List (List Char) :=
  (anchors.map String.toList).filter (!·.isEmpty)

/-- A manifest entry is located at the earliest end of a walk through the lines of the manifest along
its anchors, the empty ones apart; if there is no walk along all of them, along the most that have one,
and at the start of the manifest if the first has none. -/
theorem located_earliest (m : Manifest) (anchors : List String) :
    ∃ n, (∀ k ≤ (anchorTexts anchors).length,
        (∃ is, Walk (lines m.text.toList) 0 ((anchorTexts anchors).take k) is) ↔ k ≤ n) ∧
      (n = 0 ∧ m.locate anchors = ⟨m.path, 1, 1⟩ ∨
        ∃ line column, Earliest (lines m.text.toList) 0 ((anchorTexts anchors).take n) line column ∧
          m.locate anchors = ⟨m.path, line + 1, column + 1⟩) := by
  have hne : ∀ a ∈ anchorTexts anchors, a.isEmpty = false := by
    intro a ha
    simpa using (List.mem_filter.mp ha).2
  obtain ⟨n, hn, hplace⟩ := locateFrom_spec (lines m.text.toList) hne (1, 1) 0
  refine ⟨n, hn, ?_⟩
  rw [locate, locateFrom_filter, ← anchorTexts]
  rcases hplace with ⟨rfl, hplace⟩ | ⟨line, column, hearliest, hplace⟩
  · exact .inl ⟨rfl, by rw [← List.drop_zero (l := lines _), hplace]⟩
  · exact .inr ⟨line, column, hearliest, by rw [← List.drop_zero (l := lines _), hplace]⟩

end Concord.Manifest
