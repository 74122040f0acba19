import Concord.Source.Basic

/-! Line starts ascend from zero, so the search among them for an offset, whether it finds a line
that starts there or not, counts the lines up to it: one more than the newlines before it. -/
namespace Concord.Source

variable {bytes : List UInt8} {offset start : Nat}

theorem mem_startsAfter (h : start ∈ startsAfter bytes offset) :
    ∃ n, start = offset + n + 1 ∧ bytes[n]? = some Byte.newline := by
  induction bytes generalizing offset with
  | nil => simp [startsAfter] at h
  | cons b rest ih =>
    have hlater (h : start ∈ startsAfter rest (offset + 1)) :
        ∃ n, start = offset + n + 1 ∧ (b :: rest)[n]? = some Byte.newline := by
      obtain ⟨n, rfl, hn⟩ := ih h
      exact ⟨n + 1, by omega, by simpa using hn⟩
    rw [startsAfter] at h
    by_cases hb : b = Byte.newline
    · rw [if_pos (by simpa using hb)] at h
      rcases List.mem_cons.mp h with rfl | h
      · exact ⟨0, rfl, by simp [hb]⟩
      · exact hlater h
    · rw [if_neg (by simpa using hb)] at h
      exact hlater h

theorem lt_of_mem_startsAfter (h : start ∈ startsAfter bytes offset) : offset < start := by
  obtain ⟨n, rfl, -⟩ := mem_startsAfter h
  omega

theorem startsAfter_pairwise (bytes : List UInt8) (offset : Nat) :
    (startsAfter bytes offset).Pairwise (· < ·) := by
  induction bytes generalizing offset with
  | nil => exact .nil
  | cons b rest ih =>
    rw [startsAfter]
    split
    · exact List.pairwise_cons.mpr ⟨fun _ => lt_of_mem_startsAfter, ih _⟩
    · exact ih _

theorem lineStartsOf_pairwise (bytes : List UInt8) : (lineStartsOf bytes).Pairwise (· < ·) :=
  List.pairwise_cons.mpr ⟨fun _ => lt_of_mem_startsAfter, startsAfter_pairwise _ _⟩

theorem countP_startsAfter (bytes : List UInt8) (base offset : Nat) :
    (startsAfter bytes base).countP (· ≤ base + offset) = (bytes.take offset).count Byte.newline := by
  induction bytes generalizing base offset with
  | nil => simp [startsAfter]
  | cons b rest ih =>
    cases offset with
    | zero =>
      refine List.countP_eq_zero.mpr fun start hstart => ?_
      simpa using lt_of_mem_startsAfter hstart
    | succ offset =>
      have hrest := ih (base + 1) offset
      rw [show base + 1 + offset = base + (offset + 1) by omega] at hrest
      rw [startsAfter, List.take_succ_cons, List.count_cons, ← hrest]
      split
      · rw [List.countP_cons_of_pos (by simp)]
      · rfl

/-- In an ascending list the numbers up to `x` are those before the first that reaches it, and `x`. -/
theorem countP_le_eq {xs : List Nat} (h : xs.Pairwise (· < ·)) (x : Nat) :
    xs.countP (· ≤ x) =
      xs.findIdx (x ≤ ·) + if xs[xs.findIdx (x ≤ ·)]? = some x then 1 else 0 := by
  induction xs with
  | nil => simp
  | cons a xs ih =>
    obtain ⟨ha, hxs⟩ := List.pairwise_cons.mp h
    by_cases hx : x ≤ a
    · have hnone : xs.countP (· ≤ x) = 0 := by
        refine List.countP_eq_zero.mpr fun b hb => ?_
        have := ha b hb
        simp only [decide_eq_true_eq]
        omega
      have hhead : a ≤ x ↔ a = x := by omega
      simp [List.findIdx_cons, List.countP_cons, hx, hnone, hhead]
    · have hhead : a ≤ x := by omega
      simp only [List.findIdx_cons, List.countP_cons, hx, hhead, ih hxs, decide_true, decide_false,
        cond_false, List.getElem?_cons_succ, if_true]
      omega

theorem lineIndex_eq {starts : List Nat} (h : (0 :: starts).Pairwise (· < ·)) (offset : Nat) :
    lineIndex (0 :: starts) offset + 1 = (0 :: starts).countP (· ≤ offset) := by
  have hcount := countP_le_eq h offset
  have hpos : 0 < (0 :: starts).countP (· ≤ offset) := by simp
  rw [lineIndex, searchAscending]
  by_cases hfound : (0 :: starts)[(0 :: starts).findIdx (offset ≤ ·)]? = some offset
  · rw [if_pos hfound] at hcount
    simp only [hfound, beq_self_eq_true, if_true]
    exact hcount.symm
  · rw [if_neg hfound] at hcount
    simp only [beq_iff_eq, hfound, if_false]
    omega

theorem lineAt_eq (bytes : List UInt8) (offset : Nat) :
    lineAt bytes offset = (bytes.take offset).count Byte.newline + 1 := by
  have hcount := countP_startsAfter bytes 0 offset
  rw [Nat.zero_add] at hcount
  rw [lineAt, lineStartsOf, lineIndex_eq (lineStartsOf_pairwise bytes),
    List.countP_cons_of_pos (by simp), hcount]

end Concord.Source
