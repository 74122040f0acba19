import Mathlib.Algebra.Order.Field.Power
import Mathlib.Algebra.Order.Field.Rat
import Mathlib.Tactic.NormNum
import Mathlib.Tactic.Ring
import Concord.Bounds

/-! A range stands for the values between its bounds, so comparing ranges bound by bound is
comparing sets of values. The values next to a bound that tell two ranges apart exist since no side
of the numbers ends. -/
namespace Concord

namespace Bounds

variable {α : Type} [LinearOrder α]

def values (b : Bounds α) : Set α := {v | (∀ lo ∈ b.min, lo ≤ v) ∧ ∀ hi ∈ b.max, v ≤ hi}

theorem minTighter_iff (a b : Option α) :
    minTighter a b = true ↔ ∃ lo ∈ a, ∀ y ∈ b, y < lo := by
  cases a <;> cases b <;> simp [minTighter]

theorem maxTighter_iff (a b : Option α) :
    maxTighter a b = true ↔ ∃ hi ∈ a, ∀ y ∈ b, hi < y := by
  cases a <;> cases b <;> simp [maxTighter]

/-- Below a number that is above the lower bound a range has a value, if it has any. -/
theorem exists_mem_values_lt [NoMinOrder α] {b : Bounds α} (hb : b.values.Nonempty) {lo : α}
    (hlo : ∀ y ∈ b.min, y < lo) : ∃ v ∈ b.values, v < lo := by
  obtain ⟨v, hmin, hmax⟩ := hb
  by_cases hv : v < lo
  · exact ⟨v, ⟨hmin, hmax⟩, hv⟩
  · cases hbound : b.min with
    | none =>
      obtain ⟨w, hw⟩ := exists_lt lo
      refine ⟨w, ⟨by simp [hbound], fun hi hhi => ?_⟩, hw⟩
      exact hw.le.trans ((not_lt.mp hv).trans (hmax hi hhi))
    | some y =>
      have hy : y < lo := hlo y hbound
      refine ⟨y, ⟨by simp [hbound], fun hi hhi => ?_⟩, hy⟩
      exact hy.le.trans ((not_lt.mp hv).trans (hmax hi hhi))

theorem exists_mem_values_gt [NoMaxOrder α] {b : Bounds α} (hb : b.values.Nonempty) {hi : α}
    (hhi : ∀ y ∈ b.max, hi < y) : ∃ v ∈ b.values, hi < v := by
  obtain ⟨v, hmin, hmax⟩ := hb
  by_cases hv : hi < v
  · exact ⟨v, ⟨hmin, hmax⟩, hv⟩
  · cases hbound : b.max with
    | none =>
      obtain ⟨w, hw⟩ := exists_gt hi
      refine ⟨w, ⟨fun lo hlo => ?_, by simp [hbound]⟩, hw⟩
      exact (hmin lo hlo).trans ((not_lt.mp hv).trans hw.le)
    | some y =>
      have hy : hi < y := hhi y hbound
      refine ⟨y, ⟨fun lo hlo => ?_, by simp [hbound]⟩, hy⟩
      exact (hmin lo hlo).trans ((not_lt.mp hv).trans hy.le)

theorem not_mem_values_iff {a : Bounds α} {v : α} :
    v ∉ a.values ↔ (∃ lo ∈ a.min, v < lo) ∨ ∃ hi ∈ a.max, hi < v := by
  simp only [values, Set.mem_ofPred_eq, not_and_or, not_forall, not_le, exists_prop]

variable [NoMinOrder α] [NoMaxOrder α]

theorem narrowerThan_iff (a : Bounds α) {b : Bounds α} (hb : b.values.Nonempty) :
    a.narrowerThan b = true ↔ ∃ v ∈ b.values, v ∉ a.values := by
  rw [narrowerThan, Bool.or_eq_true, minTighter_iff, maxTighter_iff]
  constructor
  · rintro (⟨lo, hlo, htight⟩ | ⟨hi, hhi, htight⟩)
    · obtain ⟨v, hv, hlt⟩ := exists_mem_values_lt hb htight
      exact ⟨v, hv, not_mem_values_iff.mpr (.inl ⟨lo, hlo, hlt⟩)⟩
    · obtain ⟨v, hv, hlt⟩ := exists_mem_values_gt hb htight
      exact ⟨v, hv, not_mem_values_iff.mpr (.inr ⟨hi, hhi, hlt⟩)⟩
  · rintro ⟨v, ⟨hmin, hmax⟩, hv⟩
    apply (not_mem_values_iff.mp hv).imp
    · rintro ⟨lo, hlo, hlt⟩
      exact ⟨lo, hlo, fun y hy => (hmin y hy).trans_lt hlt⟩
    · rintro ⟨hi, hhi, hlt⟩
      exact ⟨hi, hhi, fun y hy => hlt.trans_le (hmax y hy)⟩

theorem values_eq_iff {a b : Bounds α} (ha : a.values.Nonempty) (hb : b.values.Nonempty) :
    a.values = b.values ↔ a.narrowerThan b = false ∧ a.broaderThan b = false := by
  rw [broaderThan, ← Bool.not_eq_true, ← Bool.not_eq_true, narrowerThan_iff a hb, narrowerThan_iff b ha]
  constructor
  · intro heq
    simp [heq]
  · rintro ⟨hnarrow, hbroad⟩
    ext v
    constructor
    · intro hv
      by_contra hnot
      exact hbroad ⟨v, hv, hnot⟩
    · intro hv
      by_contra hnot
      exact hnarrow ⟨v, hv, hnot⟩

end Bounds

namespace Binary64

/-- The rational that a finite number is. -/
def toRat? : Binary64 → Option ℚ
  | .finite neg m e _ => some ((if neg then -1 else 1) * m * 2 ^ e)
  | _ => none

theorem units_mul_zpow (neg : Bool) (m : ℕ) {e e₀ : ℤ} (h : e₀ ≤ e) :
    (units neg m e e₀ : ℚ) * 2 ^ e₀ = (if neg then -1 else 1) * m * 2 ^ e := by
  have hpow : (2 : ℚ) ^ (e - e₀).toNat * 2 ^ e₀ = 2 ^ e := by
    rw [← zpow_natCast, Int.toNat_of_nonneg (by omega), ← zpow_add₀ (by norm_num), Int.sub_add_cancel]
  cases neg <;> simp [units, ← hpow, Nat.pow_eq, mul_assoc]

theorem lt_iff_toRat {x y : Binary64} {p q : ℚ} (hx : x.toRat? = some p) (hy : y.toRat? = some q) :
    x < y ↔ p < q := by
  cases x with
  | finite na ma ea =>
    cases y with
    | finite nb mb eb =>
      obtain rfl := Option.some.inj hx
      obtain rfl := Option.some.inj hy
      rw [← units_mul_zpow na ma (min_le_left ea eb), ← units_mul_zpow nb mb (min_le_right ea eb),
        mul_lt_mul_iff_left₀ (zpow_pos (by norm_num) _), Int.cast_lt]
      exact decide_eq_true_iff
    | nan => simp [toRat?] at hy
    | inf neg => simp [toRat?] at hy
  | nan => simp [toRat?] at hx
  | inf neg => simp [toRat?] at hx

end Binary64

namespace Range

variable {a b : Range} {p q : Bounds ℚ} {x y : Option Binary64}

/-- The bounds of a range are finite, and these rationals. -/
structure Denotes (r : Range) (p : Bounds ℚ) : Prop where
  min_eq : r.min.map Binary64.toRat? = p.min.map some
  max_eq : r.max.map Binary64.toRat? = p.max.map some

theorem minTighter_eq {u v : Option ℚ} (hx : x.map Binary64.toRat? = u.map some)
    (hy : y.map Binary64.toRat? = v.map some) : Bounds.minTighter x y = Bounds.minTighter u v := by
  cases x <;> cases u <;> cases y <;> cases v <;> simp_all [Bounds.minTighter]
  exact Binary64.lt_iff_toRat hy hx

theorem maxTighter_eq {u v : Option ℚ} (hx : x.map Binary64.toRat? = u.map some)
    (hy : y.map Binary64.toRat? = v.map some) : Bounds.maxTighter x y = Bounds.maxTighter u v := by
  cases x <;> cases u <;> cases y <;> cases v <;> simp_all [Bounds.maxTighter]
  exact Binary64.lt_iff_toRat hx hy

theorem Denotes.narrowerThan_eq (ha : a.Denotes p) (hb : b.Denotes q) :
    a.narrowerThan b = p.narrowerThan q := by
  rw [Bounds.narrowerThan, Bounds.narrowerThan, minTighter_eq ha.min_eq hb.min_eq,
    maxTighter_eq ha.max_eq hb.max_eq]

/-- With bounds that are rationals, a range is narrower than one with values exactly if it refuses one of
them, and broader, if it has values itself, exactly if the other refuses one of them. So two ranges with
values are neither exactly if they admit the same values. -/
theorem narrower_iff_value_refused (ha : a.Denotes p) (hb : b.Denotes q) :
    (q.values.Nonempty → (a.narrowerThan b = true ↔ ∃ v ∈ q.values, v ∉ p.values)) ∧
    (p.values.Nonempty → (a.broaderThan b = true ↔ ∃ v ∈ p.values, v ∉ q.values)) ∧
    (p.values.Nonempty → q.values.Nonempty →
      (a.narrowerThan b = false ∧ a.broaderThan b = false ↔ p.values = q.values)) := by
  rw [Bounds.broaderThan, ha.narrowerThan_eq hb, hb.narrowerThan_eq ha]
  refine ⟨p.narrowerThan_iff, q.narrowerThan_iff, fun hp hq => ?_⟩
  exact (Bounds.values_eq_iff hp hq).symm

def fromOne : Range := ⟨some (.ofNat 1), none⟩

def upToHundred : Range := ⟨none, some (.ofNat 100)⟩

theorem fromOne_overlaps_upToHundred :
    fromOne.narrowerThan upToHundred = true ∧ fromOne.broaderThan upToHundred = true ∧
      (∃ v : ℚ, v ≤ 100 ∧ v < 1) ∧ ∃ v : ℚ, 1 ≤ v ∧ 100 < v := by
  have hone : fromOne.Denotes ⟨some 1, none⟩ := by
    have hfinite : Binary64.ofNat 1 = .finite false 4503599627370496 (-52) (by decide) := by decide
    refine ⟨?_, rfl⟩
    norm_num [fromOne, hfinite, Binary64.toRat?]
  have hhundred : upToHundred.Denotes ⟨none, some 100⟩ := by
    have hfinite : Binary64.ofNat 100 = .finite false 7036874417766400 (-46) (by decide) := by decide
    refine ⟨rfl, ?_⟩
    norm_num [upToHundred, hfinite, Binary64.toRat?]
  obtain ⟨hnarrow, hbroad, -⟩ := narrower_iff_value_refused hone hhundred
  have hlow := (hnarrow ⟨100, by simp [Bounds.values]⟩).mp (by decide)
  have hhigh := (hbroad ⟨1, by simp [Bounds.values]⟩).mp (by decide)
  refine ⟨by decide, by decide, ?_, ?_⟩
  · simpa [Bounds.values] using hlow
  · simpa [Bounds.values] using hhigh

end Range

end Concord
