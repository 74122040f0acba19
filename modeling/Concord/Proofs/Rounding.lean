import Mathlib.Data.Nat.Log
import Mathlib.Tactic.Linarith
import Mathlib.Tactic.Positivity
import Concord.Proofs.AdmittedValues

/-! A quotient is rounded on the grid of numbers with a mantissa of 53 bits. What is on the grid is
kept, and rounding does not lead across a number of the grid. So the difference of two numbers that
lie close together is compared with a tolerance as if it were exact. -/
namespace Concord.Binary64

variable {e ea eb k v : ℤ} {m ma mb : ℕ} {neg : Bool}

theorem scaled_pos {p q : ℕ} (hq : 0 < q) (e : ℤ) : 0 < (scaled p q e).2 := by
  unfold scaled
  split
  · exact Nat.mul_pos hq (Nat.pow_pos (by decide))
  · exact hq

theorem scaled_div (p q : ℕ) (e : ℤ) :
    ((scaled p q e).1 : ℚ) / (scaled p q e).2 = p / q / 2 ^ e := by
  unfold scaled
  split
  · next he =>
    have hpow : (2 : ℚ) ^ e = 2 ^ e.toNat := by
      rw [← zpow_natCast, Int.toNat_of_nonneg he]
    simp [hpow, Nat.pow_eq, div_div]
  · next he =>
    have hpow : (2 : ℚ) ^ e = (2 ^ (-e).toNat)⁻¹ := by
      rw [← zpow_natCast, Int.toNat_of_nonneg (by omega), zpow_neg, inv_inv]
    simp [hpow, Nat.pow_eq, mul_div_right_comm]

/-- The exponent of the grid that a positive quotient is rounded on. -/
def gridExponent (p q : ℕ) : ℤ :=
  let e := (p.log2 : ℤ) - q.log2 - 52
  max (-1074) (if (scaled p q e).1 / (scaled p q e).2 < 2 ^ 52 then e - 1 else e)

/-- The multiple of the grid that is nearest to a positive quotient. -/
def gridMantissa (p q : ℕ) : ℕ :=
  roundQuotient (scaled p q (gridExponent p q)).1 (scaled p q (gridExponent p q)).2

/-- The mantissa and the exponent of the number of the grid that is nearest to a positive quotient. A
mantissa of one bit too many belongs to the next grid. -/
def gridNumber (p q : ℕ) : ℕ × ℤ :=
  if gridMantissa p q = 2 ^ 53 then (2 ^ 52, gridExponent p q + 1)
  else (gridMantissa p q, gridExponent p q)

theorem ofQuotient_eq (neg : Bool) {p : ℕ} (hp : p ≠ 0) (q : ℕ) : ofQuotient neg p q =
    if h : FitsBinary64 (gridNumber p q).1 (gridNumber p q).2 then .finite neg _ _ h else .inf neg := by
  rw [ofQuotient, if_neg hp]
  rfl

theorem gridNumber_value (p q : ℕ) : ((gridNumber p q).1 : ℚ) * 2 ^ (gridNumber p q).2 =
    gridMantissa p q * 2 ^ gridExponent p q := by
  unfold gridNumber
  split
  · next hcarry =>
    rw [hcarry, zpow_add_one₀ two_ne_zero]
    push_cast
    ring
  · rfl

theorem gridNumber_exponent_le (p q : ℕ) : (gridNumber p q).2 ≤ gridExponent p q + 1 := by
  unfold gridNumber
  split
  · exact le_rfl
  · exact Int.le_add_one le_rfl

theorem div_le_roundQuotient (n d : ℕ) : n / d ≤ roundQuotient n d := by
  unfold roundQuotient
  dsimp only
  split_ifs <;> omega

theorem roundQuotient_le (n d : ℕ) : roundQuotient n d ≤ n / d + 1 := by
  unfold roundQuotient
  dsimp only
  split_ifs <;> omega

theorem roundQuotient_of_dvd {n d : ℕ} (hd : 0 < d) (h : d ∣ n) : roundQuotient n d = n / d := by
  have hrest : 2 * (n % d) < d := by
    rw [Nat.mod_eq_zero_of_dvd h]
    exact hd
  rw [roundQuotient, if_pos hrest]

theorem exists_mul_zpow_eq (m : ℕ) (h : e ≤ k) : ∃ n : ℕ, (n : ℚ) * 2 ^ e = m * 2 ^ k := by
  refine ⟨m * 2 ^ (k - e).toNat, ?_⟩
  rw [Nat.cast_mul, Nat.cast_pow, Nat.cast_ofNat, ← zpow_natCast, Int.toNat_of_nonneg (by omega),
    mul_assoc, ← zpow_add₀ two_ne_zero, Int.sub_add_cancel]

theorem div_lt_two_zpow (p : ℕ) {q : ℕ} (hq : 0 < q) :
    (p : ℚ) / q < 2 ^ ((p.log2 : ℤ) - q.log2 + 1) := by
  have hhigh : (p : ℚ) < 2 ^ ((p.log2 : ℤ) + 1) := by
    exact_mod_cast Nat.lt_log2_self
  have hlow : (2 : ℚ) ^ (q.log2 : ℤ) ≤ q := by
    exact_mod_cast Nat.log2_self_le hq.ne'
  rw [div_lt_iff₀ (by exact_mod_cast hq)]
  calc (p : ℚ) < 2 ^ ((p.log2 : ℤ) + 1) := hhigh
    _ = 2 ^ ((p.log2 : ℤ) - q.log2 + 1) * 2 ^ (q.log2 : ℤ) := by
      rw [← zpow_add₀ two_ne_zero]
      congr 1
      omega
    _ ≤ 2 ^ ((p.log2 : ℤ) - q.log2 + 1) * q := by gcongr

theorem div_lt_two_pow_mul (p : ℕ) {q : ℕ} (hq : 0 < q) :
    (p : ℚ) / q < 2 ^ 53 * 2 ^ gridExponent p q := by
  obtain ⟨e, he⟩ : ∃ e, e = (p.log2 : ℤ) - q.log2 - 52 := ⟨_, rfl⟩
  have hgrid : (if (scaled p q e).1 / (scaled p q e).2 < 2 ^ 52 then e - 1 else e) ≤
      gridExponent p q := by
    rw [he]
    exact le_max_right _ _
  rw [← zpow_natCast, ← zpow_add₀ two_ne_zero]
  split at hgrid
  · next hsmall =>
    have hdiv : (p : ℚ) / q / 2 ^ e < 2 ^ 52 := by
      have hpos := scaled_pos (p := p) hq e
      rw [← scaled_div, div_lt_iff₀ (by exact_mod_cast hpos)]
      exact_mod_cast (Nat.div_lt_iff_lt_mul hpos).mp hsmall
    rw [div_lt_iff₀ (by positivity), ← zpow_natCast, ← zpow_add₀ two_ne_zero] at hdiv
    exact hdiv.trans_le (zpow_le_zpow_right₀ one_le_two (by push_cast; omega))
  · exact (div_lt_two_zpow p hq).trans_le (zpow_le_zpow_right₀ one_le_two (by push_cast; omega))

theorem le_gridMantissa {p q n : ℕ} (hq : 0 < q)
    (h : (n : ℚ) * 2 ^ gridExponent p q ≤ p / q) : n ≤ gridMantissa p q := by
  refine le_trans ?_ (div_le_roundQuotient _ _)
  rw [Nat.le_div_iff_mul_le (scaled_pos hq _)]
  rw [← le_div_iff₀ (by positivity), ← scaled_div,
    le_div_iff₀ (by exact_mod_cast scaled_pos hq _)] at h
  exact_mod_cast h

theorem gridMantissa_le (p : ℕ) {q : ℕ} (hq : 0 < q) : gridMantissa p q ≤ 2 ^ 53 := by
  refine le_trans (roundQuotient_le _ _) (Nat.div_lt_of_lt_mul ?_)
  have hlt := div_lt_two_pow_mul p hq
  rw [← div_lt_iff₀ (by positivity), ← scaled_div,
    div_lt_iff₀ (by exact_mod_cast scaled_pos hq _)] at hlt
  rw [Nat.mul_comm]
  exact_mod_cast hlt

section Grid

variable {p q : ℕ} (hp : 0 < p) (hq : 0 < q)

include hp hq

theorem two_zpow_lt_div : (2 : ℚ) ^ ((p.log2 : ℤ) - q.log2 - 1) < p / q := by
  have hlow : (2 : ℚ) ^ (p.log2 : ℤ) ≤ p := by
    exact_mod_cast Nat.log2_self_le hp.ne'
  have hhigh : (q : ℚ) < 2 ^ ((q.log2 : ℤ) + 1) := by
    exact_mod_cast Nat.lt_log2_self
  rw [lt_div_iff₀ (by exact_mod_cast hq)]
  calc (2 : ℚ) ^ ((p.log2 : ℤ) - q.log2 - 1) * q
      < 2 ^ ((p.log2 : ℤ) - q.log2 - 1) * 2 ^ ((q.log2 : ℤ) + 1) := by gcongr
    _ = 2 ^ (p.log2 : ℤ) := by
      rw [← zpow_add₀ two_ne_zero]
      congr 1
      omega
    _ ≤ p := hlow

theorem two_pow_mul_le_div (h : -1074 < gridExponent p q) :
    (2 : ℚ) ^ 52 * 2 ^ gridExponent p q ≤ p / q := by
  have hlow := two_zpow_lt_div hp hq
  obtain ⟨e, he⟩ : ∃ e, e = (p.log2 : ℤ) - q.log2 - 52 := ⟨_, rfl⟩
  have hgrid : gridExponent p q = max (-1074)
      (if (scaled p q e).1 / (scaled p q e).2 < 2 ^ 52 then e - 1 else e) := by
    rw [he]
    rfl
  by_cases hsmall : (scaled p q e).1 / (scaled p q e).2 < 2 ^ 52
  · rw [if_pos hsmall] at hgrid
    have hexp : gridExponent p q = e - 1 := by omega
    rw [hexp, ← zpow_natCast, ← zpow_add₀ two_ne_zero]
    have hsum : ((52 : ℕ) : ℤ) + (e - 1) = (p.log2 : ℤ) - q.log2 - 1 := by omega
    rw [hsum]
    exact hlow.le
  · rw [if_neg hsmall] at hgrid
    have hexp : gridExponent p q = e := by omega
    have hmul : 2 ^ 52 * (scaled p q e).2 ≤ (scaled p q e).1 :=
      (Nat.le_div_iff_mul_le (scaled_pos hq e)).mp (Nat.le_of_not_lt hsmall)
    have hdiv : (2 : ℚ) ^ 52 ≤ p / q / 2 ^ e := by
      rw [← scaled_div, le_div_iff₀ (by exact_mod_cast scaled_pos hq e)]
      exact_mod_cast hmul
    rwa [hexp, ← le_div_iff₀ (by positivity)]

theorem fits_gridNumber_iff :
    FitsBinary64 (gridNumber p q).1 (gridNumber p q).2 ↔ (gridNumber p q).2 ≤ 971 := by
  refine ⟨fun h => h.2.2.1, fun h => ?_⟩
  have hleast : -1074 ≤ gridExponent p q := le_max_left _ _
  have hbits : 2 ^ 52 ≤ gridMantissa p q ∨ gridExponent p q = -1074 := by
    refine (lt_or_eq_of_le hleast).imp (fun hlt => le_gridMantissa hq ?_) Eq.symm
    exact_mod_cast two_pow_mul_le_div hp hq hlt
  unfold gridNumber at h ⊢
  split at h
  · next hcarry =>
    rw [if_pos hcarry]
    exact ⟨Nat.pow_lt_pow_right (by decide) (by decide), by dsimp only; omega, h, .inl le_rfl⟩
  · next hcarry =>
    rw [if_neg hcarry]
    exact ⟨lt_of_le_of_ne (gridMantissa_le p hq) hcarry, hleast, h, hbits⟩

theorem ofQuotient_of_onGrid (neg : Bool) (hm : m < 2 ^ 53) (hk : -1074 ≤ k) (hk' : k ≤ 970)
    (h : (p : ℚ) / q = m * 2 ^ k) :
    ∃ m' e h, ofQuotient neg p q = .finite neg m' e h ∧ (m' : ℚ) * 2 ^ e = p / q := by
  have hle : gridExponent p q ≤ k := by
    by_contra hlt
    have hbits := two_pow_mul_le_div hp hq (by omega)
    have hgap : (2 : ℚ) ^ (k + 1) ≤ 2 ^ gridExponent p q := zpow_le_zpow_right₀ one_le_two (by omega)
    have hpos : (0 : ℚ) < 2 ^ k := by positivity
    have hmant : (m : ℚ) < 2 ^ 53 := by exact_mod_cast hm
    rw [zpow_add_one₀ two_ne_zero] at hgap
    nlinarith
  -- on the finer grid the quotient is a multiple, which rounding keeps
  obtain ⟨M, hM⟩ := exists_mul_zpow_eq m hle
  rw [← h] at hM
  have hscaled : (scaled p q (gridExponent p q)).1 = M * (scaled p q (gridExponent p q)).2 := by
    have hdiv := scaled_div p q (gridExponent p q)
    have hpos : (0 : ℚ) < (scaled p q (gridExponent p q)).2 := by exact_mod_cast scaled_pos hq _
    rw [← hM, mul_div_assoc, div_self (by positivity), mul_one, div_eq_iff hpos.ne'] at hdiv
    exact_mod_cast hdiv
  have hmantissa : gridMantissa p q = M := by
    have hpos := scaled_pos (p := p) hq (gridExponent p q)
    rw [gridMantissa, roundQuotient_of_dvd hpos ⟨M, by rw [hscaled, Nat.mul_comm]⟩, hscaled,
      Nat.mul_div_cancel _ hpos]
  have hfits : FitsBinary64 (gridNumber p q).1 (gridNumber p q).2 := by
    rw [fits_gridNumber_iff hp hq]
    have := gridNumber_exponent_le p q
    omega
  refine ⟨_, _, hfits, by rw [ofQuotient_eq neg hp.ne', dif_pos hfits], ?_⟩
  rw [gridNumber_value, hmantissa, hM]

theorem le_ofQuotient {m m' : ℕ} (hm : m < 2 ^ 53) (hk : -1074 ≤ k) (h : (m : ℚ) * 2 ^ k ≤ p / q)
    {hfits : FitsBinary64 m' e} (hround : ofQuotient neg p q = .finite neg m' e hfits) :
    (m : ℚ) * 2 ^ k ≤ m' * 2 ^ e := by
  have hvalue : (m' : ℚ) * 2 ^ e = gridMantissa p q * 2 ^ gridExponent p q := by
    rw [ofQuotient_eq neg hp.ne'] at hround
    split at hround
    · cases hround
      exact gridNumber_value p q
    · cases hround
  rw [hvalue]
  by_cases hle : gridExponent p q ≤ k
  · obtain ⟨n, hn⟩ := exists_mul_zpow_eq m hle
    rw [← hn] at h ⊢
    gcongr
    exact le_gridMantissa hq h
  · have hbits : 2 ^ 52 ≤ gridMantissa p q := by
      apply le_gridMantissa hq
      exact_mod_cast two_pow_mul_le_div hp hq (by omega)
    have hgap : (2 : ℚ) ^ (k + 1) ≤ 2 ^ gridExponent p q := zpow_le_zpow_right₀ one_le_two (by omega)
    have hmant : (m : ℚ) ≤ 2 ^ 53 := by exact_mod_cast hm.le
    calc (m : ℚ) * 2 ^ k ≤ 2 ^ 53 * 2 ^ k := by gcongr
      _ = 2 ^ 52 * 2 ^ (k + 1) := by
        rw [zpow_add_one₀ two_ne_zero]
        ring
      _ ≤ gridMantissa p q * 2 ^ gridExponent p q := by
        gcongr
        exact_mod_cast hbits

end Grid

theorem ofUnits_eq (v e : ℤ) : ∃ p q : ℕ, 0 < q ∧ (p : ℚ) / q = |(v : ℚ)| * 2 ^ e ∧
    ofUnits v e = ofQuotient (v < 0) p q := by
  have habs : |(v : ℚ)| = (v.natAbs : ℚ) := by rw [Nat.cast_natAbs, Int.cast_abs]
  by_cases he : 0 ≤ e
  · refine ⟨v.natAbs * 2 ^ e.toNat, 1, Nat.one_pos, ?_, by rw [ofUnits, if_pos he]; rfl⟩
    rw [habs, Nat.cast_mul, Nat.cast_pow, Nat.cast_ofNat, Nat.cast_one, div_one, ← zpow_natCast,
      Int.toNat_of_nonneg he]
  · refine ⟨v.natAbs, 2 ^ (-e).toNat, Nat.two_pow_pos _, ?_, by rw [ofUnits, if_neg he]; rfl⟩
    rw [habs, Nat.cast_pow, Nat.cast_ofNat, ← zpow_natCast, Int.toNat_of_nonneg (by omega), zpow_neg,
      div_inv_eq_mul]

theorem abs_ofUnits_lt_iff (hm : FitsBinary64 m k)
    (hgrid : |(v : ℚ)| * 2 ^ e < m * 2 ^ k → v.natAbs < 2 ^ 53 ∧ -1074 ≤ e ∧ e ≤ 970) :
    (ofUnits v e).abs < .finite false m k hm ↔ |(v : ℚ)| * 2 ^ e < m * 2 ^ k := by
  obtain ⟨p, q, hq, hdiv, hunits⟩ := ofUnits_eq v e
  have hlt (neg : Bool) (m' : ℕ) (e' : ℤ) (h' : FitsBinary64 m' e') :
      (Binary64.finite neg m' e' h').abs < .finite false m k hm ↔ (m' : ℚ) * 2 ^ e' < m * 2 ^ k :=
    (lt_iff_toRat rfl rfl).trans (by simp)
  rw [hunits, ← hdiv]
  rcases Nat.eq_zero_or_pos p with rfl | hp
  · have hzero : ofQuotient (v < 0) 0 q = .finite (v < 0) 0 (-1074) (by decide) := rfl
    rw [hzero, hlt]
    simp
  · constructor
    · intro h
      by_contra hle
      cases hround : ofQuotient (v < 0) p q with
      | nan =>
        rw [hround] at h
        exact Bool.false_ne_true h
      | inf neg =>
        rw [hround] at h
        exact Bool.false_ne_true h
      | finite neg m' e' h' =>
        obtain rfl : neg = decide (v < 0) := by
          rw [ofQuotient_eq _ hp.ne'] at hround
          split at hround <;> cases hround
          rfl
        rw [hround, hlt] at h
        exact absurd h (not_lt.mpr (le_ofQuotient hp hq hm.1 hm.2.1 (not_lt.mp hle) hround))
    · intro h
      obtain ⟨hbits, hlow, hhigh⟩ := hgrid (hdiv ▸ h)
      have hexact : (p : ℚ) / q = (v.natAbs : ℕ) * 2 ^ e := by
        rw [hdiv, Nat.cast_natAbs, Int.cast_abs]
      obtain ⟨m', e', h', hround, hvalue⟩ :=
        ofQuotient_of_onGrid hp hq (v < 0) hbits hlow hhigh hexact
      rw [hround, hlt, hvalue]
      exact h

theorem lt_exponent {e j : ℤ} (hm : m < 2 ^ 53) (h : (2 : ℚ) ^ j ≤ m * 2 ^ e) : j < e + 53 := by
  have hlt : (2 : ℚ) ^ j < 2 ^ (e + 53) := by
    calc (2 : ℚ) ^ j ≤ m * 2 ^ e := h
      _ < 2 ^ 53 * 2 ^ e := by
        gcongr
        exact_mod_cast hm
      _ = 2 ^ (e + 53) := by
        rw [zpow_add₀ two_ne_zero, mul_comm]
        rfl
  exact (zpow_lt_zpow_iff_right₀ one_lt_two).mp hlt

theorem abs_units_sub {na nb : Bool} {ha : FitsBinary64 ma ea} {hb : FitsBinary64 mb eb}
    (hea : e ≤ ea) (heb : e ≤ eb) {r s : ℚ} (hr : (Binary64.finite na ma ea ha).toRat? = some r)
    (hs : (Binary64.finite nb mb eb hb).toRat? = some s) :
    |((units na ma ea e - units nb mb eb e : ℤ) : ℚ)| * 2 ^ e = |r - s| := by
  obtain rfl := Option.some.inj hr
  obtain rfl := Option.some.inj hs
  have hpos : (0 : ℚ) < 2 ^ e := by positivity
  rw [← units_mul_zpow na ma hea, ← units_mul_zpow nb mb heb, ← sub_mul, abs_mul, abs_of_pos hpos,
    Int.cast_sub]

/-- Close to a number from one on, the difference to it is a multiple of `2 ^ -53` of few bits. -/
theorem onGrid_of_close {r : ℚ} {ha : FitsBinary64 ma ea} (hmb : mb < 2 ^ 53) (he : e = min ea eb)
    (hr : (Binary64.finite neg ma ea ha).toRat? = some r) (hone : (1 : ℚ) ≤ mb * 2 ^ eb)
    (hv : |(v : ℚ)| * 2 ^ e = |r - mb * 2 ^ eb|) (h : |r - mb * 2 ^ eb| < 1 / 2) :
    v.natAbs < 2 ^ 53 ∧ -53 ≤ e ∧ ∃ w : ℕ, |r - mb * 2 ^ eb| * 2 ^ 53 = w := by
  have hnatAbs : |(v : ℚ)| = (v.natAbs : ℕ) := by rw [Nat.cast_natAbs, Int.cast_abs]
  have hb : 0 < eb + 53 := lt_exponent hmb (by simpa using hone)
  have hea : -1 < ea + 53 := by
    refine lt_exponent ha.1 ?_
    have hhalf : (1 : ℚ) / 2 ≤ r := by
      have := (abs_lt.mp h).1
      linarith
    have hle : r ≤ ma * 2 ^ ea := by
      obtain rfl := Option.some.inj hr
      have hpos : (0 : ℚ) ≤ ma * 2 ^ ea := by positivity
      cases neg
      · simp
      · simp only [if_true, neg_mul, one_mul]
        linarith
    have hpow : (2 : ℚ) ^ (-1 : ℤ) = 1 / 2 := by norm_num
    rw [hpow]
    linarith
  have hexp : -53 ≤ e := by omega
  obtain ⟨w, hw⟩ := exists_mul_zpow_eq v.natAbs hexp
  have hscale : (2 : ℚ) ^ (-53 : ℤ) * 2 ^ 53 = 1 := by norm_num
  rw [hnatAbs] at hv
  refine ⟨?_, hexp, w, ?_⟩
  · have hlt : (v.natAbs : ℚ) * 2 ^ e < 2 ^ 52 * 2 ^ e := by
      have hpow : (2 : ℚ) ^ (-53 : ℤ) ≤ 2 ^ e := zpow_le_zpow_right₀ one_le_two hexp
      calc (v.natAbs : ℚ) * 2 ^ e < 1 / 2 := hv ▸ h
        _ = 2 ^ 52 * 2 ^ (-53 : ℤ) := by norm_num
        _ ≤ 2 ^ 52 * 2 ^ e := by gcongr
    have hbits : v.natAbs < 2 ^ 52 := by exact_mod_cast lt_of_mul_lt_mul_right hlt (by positivity)
    omega
  · rw [← hv, ← hw, mul_assoc, hscale, mul_one]

/-- Close to a number from one on, a rounded difference is compared with a tolerance as if it were exact.
The tolerance is rounded too, which makes no difference if no multiple of the grid is passed. -/
theorem abs_sub_lt_iff_toRat (a : Binary64) {m mb n : ℕ} {tolerance : ℚ} (hb : FitsBinary64 mb eb)
    (heb : eb ≤ 970) (hone : (1 : ℚ) ≤ mb * 2 ^ eb) (hm : FitsBinary64 m k) (hn : n < 2 ^ 52)
    (hrounded : (n : ℚ) < m * 2 ^ k * 2 ^ 53 ∧ (m : ℚ) * 2 ^ k * 2 ^ 53 ≤ n + 1)
    (hexact : (n : ℚ) < tolerance * 2 ^ 53 ∧ tolerance * 2 ^ 53 ≤ n + 1) :
    (a - .finite false mb eb hb).abs < .finite false m k hm ↔
      ∃ r, a.toRat? = some r ∧ |r - mb * 2 ^ eb| < tolerance := by
  cases a with
  | nan => exact iff_of_false Bool.false_ne_true (by simp [toRat?])
  | inf neg => exact iff_of_false Bool.false_ne_true (by simp [toRat?])
  | finite neg ma ea ha =>
    obtain ⟨e, he⟩ : ∃ e, e = min ea eb := ⟨_, rfl⟩
    obtain ⟨r, hr⟩ : ∃ r, (Binary64.finite neg ma ea ha).toRat? = some r := ⟨_, rfl⟩
    have hs : (Binary64.finite false mb eb hb).toRat? = some ((mb : ℚ) * 2 ^ eb) := by
      simp [toRat?]
    have hdiff := abs_units_sub (e := e) (by omega) (by omega) hr hs
    have hclose := onGrid_of_close hb.1 he hr hone hdiff
    have hsub : Binary64.finite neg ma ea ha - .finite false mb eb hb =
        ofUnits (units neg ma ea e - units false mb eb e) e := by
      rw [he]
      rfl
    have hnq : (n : ℚ) + 1 ≤ 2 ^ 52 := by exact_mod_cast hn
    -- below either bound the difference is a multiple of the grid that is at most `n`
    have hmultiple {bound : ℚ} (hb : (n : ℚ) < bound * 2 ^ 53 ∧ bound * 2 ^ 53 ≤ n + 1) :
        |r - mb * 2 ^ eb| < bound ↔ |r - mb * 2 ^ eb| * 2 ^ 53 ≤ n := by
      constructor
      · intro h
        obtain ⟨-, -, w, hw⟩ := hclose (by linarith)
        have hlt : (w : ℚ) < n + 1 := by linarith
        rw [hw]
        exact_mod_cast Nat.lt_succ_iff.mp (by exact_mod_cast hlt)
      · intro h
        linarith
    rw [hsub, abs_ofUnits_lt_iff hm, hdiff, hmultiple hrounded]
    · simp [hr, hmultiple hexact]
    · intro h
      rw [hdiff] at h
      obtain ⟨hbits, hlow, -⟩ := hclose (by linarith)
      exact ⟨hbits, by omega, by omega⟩

end Concord.Binary64
