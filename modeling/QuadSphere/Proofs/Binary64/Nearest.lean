import QuadSphere.Proofs.Binary64.Arithmetic

/-!
# Real numbers rounded to 53 bits

`IsNearest v r` says that no number of 53 bits is closer to the real number `v` than `r`, as
`RoundsTo` does for rational numbers.

What is rounded to an integer `n` depends on how close to it the other numbers lie.  Below `n` they
are `2 ^ stepBelow n` apart, half as far below a power of two, and near zero as close as one likes.

* `exists_isNearest`: every real number has a nearest number.
* `isNearest_of_le`, `IsNearest.lt_of_below`: which numbers below `n` are rounded up to `n`.
-/

namespace QuadSphere.Binary64

variable {n : ℤ} {r : ℚ} {v : ℝ}

/-! ## The numbers below an integer -/

/-- The numbers of 53 bits just below `n` are two to this power apart. -/
def stepBelow (n : ℤ) : ℤ :=
  if 0 < n ∧ n.natAbs = 2 ^ n.natAbs.log2 then n.natAbs.log2 - 53 else n.natAbs.log2 - 52

theorem natAbs_bounds (hn : n ≠ 0) :
    (2 : ℤ) ^ n.natAbs.log2 ≤ |n| ∧ |n| < 2 ^ (n.natAbs.log2 + 1) := by
  have hle := Nat.log2_self_le (Int.natAbs_ne_zero.mpr hn)
  have hlt := Nat.lt_log2_self (n := n.natAbs)
  rw [Int.abs_eq_natAbs]
  exact ⟨by exact_mod_cast hle, by exact_mod_cast hlt⟩

/-- The integer is a whole number of steps, and one step below it is a number of 53 bits. -/
theorem exists_steps (hn : n ≠ 0) (hsmall : n.natAbs.log2 ≤ 52) :
    ∃ i : ℤ, (n : ℚ) = i * 2 ^ stepBelow n ∧ |i - 1| ≤ 2 ^ 53 := by
  obtain ⟨hle, hlt⟩ := natAbs_bounds hn
  rw [stepBelow]
  split
  · next hpow =>
    have habs : n = 2 ^ n.natAbs.log2 := by
      conv_lhs => rw [← Int.natAbs_of_nonneg hpow.1.le, hpow.2]
      exact_mod_cast rfl
    refine ⟨2 ^ 53, ?_, by norm_num⟩
    rw [zpow_sub₀ two_ne_zero, zpow_natCast]
    conv_lhs => rw [habs]
    push_cast
    rw [mul_div_cancel₀ _ (by norm_num)]
  · obtain ⟨k, hk⟩ : ∃ k : ℕ, (52 : ℕ) = n.natAbs.log2 + k := ⟨52 - n.natAbs.log2, by omega⟩
    refine ⟨n * 2 ^ k, ?_, ?_⟩
    · push_cast
      rw [mul_assoc, ← zpow_natCast, ← zpow_add₀ two_ne_zero,
        show (k : ℤ) + (n.natAbs.log2 - 52) = 0 by omega, zpow_zero, mul_one]
    · have hpow : (2 : ℤ) ^ (n.natAbs.log2 + 1) * 2 ^ k = 2 ^ 53 := by
        rw [← pow_add, show n.natAbs.log2 + 1 + k = 53 by omega]
      have hone : (1 : ℤ) ≤ 2 ^ k := one_le_pow₀ (by norm_num)
      have hmul : (|n| + 1) * 2 ^ k ≤ 2 ^ 53 := by
        rw [← hpow]
        exact mul_le_mul_of_nonneg_right hlt (by positivity)
      have habs : |n * 2 ^ k| = |n| * 2 ^ k := by
        rw [abs_mul, abs_of_pos (by positivity : (0 : ℤ) < 2 ^ k)]
      have hsub := abs_sub (n * 2 ^ k) 1
      rw [abs_one] at hsub
      linarith

theorem representable_sub_step (hn : n ≠ 0) (hsmall : n.natAbs.log2 ≤ 52) :
    Representable (n - 2 ^ stepBelow n) := by
  obtain ⟨i, hi, habs⟩ := exists_steps hn hsmall
  exact ⟨i - 1, stepBelow n, habs, by rw [hi]; push_cast; ring⟩

theorem le_sub_step_of_abs_le (hn : n ≠ 0) (hsmall : n.natAbs.log2 ≤ 52)
    (habs : |r| ≤ 2 ^ (stepBelow n + 52)) (hlt : r < n) : r ≤ n - 2 ^ stepBelow n := by
  obtain ⟨hle, -⟩ := natAbs_bounds hn
  have hle' : (2 : ℚ) ^ n.natAbs.log2 ≤ |(n : ℚ)| := by exact_mod_cast hle
  rw [stepBelow] at *
  split at habs
  · next hpow =>
    rw [if_pos hpow]
    have hn' : (0 : ℚ) < n := by exact_mod_cast hpow.1
    have hhalf : (2 : ℚ) ^ ((n.natAbs.log2 : ℤ) - 53 + 52) = 2 ^ n.natAbs.log2 / 2 := by
      rw [show (n.natAbs.log2 : ℤ) - 53 + 52 = n.natAbs.log2 - 1 by omega,
        zpow_sub_one₀ two_ne_zero, zpow_natCast, div_eq_mul_inv]
    have hstep : (2 : ℚ) ^ ((n.natAbs.log2 : ℤ) - 53) ≤ 2 ^ n.natAbs.log2 / 2 := by
      rw [← hhalf]
      exact zpow_le_zpow_right₀ one_le_two (by omega)
    rw [abs_of_pos hn'] at hle'
    linarith [le_abs_self r]
  · next hpow =>
    rw [if_neg hpow]
    rw [sub_add_cancel, zpow_natCast] at habs
    rcases lt_or_gt_of_ne hn with hneg | hpos
    · have hneg' : (n : ℚ) < 0 := by exact_mod_cast hneg
      rw [abs_of_neg hneg'] at hle'
      linarith [neg_abs_le r]
    · have hmore : (2 : ℤ) ^ n.natAbs.log2 + 1 ≤ n := by
        rw [abs_of_pos hpos] at hle
        refine lt_of_le_of_ne hle fun heq => hpow ⟨hpos, ?_⟩
        have : ((2 ^ n.natAbs.log2 : ℕ) : ℤ) = n := by exact_mod_cast heq
        omega
      have hmore' : (2 : ℚ) ^ n.natAbs.log2 + 1 ≤ n := by exact_mod_cast hmore
      have hstep : (2 : ℚ) ^ ((n.natAbs.log2 : ℤ) - 52) ≤ 1 :=
        zpow_le_one_of_nonpos₀ one_le_two (by omega)
      linarith [le_abs_self r]

/-- Between `n` and one step below it there are no numbers of 53 bits. -/
theorem le_sub_step (hn : n ≠ 0) (hsmall : n.natAbs.log2 ≤ 52) (hr : Representable r)
    (hlt : r < n) : r ≤ n - 2 ^ stepBelow n := by
  obtain ⟨i, e, hi, rfl⟩ := hr
  have hi' : |(i : ℚ)| ≤ 2 ^ (53 : ℤ) := by exact_mod_cast hi
  rcases le_or_gt (stepBelow n) e with hle | hgt
  · obtain ⟨j, hj, -⟩ := exists_steps hn hsmall
    obtain ⟨k, hk⟩ : ∃ k : ℕ, e = k + stepBelow n := ⟨(e - stepBelow n).toNat, by omega⟩
    have hpos : (0 : ℚ) < 2 ^ stepBelow n := by positivity
    have hcommon : (i : ℚ) * 2 ^ e = (i * 2 ^ k : ℤ) * 2 ^ stepBelow n := by
      rw [hk, zpow_add₀ two_ne_zero, zpow_natCast]
      push_cast
      ring
    rw [hcommon, hj] at hlt
    rw [hcommon, hj]
    have hint : i * 2 ^ k ≤ j - 1 := by
      have : ((i * 2 ^ k : ℤ) : ℚ) < j := lt_of_mul_lt_mul_right hlt hpos.le
      have : i * 2 ^ k < j := by exact_mod_cast this
      omega
    have hint' : ((i * 2 ^ k : ℤ) : ℚ) ≤ j - 1 := by exact_mod_cast hint
    linarith [mul_le_mul_of_nonneg_right hint' hpos.le]
  · refine le_sub_step_of_abs_le hn hsmall ?_ hlt
    rw [abs_mul, abs_of_pos (by positivity : (0 : ℚ) < 2 ^ e)]
    calc |(i : ℚ)| * 2 ^ e ≤ 2 ^ (53 : ℤ) * 2 ^ e := mul_le_mul_of_nonneg_right hi' (by positivity)
      _ = 2 ^ (53 + e) := (zpow_add₀ two_ne_zero _ _).symm
      _ ≤ 2 ^ (stepBelow n + 52) := zpow_le_zpow_right₀ one_le_two (by omega)

/-! ## Nearest numbers of real numbers -/

/-- No number of 53 bits is closer to the real number `v` than `r`. -/
structure IsNearest (v : ℝ) (r : ℚ) : Prop where
  representable : Representable r
  nearest : ∀ w : ℚ, Representable w → |(r : ℝ) - v| ≤ |(w : ℝ) - v|

namespace IsNearest

variable {w : ℚ}

theorem le (hr : IsNearest v r) (hw : Representable w) (hvw : v ≤ w) : r ≤ w := by
  by_contra hlt
  have hlt' : (w : ℝ) < r := by exact_mod_cast not_le.mp hlt
  have hnear := hr.nearest w hw
  rw [abs_of_nonneg (by linarith), abs_of_nonneg (by linarith)] at hnear
  linarith

theorem ge (hr : IsNearest v r) (hw : Representable w) (hvw : w ≤ v) : w ≤ r := by
  by_contra hlt
  have hlt' : (r : ℝ) < w := by exact_mod_cast not_le.mp hlt
  have hnear := hr.nearest w hw
  rw [abs_of_nonpos (by linarith), abs_of_nonpos (by linarith)] at hnear
  linarith

theorem lt (hr : IsNearest v r) (hw : Representable w) {b : ℚ} (hb : Representable b) (hvb : v < b)
    (hclose : |(w : ℝ) - v| < b - v) : r < b := by
  refine lt_of_le_of_ne (hr.le hb hvb.le) ?_
  rintro rfl
  have hnear := hr.nearest w hw
  rw [abs_of_pos (by linarith)] at hnear
  linarith

end IsNearest

theorem IsNearest.opposite (hr : IsNearest v r) : IsNearest (-v) (-r) := by
  refine ⟨hr.representable.neg, fun w hw => ?_⟩
  have hnear := hr.nearest (-w) hw.neg
  rw [← abs_neg, ← abs_neg ((w : ℝ) - -v)]
  push_cast at hnear ⊢
  rwa [show -(-(r : ℝ) - -v) = r - v by ring, show -((w : ℝ) - -v) = -w - v by ring]

theorem isNearest_round {k : ℤ} (hlow : 2 ^ k ≤ v) (hhigh : v < 2 ^ (k + 1)) :
    IsNearest v (round (v / 2 ^ (k - 52)) * 2 ^ (k - 52)) := by
  have hpos : (0 : ℝ) < 2 ^ (k - 52) := by positivity
  have hpow : (2 : ℝ) ^ k = 2 ^ 52 * 2 ^ (k - 52) := by
    rw [← zpow_natCast, ← zpow_add₀ two_ne_zero]
    congr 1
    omega
  have hv : v = v / 2 ^ (k - 52) * 2 ^ (k - 52) := (div_mul_cancel₀ v hpos.ne').symm
  have ht : 2 ^ 52 ≤ v / 2 ^ (k - 52) ∧ v / 2 ^ (k - 52) < 2 ^ 53 := by
    rw [le_div_iff₀ hpos, div_lt_iff₀ hpos, ← hpow]
    rw [zpow_add_one₀ two_ne_zero, hpow] at hhigh
    exact ⟨hlow, by linarith⟩
  generalize v / 2 ^ (k - 52) = t at *
  subst hv
  -- no integer is closer at this exponent
  have hint : ∀ z : ℤ, |(((round t : ℤ) * 2 ^ (k - 52) : ℚ) : ℝ) - t * 2 ^ (k - 52)| ≤
      |(z : ℝ) * 2 ^ (k - 52) - t * 2 ^ (k - 52)| := by
    intro z
    push_cast
    rw [← sub_mul, ← sub_mul, abs_mul, abs_mul, abs_sub_comm, abs_sub_comm (z : ℝ)]
    exact mul_le_mul_of_nonneg_right (round_le t z) (abs_nonneg _)
  refine ⟨⟨round t, k - 52, ?_, rfl⟩, ?_⟩
  · obtain ⟨h1, h2⟩ := abs_le.mp (abs_sub_round t)
    have hle : round t < 2 ^ 53 + 1 := by
      have : (round t : ℝ) < 2 ^ 53 + 1 := by linarith
      exact_mod_cast this
    have hge : 0 < round t := by
      have : (0 : ℝ) < round t := by linarith
      exact_mod_cast this
    rw [abs_of_pos hge]
    omega
  · rintro w ⟨i, f, hi, rfl⟩
    rcases le_or_gt (k - 52) f with hle | hgt
    · obtain ⟨j, hj⟩ : ∃ j : ℕ, f = j + (k - 52) := ⟨(f - (k - 52)).toNat, by omega⟩
      refine (hint (i * 2 ^ j)).trans_eq ?_
      rw [hj, zpow_add₀ two_ne_zero, zpow_natCast]
      push_cast
      rw [mul_assoc]
    · -- the number is no larger than the leading power of two
      have hi' : (i : ℝ) ≤ 2 ^ (53 : ℤ) := by exact_mod_cast (le_abs_self i).trans hi
      have hw : (i : ℝ) * 2 ^ f ≤ 2 ^ k :=
        calc (i : ℝ) * 2 ^ f ≤ 2 ^ (53 : ℤ) * 2 ^ f :=
              mul_le_mul_of_nonneg_right hi' (by positivity)
          _ = 2 ^ (53 + f) := (zpow_add₀ two_ne_zero _ _).symm
          _ ≤ 2 ^ k := zpow_le_zpow_right₀ one_le_two (by omega)
      have hlead := hint (2 ^ 52)
      rw [Int.cast_pow, Int.cast_ofNat, ← hpow] at hlead
      refine hlead.trans ?_
      push_cast
      rw [abs_of_nonpos (by linarith), abs_of_nonpos (by linarith)]
      linarith

theorem exists_isNearest (v : ℝ) : ∃ r, IsNearest v r := by
  have hpos : ∀ {w : ℝ}, 0 < w → ∃ r, IsNearest w r := fun {w} hw =>
    ⟨_, isNearest_round (Int.zpow_log_le_self (b := 2) one_lt_two hw)
      (Int.lt_zpow_succ_log_self (b := 2) one_lt_two w)⟩
  rcases lt_trichotomy v 0 with hv | rfl | hv
  · obtain ⟨r, hr⟩ := hpos (neg_pos.mpr hv)
    exact ⟨-r, neg_neg v ▸ hr.opposite⟩
  · exact ⟨0, representable_intCast (i := 0) (by norm_num), fun w _ => by simp⟩
  · exact hpos hv

theorem representable_int (hsmall : n.natAbs.log2 ≤ 52) : Representable (n : ℚ) := by
  rcases eq_or_ne n 0 with rfl | hn
  · exact representable_intCast (by norm_num)
  · refine representable_intCast ((natAbs_bounds hn).2.le.trans ?_)
    exact pow_le_pow_right₀ one_le_two (by omega)

theorem cast_le_sub_step (hn : n ≠ 0) (hsmall : n.natAbs.log2 ≤ 52) (hr : Representable r)
    (hlt : r < n) : (r : ℝ) ≤ n - 2 ^ stepBelow n := by
  have hstep := (Rat.cast_le (K := ℝ)).mpr (le_sub_step hn hsmall hr hlt)
  push_cast at hstep
  exact hstep

/-- Above the middle of the step below `n`, numbers are rounded up. -/
theorem isNearest_of_le (hn : n ≠ 0) (hsmall : n.natAbs.log2 ≤ 52)
    (hlow : n - 2 ^ stepBelow n / 2 ≤ v) (hhigh : v < n) : IsNearest v n := by
  refine ⟨representable_int hsmall, fun w hw => ?_⟩
  rw [Rat.cast_intCast, abs_of_pos (by linarith)]
  rcases lt_or_ge w n with hlt | hge
  · have hstep := cast_le_sub_step hn hsmall hw hlt
    linarith [neg_abs_le ((w : ℝ) - v)]
  · have hge' : (n : ℝ) ≤ w := by exact_mod_cast hge
    linarith [le_abs_self ((w : ℝ) - v)]

theorem IsNearest.eq_of_lt (hr : IsNearest v r) (hn : n ≠ 0) (hsmall : n.natAbs.log2 ≤ 52)
    (hlow : n - 2 ^ stepBelow n / 2 < v) (hhigh : v < n) : r = n := by
  have hrep := representable_int hsmall
  refine le_antisymm (hr.le hrep (by exact_mod_cast hhigh.le)) (not_lt.mp fun hlt => ?_)
  have hstep := cast_le_sub_step hn hsmall hr.representable hlt
  have hnear := hr.nearest n hrep
  have hpos : (0 : ℝ) < 2 ^ stepBelow n := by positivity
  rw [Rat.cast_intCast, abs_of_neg (by linarith), abs_of_pos (by linarith)] at hnear
  linarith

theorem IsNearest.lt_of_lt (hr : IsNearest v r) (hn : n ≠ 0) (hsmall : n.natAbs.log2 ≤ 52)
    (hv : v < n - 2 ^ stepBelow n / 2) : r < n := by
  have hpos : (0 : ℝ) < 2 ^ stepBelow n := by positivity
  refine hr.lt (representable_sub_step hn hsmall) (representable_int hsmall)
    (by rw [Rat.cast_intCast]; linarith) ?_
  push_cast
  rw [abs_lt]
  constructor <;> linarith

/-- Near zero the numbers lie as close as one likes. -/
theorem IsNearest.neg_of_neg (hr : IsNearest v r) (hv : v < 0) : r < 0 := by
  obtain ⟨k, hk⟩ := exists_pow_lt_of_lt_one (neg_pos.mpr hv) (by norm_num : (1 / 2 : ℝ) < 1)
  have hpos : (0 : ℝ) < (1 / 2) ^ k := by positivity
  have hw : Representable (-2 ^ (-(k : ℤ))) := (representable_zpow _).neg
  refine hr.lt hw (representable_intCast (i := 0) (by norm_num)) (by simpa using hv) ?_
  have hcast : ((-2 ^ (-(k : ℤ)) : ℚ) : ℝ) = -(1 / 2) ^ k := by
    rw [zpow_neg, zpow_natCast]
    push_cast
    rw [one_div, inv_pow]
  rw [hcast, abs_lt]
  push_cast
  constructor <;> linarith

theorem IsNearest.lt_of_below (hr : IsNearest v r) (hsmall : n.natAbs.log2 ≤ 52) (hv : v < n)
    (hdown : n ≠ 0 → v < n - 2 ^ stepBelow n / 2) : r < n := by
  rcases eq_or_ne n 0 with rfl | hn
  · exact_mod_cast hr.neg_of_neg (by exact_mod_cast hv)
  · exact hr.lt_of_lt hn hsmall (hdown hn)

end QuadSphere.Binary64
