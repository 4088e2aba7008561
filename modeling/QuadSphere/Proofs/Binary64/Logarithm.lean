import QuadSphere.Proofs.Binary64.Order
import QuadSphere.Proofs.Binary64.Nearest
import QuadSphere.Binary64

/-!
# Rounded logarithms

`floorLog2` counts steps instead of taking a logarithm.  Here it is compared with the logarithm as a
real number, rounded to 53 bits (`IsNearest`).  `RoundsUp x n` says that the logarithm of `x` is
rounded up to `n` though `x` is below `2 ^ n`.

This is so if the logarithm is above the middle of the last step below `n`, and since the logarithm
of 2 is known to ten digits, it is a bound for the number of steps from `2 ^ n` down to `x`.

* `floorLog2_spec`: `floorLog2` is the floor of the rounded logarithm.
* `le_floorLog2_iff`: it reaches `n` from `2 ^ n` on, and where the logarithm is rounded up to `n`.
-/

namespace QuadSphere.Binary64

open Float.Model
open Float.Model.UnpackedFloat (Sign unpackExponent unpackMantissa)

variable {x : Float} {s : Sign} {m : ℕ} {e n : ℤ} {h : 0 < m} {r : ℚ}

/-! ## The parts of a float -/

theorem exponentField_eq (x : Float) :
    exponentField x = (@unpackExponent Format.binary64 x.toModel.toBits.toBitVec).toNat := by
  rw [exponentField, unpackExponent]
  simp [Float.toBits, UInt64.toNat_shiftRight]

theorem fraction_eq (x : Float) :
    fraction x = (@unpackMantissa Format.binary64 x.toModel.toBits.toBitVec).toNat := by
  rw [fraction, unpackMantissa]
  simp [Float.toBits]

theorem significand_exponent_eq (hx : x.toModel.unpack = .finite s m e h) :
    significand x = m ∧ exponent x = e := by
  rw [significand, exponent, exponentField_eq, fraction_eq]
  rw [Float.Model.unpack, UnpackedFloat.unpack] at hx
  simp only [show (Format.binary64.exponentBias : ℤ) = 1023 from rfl] at hx
  split at hx
  · split at hx <;> cases hx
  · split at hx
    · next hzero =>
      split at hx
      · cases hx
      · cases hx
        rw [hzero]
        exact ⟨rfl, by simp⟩
    · next hzero =>
      have hzero' : (@unpackExponent Format.binary64 x.toModel.toBits.toBitVec).toNat ≠ 0 :=
        fun h => hzero (BitVec.toNat_inj.mp h)
      cases hx
      rw [if_neg hzero', toNat_append_one]
      exact ⟨rfl, by omega⟩

/-! ## Logarithms close to an integer -/

/-- A step below `n`, multiplied by the logarithm of 2, is not close to a number of the steps that
are counted. -/
theorem upwardSteps_bounds (hn : n ≠ 0) (hsmall : n.natAbs.log2 ≤ 10) :
    upwardSteps n + 1 / 20 ≤ Real.log 2 * 2 ^ (stepBelow n + 52) ∧
      Real.log 2 * 2 ^ (stepBelow n + 52) < upwardSteps n + 1 := by
  have hlow := Real.log_two_gt_d9
  have hhigh := Real.log_two_lt_d9
  have hpow : n.natAbs = 1 <<< n.natAbs.log2 ↔ n.natAbs = 2 ^ n.natAbs.log2 := by
    rw [Nat.one_shiftLeft]
  rw [upwardSteps, if_neg hn, stepBelow]
  simp only [hpow]
  generalize n.natAbs.log2 = t at *
  split <;> interval_cases t <;> norm_num [ln2Bits, Nat.shiftRight_eq_div_pow] <;>
    constructor <;> linarith

theorem one_sub_steps_pos {k : ℕ} (hk : k ≤ 2 ^ 52) : (0 : ℝ) < 1 - k / 2 ^ 53 := by
  have hk' : (k : ℝ) ≤ 2 ^ 52 := by exact_mod_cast hk
  rw [sub_pos, div_lt_one (by norm_num)]
  linarith

theorem logb_steps {k : ℕ} (hk : k ≤ 2 ^ 52) (n : ℤ) :
    Real.logb 2 (2 ^ n * (1 - k / 2 ^ 53)) = n + Real.log (1 - k / 2 ^ 53) / Real.log 2 := by
  rw [Real.logb_mul (by positivity) (one_sub_steps_pos hk).ne', ← Real.rpow_intCast,
    Real.logb_rpow two_pos (by norm_num), Real.logb]

theorem half_le_steps {k : ℕ} (hk : k ≤ 2 ^ 52) (n : ℤ) :
    (2 : ℚ) ^ (n - 1) ≤ 2 ^ n * (1 - k / 2 ^ 53) := by
  have hk' : (k : ℚ) ≤ 2 ^ 52 := by exact_mod_cast hk
  have hhalf : (k : ℚ) / 2 ^ 53 ≤ 1 / 2 := by
    rw [div_le_iff₀ (by norm_num)]
    linarith
  rw [zpow_sub_one₀ two_ne_zero]
  exact mul_le_mul_of_nonneg_left (by linarith) (by positivity)

theorem half_step (n : ℤ) : (2 : ℝ) ^ stepBelow n / 2 = 2 ^ (stepBelow n + 52) / 2 ^ 53 := by
  rw [zpow_add₀ two_ne_zero]
  norm_num
  ring

/-- With no more than the steps that are counted, the logarithm is above the middle. -/
theorem sub_lt_logb_of_le (hn : n ≠ 0) (hsmall : n.natAbs.log2 ≤ 10) {k : ℕ}
    (hk : k ≤ upwardSteps n) :
    n - 2 ^ stepBelow n / 2 < Real.logb 2 (2 ^ n * (1 - k / 2 ^ 53)) := by
  have hle : k ≤ 45426 := by
    refine hk.trans ?_
    rw [upwardSteps, if_neg hn]
    exact Nat.shiftRight_le ..
  have hle' : (k : ℝ) ≤ 45426 := by exact_mod_cast hle
  have hk' : (k : ℝ) ≤ upwardSteps n := by exact_mod_cast hk
  have hlog : 0 < Real.log 2 := Real.log_pos one_lt_two
  have hpos := one_sub_steps_pos (hle.trans (by norm_num))
  have hinv : (1 - k / 2 ^ 53 : ℝ)⁻¹ ≤ 1 + (k + 1 / 40) / 2 ^ 53 := by
    rw [inv_le_iff_one_le_mul₀ hpos]
    nlinarith [mul_le_mul hle' hle' k.cast_nonneg (by norm_num)]
  have hge := Real.one_sub_inv_le_log_of_pos hpos
  have hbound := (upwardSteps_bounds hn hsmall).1
  rw [logb_steps (hle.trans (by norm_num)), half_step, sub_eq_add_neg, add_lt_add_iff_left,
    lt_div_iff₀ hlog]
  linarith

theorem logb_lt_sub_of_lt (hn : n ≠ 0) (hsmall : n.natAbs.log2 ≤ 10) {k : ℕ} (hle : k ≤ 2 ^ 52)
    (hk : upwardSteps n < k) :
    Real.logb 2 (2 ^ n * (1 - k / 2 ^ 53)) < n - 2 ^ stepBelow n / 2 := by
  have hk' : (upwardSteps n : ℝ) + 1 ≤ k := by exact_mod_cast hk
  have hlog : 0 < Real.log 2 := Real.log_pos one_lt_two
  have hsub := Real.log_le_sub_one_of_pos (one_sub_steps_pos hle)
  have hbound := (upwardSteps_bounds hn hsmall).2
  rw [logb_steps hle, half_step, sub_eq_add_neg (n : ℝ), add_lt_add_iff_left, div_lt_iff₀ hlog]
  linarith

/-! ## The floor of the logarithm -/

theorem floorLog2_tests {u : UnpackedFloat} (hx : x.toModel.unpack = u) :
    x.isNaN = u.isNaN ∧ (x < 0 ↔ u.compare (.zero .positive) = some .lt) ∧
      (x == 0) = u.beq (.zero .positive) ∧ x.isInf = u.isInf := by
  subst hx
  refine ⟨rfl, ?_, ?_, rfl⟩
  · rw [lt_iff_compare, unpack_zero]
  · rw [← unpack_zero]
    rfl

theorem floorLog2_finite (hx : x.toModel.unpack = .finite .positive m e h) :
    floorLog2 x = if 2 ^ 53 - m * 2 ^ (52 - m.log2) ≤ upwardSteps (e + m.log2 + 1)
      then e + m.log2 + 1 else e + m.log2 := by
  obtain ⟨hm, he⟩ := significand_exponent_eq hx
  obtain ⟨hnan, hneg, hzero, hinf⟩ := floorLog2_tests hx
  rw [floorLog2, hnan, hzero, hinf, hm, he]
  simp [hneg, UnpackedFloat.isNaN, UnpackedFloat.beq, UnpackedFloat.compare, UnpackedFloat.isInf,
    Nat.shiftLeft_eq]

theorem floorLog2_zero (hx : x.toModel.unpack = .zero s) : floorLog2 x = -2147483648 := by
  obtain ⟨hnan, hneg, hzero, -⟩ := floorLog2_tests hx
  rw [floorLog2, hnan, hzero]
  simp [hneg, UnpackedFloat.isNaN, UnpackedFloat.beq, UnpackedFloat.compare]

theorem floorLog2_infinite (hx : x.toModel.unpack = .infinity .positive) :
    floorLog2 x = 2147483647 := by
  obtain ⟨hnan, hneg, hzero, hinf⟩ := floorLog2_tests hx
  rw [floorLog2, hnan, hzero, hinf]
  simp [hneg, UnpackedFloat.isNaN, UnpackedFloat.beq, UnpackedFloat.compare, UnpackedFloat.isInf]

/-- A positive float lies a number of steps below the next power of two, and these are the steps
that `floorLog2` counts. -/
theorem exists_steps_below (hx : x.toModel.unpack.isFinite = true) (hpos : 0 < number x) :
    ∃ (n : ℤ) (k : ℕ), number x = 2 ^ n * (1 - k / 2 ^ 53) ∧ 0 < k ∧ k ≤ 2 ^ 52 ∧
      n.natAbs.log2 ≤ 10 ∧ floorLog2 x = if k ≤ upwardSteps n then n else n - 1 := by
  obtain ⟨m, e, h, hu, hnumber, hm, he, he', -⟩ := exists_mantissa hx hpos
  have hlog := (Nat.log2_lt h.ne').mpr hm
  have hself := Nat.log2_self_le h.ne'
  have hlt := Nat.lt_log2_self (n := m)
  obtain ⟨j, hj⟩ : ∃ j, m.log2 + j = 52 := ⟨52 - m.log2, by omega⟩
  have hlow : 2 ^ 52 ≤ m * 2 ^ j := by
    calc 2 ^ 52 = 2 ^ m.log2 * 2 ^ j := by rw [← pow_add, hj]
      _ ≤ m * 2 ^ j := Nat.mul_le_mul_right _ hself
  have hhigh : m * 2 ^ j < 2 ^ 53 := by
    calc m * 2 ^ j < 2 ^ (m.log2 + 1) * 2 ^ j := Nat.mul_lt_mul_of_pos_right hlt (by positivity)
      _ = 2 ^ 53 := by rw [← pow_add, show m.log2 + 1 + j = 53 by omega]
  refine ⟨e + m.log2 + 1, 2 ^ 53 - m * 2 ^ j, ?_, by omega, by omega, ?_, ?_⟩
  · have hpow : (2 : ℚ) ^ (e + m.log2 + 1) = 2 ^ e * 2 ^ 53 / 2 ^ j := by
      rw [eq_div_iff (by positivity), ← zpow_natCast 2 j, ← zpow_natCast 2 53,
        ← zpow_add₀ two_ne_zero, ← zpow_add₀ two_ne_zero]
      congr 1
      omega
    rw [hnumber, Nat.cast_sub hhigh.le, hpow]
    push_cast
    field_simp
    ring
  · rcases Nat.eq_zero_or_pos (e + m.log2 + 1).natAbs with h0 | h0
    · rw [h0]
      decide
    · rw [← Nat.lt_succ_iff, Nat.log2_lt h0.ne']
      omega
  · rw [floorLog2_finite hu, show 52 - m.log2 = j by omega, add_sub_cancel_right]

theorem zpow_le_number_iff (hpos : 0 < number x) (n : ℤ) :
    2 ^ n ≤ number x ↔ (n : ℝ) ≤ Real.logb 2 (number x) := by
  rw [Real.le_logb_iff_rpow_le one_lt_two (by exact_mod_cast hpos), Real.rpow_intCast,
    ← Rat.cast_le (K := ℝ)]
  push_cast
  rfl

theorem number_lt_zpow_iff (hpos : 0 < number x) (n : ℤ) :
    number x < 2 ^ n ↔ Real.logb 2 (number x) < n := by
  rw [← not_le, zpow_le_number_iff hpos, not_le]

theorem floorLog2_cases (hx : x.toModel.unpack.isFinite = true) (hpos : 0 < number x) :
    ∃ n : ℤ, n.natAbs.log2 ≤ 10 ∧ 2 ^ (n - 1) ≤ number x ∧ number x < 2 ^ n ∧
      (floorLog2 x = n ∧ n ≠ 0 ∧ n - 2 ^ stepBelow n / 2 < Real.logb 2 (number x) ∨
        floorLog2 x = n - 1 ∧
          (n ≠ 0 → Real.logb 2 (number x) < n - 2 ^ stepBelow n / 2)) := by
  obtain ⟨n, k, hnumber, hk, hk', hsmall, hfloor⟩ := exists_steps_below hx hpos
  have hcast : (number x : ℝ) = 2 ^ n * (1 - k / 2 ^ 53) := by
    rw [hnumber]
    push_cast
    rfl
  have hbelow : (0 : ℚ) < k / 2 ^ 53 := by positivity
  refine ⟨n, hsmall, hnumber ▸ half_le_steps hk' n, ?_, ?_⟩
  · rw [hnumber]
    exact mul_lt_of_lt_one_right (by positivity) (by linarith)
  rw [hfloor, hcast]
  by_cases hup : k ≤ upwardSteps n
  · have hn : n ≠ 0 := by
      rintro rfl
      rw [upwardSteps, if_pos rfl] at hup
      omega
    rw [if_pos hup]
    exact Or.inl ⟨rfl, hn, sub_lt_logb_of_le hn hsmall hup⟩
  · rw [if_neg hup]
    exact Or.inr ⟨rfl, fun hn => logb_lt_sub_of_lt hn hsmall hk' (not_le.mp hup)⟩

/-- Whichever nearest number is taken for the logarithm, its floor is the same. -/
theorem floorLog2_eq_floor (hx : x.toModel.unpack.isFinite = true) (hpos : 0 < number x)
    (hr : IsNearest (Real.logb 2 (number x)) r) : floorLog2 x = ⌊r⌋ := by
  obtain ⟨n, hsmall, hlow, hhigh, hcases⟩ := floorLog2_cases hx hpos
  rw [zpow_le_number_iff hpos] at hlow
  rw [number_lt_zpow_iff hpos] at hhigh
  rcases hcases with ⟨hfloor, hn, hup⟩ | ⟨hfloor, hdown⟩
  · rw [hfloor, hr.eq_of_lt hn (by omega) hup hhigh, Int.floor_intCast]
  · have hpred : |n - 1| ≤ 2 ^ 53 := by
      have hlt := Nat.lt_log2_self (n := n.natAbs)
      have hpow : 2 ^ (n.natAbs.log2 + 1) ≤ 2 ^ 11 := Nat.pow_le_pow_right (by omega) (by omega)
      rw [abs_le]
      omega
    have hge := hr.ge (representable_intCast hpred) (by exact_mod_cast hlow)
    have hlt := hr.lt_of_below (by omega) hhigh hdown
    rw [hfloor, eq_comm, Int.floor_eq_iff]
    push_cast at hge ⊢
    exact ⟨hge, by linarith⟩

/-- **There is a nearest number to the logarithm, and `floorLog2` is its floor.** -/
theorem floorLog2_spec (hx : x.toModel.unpack.isFinite = true) (hpos : 0 < number x) :
    ∃ r, IsNearest (Real.logb 2 (number x)) r ∧ floorLog2 x = ⌊r⌋ := by
  obtain ⟨r, hr⟩ := exists_isNearest (Real.logb 2 (number x))
  exact ⟨r, hr, floorLog2_eq_floor hx hpos hr⟩

/-- The logarithm of the float is rounded up to `n`, though the float is below `2 ^ n`. -/
structure RoundsUp (x : Float) (n : ℤ) : Prop where
  pos : 0 < number x
  below : number x < 2 ^ n
  nearest : IsNearest (Real.logb 2 (number x)) n

/-- **`floorLog2` reaches `n` from `2 ^ n` on, and where the logarithm is rounded up to `n`.** -/
theorem le_floorLog2_iff (hx : x.toModel.unpack.isFinite = true) (hpos : 0 < number x) (k : ℤ) :
    k ≤ floorLog2 x ↔ 2 ^ k ≤ number x ∨ RoundsUp x k := by
  obtain ⟨n, hsmall, hlow, hhigh, hcases⟩ := floorLog2_cases hx hpos
  have hlog := (number_lt_zpow_iff hpos n).mp hhigh
  rcases lt_trichotomy k n with hlt | rfl | hgt
  · have hreach : (2 : ℚ) ^ k ≤ 2 ^ (n - 1) := zpow_le_zpow_right₀ one_le_two (by omega)
    exact iff_of_true (by omega) (Or.inl (hreach.trans hlow))
  · rw [or_iff_right (not_le.mpr hhigh)]
    rcases hcases with ⟨hfloor, hn, hup⟩ | ⟨hfloor, hdown⟩
    · exact iff_of_true hfloor.ge ⟨hpos, hhigh, isNearest_of_le hn (by omega) hup.le hlog⟩
    · exact iff_of_false (by omega) fun hround =>
        lt_irrefl _ (hround.nearest.lt_of_below (by omega) hlog hdown)
  · refine iff_of_false (by omega) ?_
    rintro (hreach | hround)
    · have hpow : (2 : ℚ) ^ n ≤ 2 ^ k := zpow_le_zpow_right₀ one_le_two hgt.le
      linarith
    · have hle := hround.nearest.le (representable_int (by omega : n.natAbs.log2 ≤ 52))
        (by exact_mod_cast hlog.le)
      have : k ≤ n := by exact_mod_cast hle
      omega

theorem RoundsUp.sub_steps_le (hround : RoundsUp x n) :
    2 ^ n * (1 - upwardSteps n / 2 ^ 53) ≤ number x := by
  have hx := isFinite_of_number_pos hround.pos
  obtain ⟨n', k, hnumber, hk, hk', -, hfloor⟩ := exists_steps_below hx hround.pos
  have hreach := (le_floorLog2_iff hx hround.pos n).mpr (Or.inr hround)
  have hle : n' ≤ n := by
    have hlow : (2 : ℚ) ^ (n' - 1) ≤ number x := hnumber ▸ half_le_steps hk' n'
    have := (zpow_lt_zpow_iff_right₀ one_lt_two).mp (hlow.trans_lt hround.below)
    omega
  have hup : n = n' ∧ k ≤ upwardSteps n' := by
    rw [hfloor] at hreach
    split at hreach
    · next hup => exact ⟨by omega, hup⟩
    · omega
  obtain ⟨rfl, hup⟩ := hup
  have hup' : (k : ℚ) ≤ upwardSteps n := by exact_mod_cast hup
  rw [hnumber]
  refine mul_le_mul_of_nonneg_left ?_ (by positivity)
  linarith [div_le_div_of_nonneg_right hup' (by norm_num : (0 : ℚ) ≤ 2 ^ 53)]

theorem not_roundsUp (hn : 0 ≤ n) (hn' : n ≤ 2) : ¬RoundsUp x n := by
  intro hround
  have hsteps : upwardSteps n = 0 := by
    interval_cases n <;> decide
  have hle := hround.sub_steps_le
  rw [hsteps, Nat.cast_zero, zero_div, sub_zero, mul_one] at hle
  exact absurd hround.below (not_lt.mpr hle)

/-- The logarithm of a number below 1 is negative, also where it is cut off. -/
theorem floorLog2_neg (hx : x.toModel.unpack.isFinite = true) (hnonneg : 0 ≤ number x)
    (hlt : number x < 1) : floorLog2 x < 0 := by
  rcases hnonneg.eq_or_lt with hzero | hpos
  · obtain ⟨s, hu⟩ := exists_unpack_zero hx hzero.symm
    rw [floorLog2_zero hu]
    norm_num
  · rw [← not_le, le_floorLog2_iff hx hpos]
    rintro (hreach | hround)
    · rw [zpow_zero] at hreach
      linarith
    · exact not_roundsUp (le_refl _) (by norm_num) hround

end QuadSphere.Binary64
