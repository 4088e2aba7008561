import QuadSphere.Proofs.Binary64.Quotient
import QuadSphere.Proofs.Landing
import QuadSphere.Sphere.Scale

/-!
# The finest level of a size

`finestLevel` divides the size on level 0 by the one that is asked for, and takes the logarithm.
Both results are rounded.  The quotient is never rounded up to a power of two, but the logarithm may
be rounded up to an integer.  Then the level is one too fine: the size on it is below the one that
is asked for.

A level is reached (`Reaches`) if the rounded logarithm is at least the power of two that belongs to
it.  Levels that will do are reached, and those that are reached will do unless the logarithm is
rounded up.

* `finestLevel_value`: the size on a level belongs to that level.
* `finestLevel_spec`: the level that is found, and when it is the finest one that will do.
-/

namespace QuadSphere.Scale

open Binary64 Float.Model Float.Model.UnpackedFloat

/-- A length or an area of about the size of a face. -/
structure Regular (s : Scale) : Prop where
  dimension : s.dimension = 1 ∨ s.dimension = 2
  low : 0.5 ≤ s.unit
  high : s.unit ≤ 4

variable {s : Scale} {x : Float} {l : ℕ}

/-! ## Sizes -/

theorem holds_four : Holds 4 4 := holds_ofNat (by norm_num) (by norm_num)

namespace Regular

variable (hs : s.Regular)
include hs

theorem isFinite : s.unit.toModel.unpack.isFinite = true := by
  obtain ⟨hnan, hnan'⟩ := not_isNaN_of_le hs.low
  have hlow := (le_iff_rank hnan hnan').mp hs.low
  have hhigh := (le_iff_rank hnan' (not_isNaN_of_le hs.high).2).mp hs.high
  have h0 : 0 ≤ rank 0.5 := by decide +kernel
  have h4 : rank 4 < 2047 * 2 ^ 52 := by decide +kernel
  exact isFinite_of_rank hnan' (by omega) (by omega)

theorem unit_bounds : 1 / 2 ≤ number s.unit ∧ number s.unit ≤ 4 := by
  rw [← holds_half.number_eq, ← holds_four.number_eq,
    ← le_iff_number holds_half.isFinite hs.isFinite,
    ← le_iff_number hs.isFinite holds_four.isFinite]
  exact ⟨hs.low, hs.high⟩

theorem holds_unit : Holds s.unit (number s.unit) := by
  obtain ⟨hlow, hhigh⟩ := hs.unit_bounds
  exact holds_number (by linarith) (moderate_of_pos (by linarith) (by linarith))

end Regular

theorem moderate_zpow {n : ℤ} (hlow : -100 ≤ n) (hhigh : n ≤ 100) : Moderate (2 ^ n) := by
  rw [Moderate, abs_of_pos (by positivity)]
  exact ⟨zpow_le_zpow_right₀ one_le_two hlow, zpow_le_zpow_right₀ one_le_two hhigh⟩

theorem holds_twoPowNeg {n : ℕ} (hn : n ≤ 60) : Holds (twoPowNeg n) (2 ^ (-(n : ℤ))) := by
  have hmodel : ∀ k < 61, twoPowNeg k =
    .ofModel (.pack (.finite .positive (2 ^ 52) (-52 - k) (by norm_num))) := by decide +kernel
  have hvalue : Binary64.value .positive (2 ^ 52) (-52 - n) = 2 ^ (-(n : ℤ)) := by
    rw [Binary64.value, factor, one_mul, Nat.cast_pow, Nat.cast_ofNat, ← zpow_natCast,
      ← zpow_add₀ two_ne_zero]
    congr 1
    omega
  rw [hmodel n (by omega), ← hvalue]
  exact holds_pack _ (le_refl _) (by norm_num) (hvalue ▸ moderate_zpow (by omega) (by omega))

/-- The sizes are exact. -/
theorem Regular.holds_value (hs : s.Regular) (hl : s.dimension * l ≤ 60) :
    Holds (s.value l) (2 ^ (-((s.dimension * l : ℕ) : ℤ)) * number s.unit) := by
  obtain ⟨hlow, hhigh⟩ := hs.unit_bounds
  generalize hn : s.dimension * l = n at *
  have hpow : (2 : ℚ) ^ (-60 : ℤ) ≤ 2 ^ (-(n : ℤ)) := zpow_le_zpow_right₀ one_le_two (by omega)
  have hone : (2 : ℚ) ^ (-(n : ℤ)) ≤ 1 := zpow_le_one_of_nonpos₀ one_le_two (by omega)
  have hmod : Moderate (number s.unit * 2 ^ (-(n : ℤ))) := by
    rw [Moderate, abs_of_pos (by positivity)]
    constructor
    · calc (2 : ℚ) ^ (-100 : ℤ) ≤ 1 / 2 * 2 ^ (-60 : ℤ) := by norm_num
        _ ≤ number s.unit * 2 ^ (-(n : ℤ)) := mul_le_mul hlow hpow (by positivity) (by linarith)
    · calc number s.unit * 2 ^ (-(n : ℤ)) ≤ 4 * 1 :=
            mul_le_mul hhigh hone (by positivity) (by norm_num)
        _ ≤ 2 ^ (100 : ℤ) := by norm_num
  have hmul := hs.holds_unit.mul (holds_twoPowNeg (by omega)) hmod
  rw [value, hn]
  rw [mul_comm (number s.unit)] at hmul
  exact holds_of_representable hmul (representable_zpow_mul hs.holds_unit.representable _)

theorem number_zero : number 0 = 0 := by
  rw [number, unpack_zero]
  rfl

theorem isFinite_zero : (0 : Float).toModel.unpack.isFinite = true := by
  rw [unpack_zero]
  rfl

namespace Regular

variable (hs : s.Regular)
include hs

theorem dimension_pos : 0 < s.dimension := by
  obtain h | h := hs.dimension <;> omega

theorem dimension_mul_le (hl : l ≤ leafLevel) : s.dimension * l ≤ 60 := by
  have hleaf : leafLevel = 30 := rfl
  obtain h | h := hs.dimension <;> rw [h] <;> omega

theorem number_value_pos (hl : s.dimension * l ≤ 60) : 0 < number (s.value l) := by
  have hlow := hs.unit_bounds.1
  rw [(hs.holds_value hl).number_eq]
  exact mul_pos (by positivity) (by linarith)

theorem value_pos (hl : l ≤ leafLevel) : 0 < s.value l := by
  have hn := hs.dimension_mul_le hl
  rw [lt_iff_number isFinite_zero (hs.holds_value hn).isFinite, number_zero]
  exact hs.number_value_pos hn

/-- From level to level the size falls at least to one half. -/
theorem number_value_le_half {k : ℕ} (hk : k ≤ leafLevel) (hlt : l < k) :
    number (s.value k) ≤ number (s.value l) / 2 := by
  have hlow := hs.unit_bounds.1
  have hmul : s.dimension * l + 1 ≤ s.dimension * k :=
    (Nat.add_le_add_left hs.dimension_pos _).trans (Nat.mul_le_mul_left _ hlt)
  have hpow : (2 : ℚ) ^ (-((s.dimension * k : ℕ) : ℤ)) ≤ 2 ^ (-((s.dimension * l : ℕ) : ℤ) - 1) :=
    zpow_le_zpow_right₀ one_le_two (by omega)
  rw [(hs.holds_value (hs.dimension_mul_le hk)).number_eq,
    (hs.holds_value (hs.dimension_mul_le (hlt.le.trans hk))).number_eq, mul_div_right_comm,
    div_eq_mul_inv, ← zpow_sub_one₀ two_ne_zero]
  exact mul_le_mul_of_nonneg_right hpow (by linarith)

end Regular

/-! ## The size that is asked for -/

theorem infinite_or_number_pos (hx : 0 < x) :
    x.toModel.unpack = .infinity .positive ∨ 0 < number x := by
  rw [lt_iff_compare, unpack_zero] at hx
  rw [number]
  generalize x.toModel.unpack = u at *
  cases u with
  | notANumber => cases hx
  | infinity t => cases t with
    | negative => cases hx
    | positive => exact Or.inl rfl
  | zero t => cases hx
  | finite t m e h => cases t with
    | negative => cases hx
    | positive =>
      refine Or.inr ?_
      rw [numberOf, Binary64.value, factor]
      positivity

theorem not_le_of_infinite {y : Float} (hx : x.toModel.unpack = .infinity .positive)
    (hy : y.toModel.unpack.isFinite = true) : ¬x ≤ y := by
  rw [le_iff_unpack, hx]
  generalize y.toModel.unpack = u at *
  cases u with
  | notANumber => cases hy
  | infinity t => cases hy
  | zero t => simp [UnpackedFloat.le, UnpackedFloat.compare]
  | finite t m e h => simp [UnpackedFloat.le, UnpackedFloat.compare]

/-- The quotient by infinity is zero. -/
theorem Regular.rounded_div_infinite (hs : s.Regular)
    (hx : x.toModel.unpack = .infinity .positive) : Rounded 0 (s.unit / x) := by
  obtain ⟨_, t, m, e, h, hu, _⟩ := hs.holds_unit
  have hzero : (s.unit / x).toModel.unpack = .zero (t / .positive) := by
    change (Float.Model.pack
      (UnpackedFloat.div _ s.unit.toModel.unpack x.toModel.unpack)).unpack = _
    rw [hu, hx, UnpackedFloat.div]
    exact unpack_pack_finite trivial rfl
  have hnumber : number (s.unit / x) = 0 := by
    rw [number, hzero]
    rfl
  exact .small (by positivity) (by rw [hzero]; rfl) hnumber.ge (hnumber.le.trans (by positivity))

/-- The quotient is rounded from `v`, and `v` stands to the powers of two as the size that is asked
for stands to the sizes of the levels. -/
structure IsRatio (s : Scale) (x : Float) (v : ℚ) : Prop where
  rounded : Rounded v (s.unit / x)
  reaches : ∀ {l : ℕ}, s.dimension * l ≤ 60 → x ≤ s.value l →
    2 ^ ((s.dimension * l : ℕ) : ℤ) ≤ v
  below : ∀ {l : ℕ}, s.dimension * l ≤ 60 → s.value l < x →
    v ≤ 2 ^ ((s.dimension * l : ℕ) : ℤ) * (1 - 1 / 2 ^ 53)
  size : ∀ {l : ℕ}, s.dimension * l ≤ 60 →
    2 ^ ((s.dimension * l : ℕ) : ℤ) * (1 - 23 / 2 ^ 53) ≤ v →
      number x * (1 - 23 / 2 ^ 53) ≤ number (s.value l)

namespace Regular

variable (hs : s.Regular)
include hs

theorem isRatio_of_number_pos (hpos : 0 < number x) : s.IsRatio x (number s.unit / number x) := by
  have hx := isFinite_of_number_pos hpos
  have hfinite : ∀ {l}, s.dimension * l ≤ 60 → (s.value l).toModel.unpack.isFinite = true :=
    fun hl => (hs.holds_value hl).isFinite
  have hunit : ∀ {l}, s.dimension * l ≤ 60 →
      number s.unit = 2 ^ ((s.dimension * l : ℕ) : ℤ) * number (s.value l) := by
    intro l hl
    rw [(hs.holds_value hl).number_eq, ← mul_assoc, ← zpow_add₀ two_ne_zero, add_neg_cancel,
      zpow_zero, one_mul]
  constructor
  case rounded => exact hs.holds_unit.rounded_div hs.unit_bounds.1 hx hpos
  case reaches =>
    intro l hl hle
    rw [le_iff_number hx (hfinite hl)] at hle
    rw [le_div_iff₀ hpos, hunit hl]
    exact mul_le_mul_of_nonneg_left hle (by positivity)
  case below =>
    intro l hl hlt
    rw [lt_iff_number (hfinite hl) hx] at hlt
    have hle := number_le_of_lt (hfinite hl) hx (hs.number_value_pos hl) hlt
    rw [div_le_iff₀ hpos, hunit hl, mul_assoc, mul_comm (1 - _)]
    exact mul_le_mul_of_nonneg_left hle (by positivity)
  case size =>
    intro l hl hle
    rw [le_div_iff₀ hpos, hunit hl, mul_assoc, mul_comm (1 - _)] at hle
    exact le_of_mul_le_mul_left hle (by positivity)

theorem isRatio_of_infinite (hx : x.toModel.unpack = .infinity .positive) : s.IsRatio x 0 := by
  have hpow : ∀ n : ℕ, (0 : ℚ) < 2 ^ (n : ℤ) := fun n => by positivity
  constructor
  case rounded => exact hs.rounded_div_infinite hx
  case reaches =>
    intro l hl hle
    exact absurd hle (not_le_of_infinite hx (hs.holds_value hl).isFinite)
  case below =>
    intro l hl _
    linarith [hpow (s.dimension * l)]
  case size =>
    intro l hl hle
    linarith [hpow (s.dimension * l)]

theorem exists_isRatio (hx : 0 < x) : ∃ v, s.IsRatio x v := by
  rcases infinite_or_number_pos hx with hinf | hpos
  · exact ⟨0, hs.isRatio_of_infinite hinf⟩
  · exact ⟨_, hs.isRatio_of_number_pos hpos⟩

end Regular

/-! ## Levels -/

theorem isNaN_of_pos (hx : 0 < x) : x.isNaN = false := by
  rcases infinite_or_number_pos hx with hinf | hpos
  · rw [isNaN_eq, hinf]
    rfl
  · exact isNaN_of_isFinite (isFinite_of_number_pos hpos)

theorem finestLevel_of_pos (hx : 0 < x) :
    s.finestLevel x = min (floorLog2 (s.unit / x) / s.dimension).toNat leafLevel := by
  have hle : ¬x ≤ 0 := fun hle => not_lt_of_le hle hx
  rw [finestLevel, isNaN_of_pos hx, if_neg (by simp [hle])]

/-- The rounded logarithm of the quotient is at least the power of two that belongs to the level. -/
def Reaches (s : Scale) (x : Float) (l : ℕ) : Prop :=
  ((s.dimension * l : ℕ) : ℤ) ≤ floorLog2 (s.unit / x)

theorem le_finestLevel_iff (hx : 0 < x) (hd : 0 < s.dimension) (hl : l ≤ leafLevel) :
    l ≤ s.finestLevel x ↔ l = 0 ∨ s.Reaches x l := by
  have hdiv : (l : ℤ) ≤ floorLog2 (s.unit / x) / s.dimension ↔ s.Reaches x l := by
    rw [Int.le_ediv_iff_mul_le (by omega), Reaches, Nat.mul_comm, Nat.cast_mul]
  rw [finestLevel_of_pos hx, le_min_iff, and_iff_left hl, ← hdiv]
  omega

namespace Regular

variable (hs : s.Regular) (hx : 0 < x)
include hs hx

theorem value_lt_iff (hl : l ≤ leafLevel) : s.value l < x ↔ ¬x ≤ s.value l := by
  have hvalue := isNaN_of_isFinite (hs.holds_value (hs.dimension_mul_le hl)).isFinite
  rw [lt_iff_rank hvalue (isNaN_of_pos hx), le_iff_rank (isNaN_of_pos hx) hvalue, not_le]

/-- A level that will do is reached. -/
theorem reaches_of_le (hl : l ≤ leafLevel) (hle : x ≤ s.value l) : s.Reaches x l := by
  obtain ⟨v, hv⟩ := hs.exists_isRatio hx
  have hn := hs.dimension_mul_le hl
  exact hv.rounded.le_floorLog2 (by omega) (by omega) (hv.reaches hn hle)

/-- A level that is reached will do, unless it is reached by rounding up. -/
theorem le_value_iff (hl : l ≤ leafLevel) (hreach : s.Reaches x l) :
    x ≤ s.value l ↔ ¬RoundsUp (s.unit / x) (s.dimension * l : ℕ) := by
  obtain ⟨v, hv⟩ := hs.exists_isRatio hx
  have hn := hs.dimension_mul_le hl
  constructor
  · exact fun hle => hv.rounded.not_roundsUp (by omega) (hv.reaches hn hle)
  · refine fun hround => not_not.mp fun hlt => hround ?_
    have hbelow := hv.below hn ((hs.value_lt_iff hx hl).mpr hlt)
    exact (hv.rounded.le_floorLog2_iff_roundsUp (by omega) (by omega) hbelow).mp hreach

theorem number_le_of_reaches (hl : l ≤ leafLevel) (hreach : s.Reaches x l) :
    number x * (1 - 23 / 2 ^ 53) ≤ number (s.value l) := by
  obtain ⟨v, hv⟩ := hs.exists_isRatio hx
  have hn := hs.dimension_mul_le hl
  exact hv.size hn (hv.rounded.le_of_le_floorLog2 (by omega) (by omega) hreach)

/-- The first powers of two are not reached by rounding up. -/
theorem le_value_of_small (hl : l ≤ leafLevel) (hsmall : s.dimension * l ≤ 2)
    (hreach : s.Reaches x l) : x ≤ s.value l :=
  (hs.le_value_iff hx hl hreach).mpr (not_roundsUp (by omega) (by omega))

end Regular

/-- The size on a level belongs to this level, and to no finer one. -/
theorem finestLevel_value (hs : s.Regular) (hl : l ≤ leafLevel) :
    s.finestLevel? (s.value l) = .ok l := by
  have hx := hs.value_pos hl
  have hle := finestLevel_le s (s.value l)
  have hfinite := (hs.holds_value (hs.dimension_mul_le hl)).isFinite
  have hreach := hs.reaches_of_le hx hl ((le_iff_number hfinite hfinite).mpr (le_refl _))
  have hge := (le_finestLevel_iff hx hs.dimension_pos hl).mpr (Or.inr hreach)
  have heq : s.finestLevel (s.value l) = l := by
    by_contra hne
    -- a finer level would have to be one of about the same size
    have hfiner := ((le_finestLevel_iff hx hs.dimension_pos hle).mp (le_refl _)).resolve_left
      (by omega)
    have hsize := hs.number_le_of_reaches hx hle hfiner
    have hhalf := hs.number_value_le_half hle (lt_of_le_of_ne hge (Ne.symm hne))
    have hpos := hs.number_value_pos (hs.dimension_mul_le hl)
    linarith
  rw [finestLevel?, if_neg (by simp [hs.dimension_pos.ne']), heq]

/-- **The level that is found for a size.**  It is level 0 for a size above that of level 0.  For
any other one, the next level is too fine, and the level itself will do unless the logarithm of the
quotient is rounded up to an integer.  This does not happen near the first powers of two, and where
it does the size on the level is too small by at most 23 parts in `2 ^ 53`. -/
theorem finestLevel_spec (hs : s.Regular) (hx : 0 < x) :
    ∃ l ≤ leafLevel, s.finestLevel? x = .ok l ∧
      (s.value 0 < x → l = 0) ∧
      (x ≤ s.value 0 →
        (l < leafLevel → s.value (l + 1) < x) ∧
        (x ≤ s.value l ↔ ¬RoundsUp (s.unit / x) (s.dimension * l : ℕ)) ∧
        (s.dimension * l ≤ 2 → x ≤ s.value l) ∧
        number x * (1 - 23 / 2 ^ 53) ≤ number (s.value l)) := by
  have hle := finestLevel_le s x
  have hlevel := fun {k} (hk : k ≤ leafLevel) => le_finestLevel_iff hx hs.dimension_pos hk
  refine ⟨s.finestLevel x, hle, ?_, ?_, ?_⟩
  · rw [finestLevel?, if_neg (by simp [hs.dimension_pos.ne'])]
  · intro hlarge
    by_contra hne
    -- a finer level would make level 0 one that is reached
    have hreach := ((hlevel hle).mp (le_refl _)).resolve_left hne
    have hreach' : s.Reaches x 0 := by
      rw [Reaches] at *
      omega
    exact (hs.value_lt_iff hx (Nat.zero_le _)).mp hlarge
      (hs.le_value_of_small hx (Nat.zero_le _) (by omega) hreach')
  · intro hroot
    have hreach : s.Reaches x (s.finestLevel x) := by
      rcases (hlevel hle).mp (le_refl _) with hzero | hreach
      · rw [hzero]
        exact hs.reaches_of_le hx (Nat.zero_le _) hroot
      · exact hreach
    refine ⟨fun hlt => ?_, hs.le_value_iff hx hle hreach,
      fun hsmall => hs.le_value_of_small hx hle hsmall hreach,
      hs.number_le_of_reaches hx hle hreach⟩
    refine (hs.value_lt_iff hx hlt).mpr fun hnext => ?_
    have := (hlevel hlt).mpr (Or.inr (hs.reaches_of_le hx hlt hnext))
    omega

/-- The float next above the width on level 7. -/
def aboveSeventh : Float :=
  .ofBits 0x3f7e2b7dddfefa68

theorem finestLevel_spec_minWidth :
    minWidth.Regular ∧ 0 < aboveSeventh ∧
      ∃ l ≤ leafLevel, minWidth.finestLevel? aboveSeventh = .ok l ∧
        (minWidth.value 0 < aboveSeventh → l = 0) ∧
        (aboveSeventh ≤ minWidth.value 0 →
          (l < leafLevel → minWidth.value (l + 1) < aboveSeventh) ∧
          (aboveSeventh ≤ minWidth.value l ↔
            ¬RoundsUp (minWidth.unit / aboveSeventh) (minWidth.dimension * l : ℕ)) ∧
          (minWidth.dimension * l ≤ 2 → aboveSeventh ≤ minWidth.value l) ∧
          number aboveSeventh * (1 - 23 / 2 ^ 53) ≤ number (minWidth.value l)) := by
  have hregular : minWidth.Regular := ⟨Or.inl rfl, by decide +kernel, by decide +kernel⟩
  have hpos : 0 < aboveSeventh := by decide +kernel
  exact ⟨hregular, hpos, finestLevel_spec hregular hpos⟩

/-- Level 7 is found for a size that is above its own. -/
theorem finestLevel_too_fine :
    minWidth.Regular ∧ minWidth.finestLevel? aboveSeventh = .ok 7 ∧
      aboveSeventh ≤ minWidth.value 0 ∧ minWidth.value 7 < aboveSeventh := by
  have hfound : minWidth.finestLevel aboveSeventh = 7 := by decide +kernel
  refine ⟨⟨Or.inl rfl, by decide +kernel, by decide +kernel⟩, ?_, by decide +kernel,
    by decide +kernel⟩
  rw [finestLevel?, if_neg (by decide +kernel), hfound]

end QuadSphere.Scale
