import QuadSphere.Proofs.Binary64.Arithmetic

/-!
# The order of floats

All floats but the one that is no number stand in a row, from one infinity to the other.  `rank x`
is the place of `x` in it, counted from zero in both directions, so a comparison of floats is a
comparison of integers.  A mantissa has 53 bits or the smallest exponent (`InFormat`), which is why
exponents can be compared first.

* `lt_iff_rank`, `le_iff_rank`, `beq_iff_rank`: the comparisons.
* `number_lt_iff`: the ranks of finite floats are in the order of the numbers they are.
-/

namespace QuadSphere.Binary64

open Float.Model Float.Model.UnpackedFloat

/-! ## Ranks -/

/-- The mantissa has 53 bits, or fewer at the smallest exponent. -/
def InFormat : UnpackedFloat → Prop
  | .finite _ m e _ => m < 2 ^ 53 ∧ -1074 ≤ e ∧ e ≤ 971 ∧ (2 ^ 52 ≤ m ∨ e = -1074)
  | _ => True

/-- The place of a positive number in the order of floats, counted from zero. -/
def place (m : ℕ) (e : ℤ) : ℤ :=
  (e + 1074) * 2 ^ 52 + m

def rankOf : UnpackedFloat → ℤ
  | .infinity s => s.apply (2047 * 2 ^ 52)
  | .finite s m e _ => s.apply (place m e)
  | _ => 0

def rank (x : Float) : ℤ :=
  rankOf x.toModel.unpack

variable {x y : Float} {u v : UnpackedFloat} {a : ℚ} {m m₁ m₂ : ℕ} {e e₁ e₂ : ℤ} {s : Sign}

/-! ## Floats as they are packed -/

theorem toNat_append_one (b : BitVec 52) : (1#1 ++ b).toNat = 2 ^ 52 + b.toNat := by
  have hb := b.isLt
  rw [← toNat_append_ofNat (m := 2 ^ 52 + b.toNat) (by omega) (by omega)]
  congr 2
  rw [← BitVec.toNat_inj, BitVec.toNat_ofNat]
  omega

theorem inFormat_unpack (x : Float) : InFormat x.toModel.unpack := by
  have hb : (@unpackExponent Format.binary64 x.toModel.toBits.toBitVec).toNat < 2 ^ 11 :=
    BitVec.isLt _
  have hn : (@unpackMantissa Format.binary64 x.toModel.toBits.toBitVec).toNat < 2 ^ 52 :=
    BitVec.isLt _
  rw [Float.Model.unpack, UnpackedFloat.unpack]
  simp only [show (Format.binary64.exponentBias : ℤ) = 1023 from rfl]
  split
  · split <;> trivial
  · next hfull =>
    have hfull' : (@unpackExponent Format.binary64 x.toModel.toBits.toBitVec).toNat ≠
        2047 := fun h => hfull (BitVec.toNat_inj.mp h)
    split
    · next hzero =>
      split
      · trivial
      · rw [InFormat, hzero]
        exact ⟨by omega, by simp, by simp, Or.inr (by simp)⟩
    · next hzero =>
      have hzero' : (@unpackExponent Format.binary64 x.toModel.toBits.toBitVec).toNat ≠
          0 := fun h => hzero (BitVec.toNat_inj.mp h)
      rw [InFormat, toNat_append_one]
      exact ⟨by omega, by omega, by omega, Or.inl (by omega)⟩

/-! ## Comparison -/

theorem place_pos (h : 0 < m) (hv : InFormat (.finite s m e h)) : 0 < place m e := by
  obtain ⟨_, he, _⟩ := hv
  rw [place]
  omega

theorem place_lt (h : 0 < m) (hv : InFormat (.finite s m e h)) : place m e < 2047 * 2 ^ 52 := by
  obtain ⟨hm, _, he, _⟩ := hv
  rw [place]
  omega

theorem compare_place (h₁ : 0 < m₁) (h₂ : 0 < m₂) (hu : InFormat (.finite s m₁ e₁ h₁))
    (hv : InFormat (.finite s m₂ e₂ h₂)) :
    (compare e₁ e₂).then (compare m₁ m₂) = compare (place m₁ e₁) (place m₂ e₂) := by
  obtain ⟨hm₁, he₁, _, hn₁⟩ := hu
  obtain ⟨hm₂, he₂, _, hn₂⟩ := hv
  rcases lt_trichotomy e₁ e₂ with he | rfl | he
  · have hlt : place m₁ e₁ < place m₂ e₂ := by
      rw [place, place]
      omega
    rw [Int.compare_eq_lt.mpr he, Int.compare_eq_lt.mpr hlt]
    rfl
  · rw [Int.compare_eq_eq.mpr rfl, place, place]
    rcases lt_trichotomy m₁ m₂ with hm | rfl | hm
    · rw [Int.compare_eq_lt.mpr (by omega), Nat.compare_eq_lt.mpr hm]
      rfl
    · rw [Int.compare_eq_eq.mpr rfl, Nat.compare_eq_eq.mpr rfl]
      rfl
    · rw [Int.compare_eq_gt.mpr (by omega), Nat.compare_eq_gt.mpr hm]
      rfl
  · have hlt : place m₂ e₂ < place m₁ e₁ := by
      rw [place, place]
      omega
    rw [Int.compare_eq_gt.mpr he, Int.compare_eq_gt.mpr hlt]
    rfl

theorem some_lt_eq {a b : ℤ} (h : a < b) : some Ordering.lt = some (compare a b) := by
  rw [Int.compare_eq_lt.mpr h]

theorem some_gt_eq {a b : ℤ} (h : b < a) : some Ordering.gt = some (compare a b) := by
  rw [Int.compare_eq_gt.mpr h]

/-- The sign is taken to the front of a comparison of two numbers on one side of zero. -/
theorem compare_apply (s : Sign) (a b : ℤ) :
    compare (s.apply a) (s.apply b) =
      match s with
      | .negative => (compare a b).swap
      | .positive => compare a b := by
  cases s with
  | negative =>
    rw [Int.compare_swap]
    rcases lt_trichotomy b a with h | h | h
    · rw [Int.compare_eq_lt.mpr h]
      exact Int.compare_eq_lt.mpr (neg_lt_neg h)
    · rw [Int.compare_eq_eq.mpr h]
      exact Int.compare_eq_eq.mpr (congrArg _ h.symm)
    · rw [Int.compare_eq_gt.mpr h]
      exact Int.compare_eq_gt.mpr (neg_lt_neg h)
  | positive => rfl

theorem compare_eq (hu : InFormat u) (hv : InFormat v) (hu' : u.isNaN = false)
    (hv' : v.isNaN = false) : u.compare v = some (compare (rankOf u) (rankOf v)) := by
  cases u with
  | notANumber => cases hu'
  | infinity s =>
    cases v with
    | notANumber => cases hv'
    | infinity t => cases s <;> cases t <;> rfl
    | zero t => cases s <;> rfl
    | finite t m e h =>
      have hpos := place_pos h hv
      have hlt := place_lt h hv
      cases s with
      | negative => exact some_lt_eq (by cases t <;> simp only [rankOf, Sign.apply] <;> omega)
      | positive => exact some_gt_eq (by cases t <;> simp only [rankOf, Sign.apply] <;> omega)
  | zero s =>
    cases v with
    | notANumber => cases hv'
    | infinity t => cases t <;> rfl
    | zero t => rfl
    | finite t m e h =>
      have hpos := place_pos h hv
      cases t with
      | negative => exact some_gt_eq (neg_neg_of_pos hpos)
      | positive => exact some_lt_eq hpos
  | finite s m e h =>
    have hpos := place_pos h hu
    have hlt := place_lt h hu
    cases v with
    | notANumber => cases hv'
    | infinity t =>
      cases t with
      | negative => exact some_gt_eq (by cases s <;> simp only [rankOf, Sign.apply] <;> omega)
      | positive => exact some_lt_eq (by cases s <;> simp only [rankOf, Sign.apply] <;> omega)
    | zero t =>
      cases s with
      | negative => exact some_lt_eq (neg_neg_of_pos hpos)
      | positive => exact some_gt_eq hpos
    | finite t n f k =>
      have hpos' := place_pos k hv
      have hplace := compare_place h k (s := s) hu hv
      cases s with
      | negative =>
        cases t with
        | negative =>
          rw [rankOf, rankOf, compare_apply, ← hplace]
          rfl
        | positive => exact some_lt_eq (by simp only [rankOf, Sign.apply]; omega)
      | positive =>
        cases t with
        | negative => exact some_gt_eq (by simp only [rankOf, Sign.apply]; omega)
        | positive =>
          rw [rankOf, rankOf, compare_apply, ← hplace]
          rfl

/-! ## Floats -/

theorem isNaN_eq (x : Float) : x.isNaN = x.toModel.unpack.isNaN := rfl

theorem le_iff_unpack :
    x ≤ y ↔ UnpackedFloat.le x.toModel.unpack y.toModel.unpack = true := by
  change decide (x.toModel ≤ y.toModel) = true ↔ _
  rw [decide_eq_true_iff]
  rfl

theorem not_isNaN_of_le (h : x ≤ y) : x.isNaN = false ∧ y.isNaN = false := by
  rw [le_iff_unpack] at h
  rw [isNaN_eq, isNaN_eq]
  generalize x.toModel.unpack = u at h
  generalize y.toModel.unpack = v at h
  cases u <;> cases v <;> first | exact ⟨rfl, rfl⟩ | cases h

section Numbers

variable (hx : x.isNaN = false) (hy : y.isNaN = false)
include hx hy

theorem compare_unpack :
    UnpackedFloat.compare x.toModel.unpack y.toModel.unpack = some (compare (rank x) (rank y)) :=
  compare_eq (inFormat_unpack x) (inFormat_unpack y) hx hy

theorem lt_iff_rank : x < y ↔ rank x < rank y := by
  rw [lt_iff_compare, compare_unpack hx hy, Option.some_inj, Int.compare_eq_lt]

theorem le_iff_rank : x ≤ y ↔ rank x ≤ rank y := by
  rw [le_iff_unpack, UnpackedFloat.le, compare_unpack hx hy, Option.any_some, Int.isLE_compare]

theorem beq_iff_rank : (x == y) = true ↔ rank x = rank y := by
  change UnpackedFloat.beq x.toModel.unpack y.toModel.unpack = true ↔ _
  rw [UnpackedFloat.beq, compare_unpack hx hy, beq_iff_eq, Option.some_inj, Int.compare_eq_eq]

end Numbers

theorem le_of_le_of_le {z : Float} (hxy : x ≤ y) (hyz : y ≤ z) : x ≤ z := by
  obtain ⟨hx, hy⟩ := not_isNaN_of_le hxy
  obtain ⟨_, hz⟩ := not_isNaN_of_le hyz
  rw [le_iff_rank hx hy] at hxy
  rw [le_iff_rank hy hz] at hyz
  rw [le_iff_rank hx hz]
  exact hxy.trans hyz

theorem not_lt_of_le (h : x ≤ y) : ¬y < x := by
  obtain ⟨hx, hy⟩ := not_isNaN_of_le h
  rw [lt_iff_rank hy hx]
  exact not_lt.mpr ((le_iff_rank hx hy).mp h)

/-! ## Finite floats -/

/-- The number that a finite float is. -/
def numberOf : UnpackedFloat → ℚ
  | .finite s m e _ => value s m e
  | _ => 0

def number (x : Float) : ℚ :=
  numberOf x.toModel.unpack

/-- A finite float is a signed mantissa with an exponent, zero among them. -/
theorem exists_signed (hu : InFormat u) (hfin : u.isFinite = true) :
    ∃ s m e, numberOf u = value s m e ∧ rankOf u = s.apply (place m e) ∧ m < 2 ^ 53 ∧
      -1074 ≤ e ∧ (2 ^ 52 ≤ m ∨ e = -1074) := by
  cases u with
  | notANumber => cases hfin
  | infinity s => cases hfin
  | zero s =>
    exact ⟨.positive, 0, -1074, by simp [numberOf, value], rfl, by omega, by omega, Or.inr rfl⟩
  | finite s m e h => exact ⟨s, m, e, rfl, rfl, hu.1, hu.2.1, hu.2.2.2⟩

theorem place_lt_iff (hm₁ : m₁ < 2 ^ 53) (he₁ : -1074 ≤ e₁) (hn₁ : 2 ^ 52 ≤ m₁ ∨ e₁ = -1074)
    (hm₂ : m₂ < 2 ^ 53) (he₂ : -1074 ≤ e₂) (hn₂ : 2 ^ 52 ≤ m₂ ∨ e₂ = -1074) :
    place m₁ e₁ < place m₂ e₂ ↔ (m₁ : ℚ) * 2 ^ e₁ < m₂ * 2 ^ e₂ := by
  rw [place, place]
  rcases lt_trichotomy e₁ e₂ with he | rfl | he
  · exact iff_of_true (by omega) (magnitude_lt hm₁ (by omega) he)
  · rw [mul_lt_mul_iff_left₀ (by positivity), Nat.cast_lt]
    omega
  · exact iff_of_false (by omega) (magnitude_lt hm₂ (by omega) he).not_gt

theorem place_pos_iff (hm : m < 2 ^ 53) (he : -1074 ≤ e) (hn : 2 ^ 52 ≤ m ∨ e = -1074) :
    0 < place m e ↔ (0 : ℚ) < m * 2 ^ e := by
  have h := place_lt_iff (show 0 < 2 ^ 53 by omega) (le_refl (-1074)) (Or.inr rfl) hm he hn
  rwa [Nat.cast_zero, zero_mul] at h

/-- Ranks are in the order of the numbers. -/
theorem numberOf_lt_iff (hu : InFormat u) (hv : InFormat v) (hu' : u.isFinite = true)
    (hv' : v.isFinite = true) : numberOf u < numberOf v ↔ rankOf u < rankOf v := by
  obtain ⟨s, m₁, e₁, hnu, hru, hm₁, he₁, hn₁⟩ := exists_signed hu hu'
  obtain ⟨t, m₂, e₂, hnv, hrv, hm₂, he₂, hn₂⟩ := exists_signed hv hv'
  have hpos₁ := place_pos_iff hm₁ he₁ hn₁
  have hpos₂ := place_pos_iff hm₂ he₂ hn₂
  have h₁ : (0 : ℚ) ≤ m₁ * 2 ^ e₁ := by positivity
  have h₂ : (0 : ℚ) ≤ m₂ * 2 ^ e₂ := by positivity
  have hr₁ : 0 ≤ place m₁ e₁ := by
    rw [place]
    omega
  have hr₂ : 0 ≤ place m₂ e₂ := by
    rw [place]
    omega
  rw [hnu, hnv, hru, hrv, value, value]
  cases s with
  | negative =>
    cases t with
    | negative =>
      rw [factor, neg_one_mul, neg_one_mul, neg_lt_neg_iff,
        ← place_lt_iff hm₂ he₂ hn₂ hm₁ he₁ hn₁]
      exact neg_lt_neg_iff.symm
    | positive =>
      -- both are zero or one of them is not, for the numbers as for the ranks
      rw [factor, factor, neg_one_mul, one_mul, Sign.apply, Sign.apply]
      constructor
      · intro h
        by_contra hcon
        have hz₁ := mt hpos₁.mpr (by omega)
        have hz₂ := mt hpos₂.mpr (by omega)
        linarith
      · intro h
        by_contra hcon
        have hz₁ := mt hpos₁.mp (by linarith)
        have hz₂ := mt hpos₂.mp (by linarith)
        omega
  | positive =>
    cases t with
    | negative =>
      rw [factor, factor, neg_one_mul, one_mul, Sign.apply, Sign.apply]
      exact iff_of_false (by linarith) (by omega)
    | positive =>
      rw [factor, one_mul, one_mul, ← place_lt_iff hm₁ he₁ hn₁ hm₂ he₂ hn₂]
      rfl

/-- A float between two finite ones is finite. -/
theorem isFinite_of_rank (hx : x.isNaN = false) (hlow : -(2047 * 2 ^ 52) < rank x)
    (hhigh : rank x < 2047 * 2 ^ 52) : x.toModel.unpack.isFinite = true := by
  rw [rank] at hlow hhigh
  rw [isNaN_eq] at hx
  generalize x.toModel.unpack = u at *
  cases u with
  | notANumber => cases hx
  | infinity s => cases s <;> simp only [rankOf, Sign.apply] at hlow hhigh <;> omega
  | zero s => rfl
  | finite s m e h => rfl

theorem number_lt_iff (hx : x.toModel.unpack.isFinite = true)
    (hy : y.toModel.unpack.isFinite = true) : number x < number y ↔ rank x < rank y :=
  numberOf_lt_iff (inFormat_unpack x) (inFormat_unpack y) hx hy

theorem number_le_iff (hx : x.toModel.unpack.isFinite = true)
    (hy : y.toModel.unpack.isFinite = true) : number x ≤ number y ↔ rank x ≤ rank y := by
  rw [← not_lt, number_lt_iff hy hx, not_lt]

theorem number_eq_iff (hx : x.toModel.unpack.isFinite = true)
    (hy : y.toModel.unpack.isFinite = true) : number x = number y ↔ rank x = rank y := by
  rw [le_antisymm_iff, number_le_iff hx hy, number_le_iff hy hx, le_antisymm_iff]

theorem isNaN_of_isFinite (hx : x.toModel.unpack.isFinite = true) : x.isNaN = false := by
  rw [isNaN_eq]
  generalize x.toModel.unpack = u at *
  cases u with
  | notANumber => cases hx
  | infinity s => cases hx
  | zero s => rfl
  | finite s m e h => rfl

theorem Holds.isFinite (hx : Holds x a) : x.toModel.unpack.isFinite = true := by
  obtain ⟨_, s, m, e, h, hu, _⟩ := hx
  rw [hu]
  rfl

theorem Holds.representable (hx : Holds x a) : Representable a := by
  obtain ⟨_, s, m, e, h, _, _, hm, rfl⟩ := hx
  exact representable_value s hm e

theorem Holds.number_eq (hx : Holds x a) : number x = a := by
  obtain ⟨_, s, m, e, h, hu, _, _, rfl⟩ := hx
  rw [number, hu, numberOf]

theorem lt_iff_number (hx : x.toModel.unpack.isFinite = true)
    (hy : y.toModel.unpack.isFinite = true) : x < y ↔ number x < number y := by
  rw [lt_iff_rank (isNaN_of_isFinite hx) (isNaN_of_isFinite hy), number_lt_iff hx hy]

theorem le_iff_number (hx : x.toModel.unpack.isFinite = true)
    (hy : y.toModel.unpack.isFinite = true) : x ≤ y ↔ number x ≤ number y := by
  rw [le_iff_rank (isNaN_of_isFinite hx) (isNaN_of_isFinite hy), number_le_iff hx hy]

theorem isFinite_of_number_pos (hpos : 0 < number x) : x.toModel.unpack.isFinite = true := by
  rw [number] at hpos
  generalize x.toModel.unpack = u at *
  cases u with
  | notANumber => exact absurd hpos (lt_irrefl _)
  | infinity s => exact absurd hpos (lt_irrefl _)
  | zero s => rfl
  | finite s m e h => rfl

theorem exists_unpack_zero (hx : x.toModel.unpack.isFinite = true) (hzero : number x = 0) :
    ∃ s, x.toModel.unpack = .zero s := by
  rw [number] at hzero
  generalize x.toModel.unpack = u at *
  cases u with
  | notANumber => cases hx
  | infinity s => cases hx
  | zero s => exact ⟨s, rfl⟩
  | finite s m e h =>
    have habs := abs_value s m e
    rw [numberOf] at hzero
    rw [hzero, abs_zero] at habs
    have hpos : (0 : ℚ) < m * 2 ^ e := by positivity
    exact absurd habs hpos.ne

/-- A positive float is a mantissa with an exponent. -/
theorem exists_mantissa (hx : x.toModel.unpack.isFinite = true) (hpos : 0 < number x) :
    ∃ m e h, x.toModel.unpack = .finite .positive m e h ∧ number x = m * 2 ^ e ∧ m < 2 ^ 53 ∧
      -1074 ≤ e ∧ e ≤ 971 ∧ (2 ^ 52 ≤ m ∨ e = -1074) := by
  have hformat := inFormat_unpack x
  rw [number] at *
  generalize x.toModel.unpack = u at *
  cases u with
  | notANumber => cases hx
  | infinity s => cases hx
  | zero s => exact absurd hpos (lt_irrefl _)
  | finite s m e h =>
    have hnonneg : (0 : ℚ) ≤ m * 2 ^ e := by positivity
    cases s with
    | negative =>
      rw [numberOf, value, factor] at hpos
      linarith
    | positive => exact ⟨m, e, h, rfl, by rw [numberOf, value, factor, one_mul], hformat⟩

/-- A positive float of a moderate size has a mantissa of 53 bits. -/
theorem holds_number (hpos : 0 < number x) (hmod : Moderate (number x)) : Holds x (number x) := by
  obtain ⟨m, e, h, hu, hnumber, hm, -, -, hlong⟩ :=
    exists_mantissa (isFinite_of_number_pos hpos) hpos
  refine ⟨hmod, .positive, m, e, h, hu, hlong.resolve_right ?_, hm, ?_⟩
  · rintro rfl
    have hm' : (m : ℚ) < 2 ^ (53 : ℤ) := by exact_mod_cast hm
    have hlt : (m : ℚ) * 2 ^ (-1074 : ℤ) < 2 ^ (-1021 : ℤ) := by
      rw [show (-1021 : ℤ) = 53 + -1074 by norm_num, zpow_add₀ two_ne_zero]
      exact mul_lt_mul_of_pos_right hm' (by positivity)
    have hle : (2 : ℚ) ^ (-1021 : ℤ) ≤ 2 ^ (-100 : ℤ) := zpow_le_zpow_right₀ one_le_two (by omega)
    rw [← hnumber] at hlt
    exact absurd (hlt.trans_le hle) (not_lt.mpr (abs_of_pos hpos ▸ hmod.1))
  · rw [hnumber, value, factor, one_mul]

/-- An integer is smaller than another one by at least one part in `2 ^ 53`, if either has no more
bits. -/
theorem le_mul_of_lt {i j : ℕ} (hlt : i < j) (hsmall : i < 2 ^ 53 ∨ j < 2 ^ 53) :
    (i : ℚ) ≤ j * (1 - 1 / 2 ^ 53) := by
  have hsucc : (i : ℚ) + 1 ≤ j := by exact_mod_cast hlt
  by_cases hj : j < 2 ^ 53
  · have hj' : (j : ℚ) ≤ 2 ^ 53 := by exact_mod_cast hj.le
    linarith
  · have hi : (i : ℚ) + 1 ≤ 2 ^ 53 := by exact_mod_cast hsmall.resolve_right hj
    have hj' : (2 : ℚ) ^ 53 ≤ j := by exact_mod_cast not_lt.mp hj
    linarith

/-- A mantissa at a smaller exponent. -/
theorem exists_shift (m : ℕ) {e f : ℤ} (h : f ≤ e) :
    ∃ i : ℕ, (m : ℚ) * 2 ^ e = i * 2 ^ f := by
  obtain ⟨k, hk⟩ : ∃ k : ℕ, e = k + f := ⟨(e - f).toNat, by omega⟩
  refine ⟨m * 2 ^ k, ?_⟩
  rw [hk, zpow_add₀ two_ne_zero, zpow_natCast]
  push_cast
  ring

/-- A smaller positive float is smaller by at least one part in `2 ^ 53`. -/
theorem number_le_of_lt (hx : x.toModel.unpack.isFinite = true)
    (hy : y.toModel.unpack.isFinite = true) (hpos : 0 < number x) (hlt : number x < number y) :
    number x ≤ number y * (1 - 1 / 2 ^ 53) := by
  obtain ⟨m₁, e₁, -, -, hx', hm₁, -⟩ := exists_mantissa hx hpos
  obtain ⟨m₂, e₂, -, -, hy', hm₂, -⟩ := exists_mantissa hy (hpos.trans hlt)
  -- at the smaller exponent the mantissas are integers, and one of them keeps its 53 bits
  obtain ⟨i, j, f, hi, hj, hsmall⟩ : ∃ (i j : ℕ) (f : ℤ), number x = i * 2 ^ f ∧
      number y = j * 2 ^ f ∧ (i < 2 ^ 53 ∨ j < 2 ^ 53) := by
    rcases le_total e₁ e₂ with he | he
    · obtain ⟨j, hj⟩ := exists_shift m₂ he
      exact ⟨m₁, j, e₁, hx', hy'.trans hj, Or.inl hm₁⟩
    · obtain ⟨i, hi⟩ := exists_shift m₁ he
      exact ⟨i, m₂, e₂, hx'.trans hi, hy', Or.inr hm₂⟩
  have hpow : (0 : ℚ) < 2 ^ f := by positivity
  rw [hi, hj] at hlt
  have hlt' : i < j := by exact_mod_cast lt_of_mul_lt_mul_right hlt hpow.le
  rw [hi, hj, mul_right_comm]
  exact mul_le_mul_of_nonneg_right (le_mul_of_lt hlt' hsmall) hpow.le

section Bounds

variable (hx : x.toModel.unpack.isFinite = true) (hm : m < 2 ^ 53) (he : -1074 ≤ e)
  (hn : 2 ^ 52 ≤ m ∨ e = -1074)
include hx hm he hn

/-- A bound for the rank is one for the number, whether or not it is taken by a float. -/
theorem number_le_of_rank_le (h : rank x ≤ place m e) : number x ≤ m * 2 ^ e := by
  obtain ⟨s, n, f, hnumber, hrank, hn', hf, hf'⟩ := exists_signed (inFormat_unpack x) hx
  have hnonneg : (0 : ℚ) ≤ m * 2 ^ e := by positivity
  have hnonneg' : (0 : ℚ) ≤ n * 2 ^ f := by positivity
  rw [rank, hrank] at h
  rw [number, hnumber, value]
  cases s with
  | negative =>
    rw [factor]
    linarith
  | positive =>
    rw [factor, one_mul, ← not_lt, ← place_lt_iff hm he hn hn' hf hf']
    exact not_lt.mpr h

theorem neg_le_number_of_le_rank (h : -place m e ≤ rank x) : -(m * 2 ^ e) ≤ number x := by
  obtain ⟨s, n, f, hnumber, hrank, hn', hf, hf'⟩ := exists_signed (inFormat_unpack x) hx
  have hnonneg : (0 : ℚ) ≤ m * 2 ^ e := by positivity
  have hnonneg' : (0 : ℚ) ≤ n * 2 ^ f := by positivity
  rw [rank, hrank] at h
  rw [number, hnumber, value]
  cases s with
  | negative =>
    rw [factor, neg_one_mul, neg_le_neg_iff, ← not_lt, ← place_lt_iff hm he hn hn' hf hf']
    exact not_lt.mpr (neg_le_neg_iff.mp h)
  | positive =>
    rw [factor]
    linarith

end Bounds

end QuadSphere.Binary64
