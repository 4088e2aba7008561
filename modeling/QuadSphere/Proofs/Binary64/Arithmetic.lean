import QuadSphere.Proofs.Binary64.Rounding

/-!
# Arithmetic of floats

`Holds x v` says that the float `x` is the number `v`, other than zero, with a mantissa of 53 bits.
On numbers of a moderate size an operation gives a number nearest to the exact result, and the exact
result itself if that is representable.

* `Holds.mul`, `Holds.div`, `Holds.add`: nearest results.
* `Holds.neg`, `Holds.abs`, `holds_ofInt`: exact results.
* `Holds.lt_iff`: comparison.
* `Holds.toNat_toUInt32`: the whole part.
-/

namespace QuadSphere.Binary64

open Float.Model Float.Model.UnpackedFloat

/-- A sign as a factor. -/
def factor : Sign → ℚ
  | .negative => -1
  | .positive => 1

/-- The value of a signed mantissa with an exponent. -/
def value (s : Sign) (m : ℕ) (e : ℤ) : ℚ :=
  factor s * (m * 2 ^ e)

/-- The number is far from both ends of the range of floats. -/
def Moderate (v : ℚ) : Prop :=
  2 ^ (-100 : ℤ) ≤ |v| ∧ |v| ≤ 2 ^ (100 : ℤ)

/-- The float is this number, which is moderate, with a mantissa of 53 bits. -/
structure Holds (x : Float) (v : ℚ) : Prop where
  moderate : Moderate v
  unpacked : ∃ s m e h, x.toModel.unpack = .finite s m e h ∧ 2 ^ 52 ≤ m ∧ m < 2 ^ 53 ∧
    v = value s m e

variable {x y : Float} {a b v r : ℚ} {s : Sign} {m m₁ m₂ : ℕ} {e e₁ e₂ : ℤ}

/-! ## Signs -/

@[simp] theorem factor_mul : ∀ s t : Sign, factor (s * t) = factor s * factor t
  | .negative, .negative => (by norm_num : (1 : ℚ) = -1 * -1)
  | .negative, .positive => (by norm_num : (-1 : ℚ) = -1 * 1)
  | .positive, .negative => (by norm_num : (-1 : ℚ) = 1 * -1)
  | .positive, .positive => (by norm_num : (1 : ℚ) = 1 * 1)

@[simp] theorem factor_div : ∀ s t : Sign, factor (s / t) = factor s / factor t
  | .negative, .negative => (by norm_num : (1 : ℚ) = -1 / -1)
  | .negative, .positive => (by norm_num : (-1 : ℚ) = -1 / 1)
  | .positive, .negative => (by norm_num : (-1 : ℚ) = 1 / -1)
  | .positive, .positive => (by norm_num : (1 : ℚ) = 1 / 1)

@[simp] theorem factor_neg : ∀ s : Sign, factor (-s) = -factor s
  | .negative => (by norm_num : (1 : ℚ) = - -1)
  | .positive => rfl

@[simp] theorem abs_factor (s : Sign) : |factor s| = 1 := by
  cases s <;> simp [factor]

theorem factor_mul_cast (s : Sign) (m : ℕ) : factor s * m = (s.apply m : ℤ) := by
  cases s <;> simp [factor, Sign.apply]

theorem abs_value (s : Sign) (m : ℕ) (e : ℤ) : |value s m e| = m * 2 ^ e := by
  rw [value, abs_mul, abs_factor, one_mul, abs_of_nonneg (by positivity)]

/-- What a sign does to a number, it does to the nearest numbers. -/
theorem RoundsTo.factor_mul (h : RoundsTo v r) (s : Sign) :
    RoundsTo (factor s * v) (factor s * r) := by
  cases s with
  | positive => rwa [factor, one_mul, one_mul]
  | negative =>
    rw [factor, neg_one_mul, neg_one_mul]
    exact h.neg

/-! ## Packing -/

theorem exponent_bounds (hlow : 2 ^ 52 ≤ m) (hhigh : m < 2 ^ 53) (h : Moderate (value s m e)) :
    -153 ≤ e ∧ e ≤ 48 := by
  rw [Moderate, abs_value] at h
  have hlow' : (2 : ℚ) ^ (52 : ℤ) ≤ m := by exact_mod_cast hlow
  have hhigh' : (m : ℚ) < 2 ^ (53 : ℤ) := by exact_mod_cast hhigh
  have hpos : (0 : ℚ) < 2 ^ e := by positivity
  constructor
  · have hlt : (2 : ℚ) ^ (-100 : ℤ) < 2 ^ (53 + e) := by
      rw [zpow_add₀ two_ne_zero]
      exact h.1.trans_lt (mul_lt_mul_of_pos_right hhigh' hpos)
    have := (zpow_lt_zpow_iff_right₀ one_lt_two).mp hlt
    omega
  · have hle : (2 : ℚ) ^ (52 + e) ≤ 2 ^ (100 : ℤ) := by
      rw [zpow_add₀ two_ne_zero]
      exact (mul_le_mul_of_nonneg_right hlow' hpos.le).trans h.2
    have := (zpow_le_zpow_iff_right₀ one_lt_two).mp hle
    omega

theorem log2_eq (hlow : 2 ^ 52 ≤ m) (hhigh : m < 2 ^ 53) : m.log2 = 52 := by
  have h1 := (Nat.le_log2 (by omega)).mpr hlow
  have h2 := (Nat.log2_lt (by omega)).mpr hhigh
  omega

theorem toNat_append_ofNat (hlow : 2 ^ 52 ≤ m) (hhigh : m < 2 ^ 53) :
    (1#1 ++ BitVec.ofNat 52 m).toNat = m := by
  rw [BitVec.toNat_append, BitVec.toNat_ofNat,
    ← Nat.shiftLeft_add_eq_or_of_lt (by rw [BitVec.toNat_ofNat]; exact Nat.mod_lt _ (by norm_num)),
    BitVec.toNat_ofNat, Nat.shiftLeft_eq]
  omega

/-- Packing keeps a number with a mantissa of 53 bits. -/
theorem unpack_pack (h : 0 < m) (hlow : 2 ^ 52 ≤ m) (hhigh : m < 2 ^ 53)
    (he : -1074 ≤ e ∧ e ≤ 971) :
    (Float.Model.pack (.finite s m e h)).unpack = .finite s m e h := by
  have hlog := log2_eq hlow hhigh
  obtain ⟨b, hb⟩ : ∃ b : ℕ, e + (1023 : ℕ) + (52 : ℕ) = b := ⟨(e + 1075).toNat, by omega⟩
  have hbits : (BitVec.ofNat 11 b).toNat = b := by
    rw [BitVec.toNat_ofNat, Nat.mod_eq_of_lt (by omega)]
  have hne : ∀ w : BitVec 11, w.toNat ≠ b → BitVec.ofNat 11 b ≠ w := by
    rintro w hw rfl
    exact hw hbits
  have hpack : UnpackedFloat.pack Format.binary64 (.finite s m e h) =
      packComponents Format.binary64 s (BitVec.ofNat 11 b) (BitVec.ofNat 52 m) := by
    rw [UnpackedFloat.pack]
    simp only [show (Format.binary64.exponentBias : ℤ) = (1023 : ℕ) from rfl,
      show (Format.binary64.mantissaBits) = 53 from rfl, hb, hlog, Int.toNat_natCast]
    rw [if_neg (by omega), if_pos trivial]
  have hunpack : UnpackedFloat.unpack Format.binary64
      (packComponents Format.binary64 s (BitVec.ofNat 11 b) (BitVec.ofNat 52 m)) =
      .finite s m e h := by
    rw [UnpackedFloat.unpack]
    simp only [unpackMantissa_packComponents, unpackExponent_packComponents,
      unpackSign_packComponents, Sign.ofBitVec_toBitVec, hbits]
    rw [if_neg (hne _ (by simp; omega)), if_neg (hne _ (by simp; omega))]
    congr 1
    · exact toNat_append_ofNat hlow hhigh
    · rw [show (Format.binary64.exponentBias : ℤ) = 1023 from rfl]
      omega
  rw [Float.Model.unpack, Float.Model.pack]
  exact (congrArg _ hpack).trans hunpack

theorem holds_pack (h : 0 < m) (hlow : 2 ^ 52 ≤ m) (hhigh : m < 2 ^ 53)
    (hmod : Moderate (value s m e)) :
    Holds (.ofModel (.pack (.finite s m e h))) (value s m e) := by
  have he := exponent_bounds hlow hhigh hmod
  exact ⟨hmod, s, m, e, h, unpack_pack h hlow hhigh (by omega), hlow, hhigh, rfl⟩

/-! ## Moderate numbers -/

theorem Moderate.neg (h : Moderate a) : Moderate (-a) := by
  rwa [Moderate, abs_neg]

theorem Moderate.ne_zero (h : Moderate a) : a ≠ 0 := by
  rintro rfl
  have hpos : (0 : ℚ) < 2 ^ (-100 : ℤ) := by positivity
  have hle := h.1
  rw [abs_zero] at hle
  exact absurd hle (not_le.mpr hpos)

theorem representable_zpow (n : ℤ) : Representable (2 ^ n) :=
  ⟨1, n, by norm_num, by simp⟩

theorem representable_value (s : Sign) (hm : m < 2 ^ 53) (e : ℤ) : Representable (value s m e) := by
  have habs : |(m : ℤ)| ≤ 2 ^ 53 := by
    rw [Nat.abs_cast]
    exact_mod_cast hm.le
  have hpos : Representable ((m : ℚ) * 2 ^ e) := ⟨m, e, habs, by rw [Int.cast_natCast]⟩
  cases s with
  | negative =>
    rw [value, factor, neg_one_mul]
    exact hpos.neg
  | positive => rwa [value, factor, one_mul]

theorem RoundsTo.moderate (h : RoundsTo v r) (hv : Moderate v) : Moderate r := by
  have hpos : (0 : ℚ) < 2 ^ (-100 : ℤ) := by positivity
  rcases abs_cases v with ⟨habs, _⟩ | ⟨habs, _⟩
  · have hge := h.ge (representable_zpow (-100)) (habs ▸ hv.1)
    have hle := h.le (representable_zpow 100) (habs ▸ hv.2)
    rw [Moderate, abs_of_nonneg (by linarith)]
    exact ⟨hge, hle⟩
  · have hge := h.neg.ge (representable_zpow (-100)) (habs ▸ hv.1)
    have hle := h.neg.le (representable_zpow 100) (habs ▸ hv.2)
    rw [Moderate, abs_of_nonpos (by linarith)]
    exact ⟨hge, hle⟩

/-- A float that is nearest to a representable number is that number. -/
theorem holds_of_representable (h : ∃ r, Holds x r ∧ RoundsTo v r) (hv : Representable v) :
    Holds x v := by
  obtain ⟨r, hr, hround⟩ := h
  rwa [← hround.eq_of_representable hv]

/-! ## Operations -/

theorem holds_roundWithAccuracy (s : Sign) {acc : Accuracy} {q : ℚ}
    (hq : Stands (.ofMantissaAndAccuracy m acc) q) (hm : 2 ^ 52 ≤ m) (he : -1074 ≤ e)
    (hmod : Moderate (factor s * (q * 2 ^ e))) :
    ∃ r, Holds (.ofModel (.pack (roundWithAccuracy Format.binary64 s m e acc))) r ∧
      RoundsTo (factor s * (q * 2 ^ e)) r := by
  obtain ⟨m', e', h, hround, hlow, hhigh, _, hnear⟩ := roundWithAccuracy_spec s hq hm he
  have hvalue := hnear.factor_mul s
  rw [hround]
  exact ⟨_, holds_pack h hlow hhigh (hvalue.moderate hmod), hvalue⟩

theorem Moderate.exponent_add_log2 (h : Moderate (value s m e)) : -101 ≤ e + m.log2 := by
  rw [Moderate, abs_value] at h
  have hlt : (m : ℚ) < 2 ^ ((m.log2 : ℤ) + 1) := by exact_mod_cast Nat.lt_log2_self (n := m)
  have hpow : (2 : ℚ) ^ (-100 : ℤ) < 2 ^ ((m.log2 : ℤ) + 1 + e) := by
    rw [zpow_add₀ two_ne_zero]
    exact h.1.trans_lt (mul_lt_mul_of_pos_right hlt (by positivity))
  have := (zpow_lt_zpow_iff_right₀ one_lt_two).mp hpow
  omega

theorem holds_round (s : Sign) (hm : 0 < m) (he : -1074 ≤ e) (hmod : Moderate (value s m e)) :
    ∃ r, Holds (.ofModel (.pack (UnpackedFloat.round Format.binary64 s m e))) r ∧
      RoundsTo (value s m e) r := by
  have hlog := hmod.exponent_add_log2
  obtain ⟨m', e', h, hround, hlow, hhigh, _, hnear⟩ := round_spec s hm he (by omega)
  have hvalue := hnear.factor_mul s
  rw [hround]
  exact ⟨_, holds_pack h hlow hhigh (hvalue.moderate hmod), hvalue⟩

theorem value_mul (s₁ s₂ : Sign) (m₁ m₂ : ℕ) (e₁ e₂ : ℤ) :
    value s₁ m₁ e₁ * value s₂ m₂ e₂ =
      factor (s₁ * s₂) * ((m₁ * m₂ : ℕ) * 2 ^ (e₁ + e₂)) := by
  rw [value, value, Binary64.factor_mul, zpow_add₀ two_ne_zero, Nat.cast_mul]
  ring

theorem Holds.mul (hx : Holds x a) (hy : Holds y b) (hab : Moderate (a * b)) :
    ∃ r, Holds (x * y) r ∧ RoundsTo (a * b) r := by
  obtain ⟨ha, s₁, m₁, e₁, h₁, hux, hlow₁, hhigh₁, rfl⟩ := hx
  obtain ⟨hb, s₂, m₂, e₂, h₂, huy, hlow₂, hhigh₂, rfl⟩ := hy
  have he₁ := exponent_bounds hlow₁ hhigh₁ ha
  have he₂ := exponent_bounds hlow₂ hhigh₂ hb
  have hlong : 2 ^ 52 ≤ m₁ * m₂ := hlow₁.trans (Nat.le_mul_of_pos_right _ h₂)
  rw [value_mul] at hab ⊢
  obtain ⟨r, hr, hnear⟩ := holds_roundWithAccuracy (s₁ * s₂) (stands_exact (m₁ * m₂)) hlong
    (show -1074 ≤ e₁ + e₂ by omega) hab
  refine ⟨r, ?_, hnear⟩
  change Holds (.ofModel (.pack (UnpackedFloat.mul _ x.toModel.unpack y.toModel.unpack))) _
  rw [hux, huy]
  exact hr

theorem value_div (s₁ s₂ : Sign) {m₁ m₂ : ℕ} (h₂ : 0 < m₂) (e₁ e₂ : ℤ) (k : ℕ) :
    value s₁ m₁ e₁ / value s₂ m₂ e₂ =
      factor (s₁ / s₂) * ((((m₁ <<< k) / m₂ : ℕ) + ((m₁ <<< k) % m₂ : ℕ) / m₂) *
        2 ^ (e₁ - e₂ - k)) := by
  have hm₂ : (m₂ : ℚ) ≠ 0 := by exact_mod_cast h₂.ne'
  have hdiv : (((m₁ <<< k) / m₂ : ℕ) : ℚ) + ((m₁ <<< k) % m₂ : ℕ) / m₂ = m₁ * 2 ^ k / m₂ := by
    have hsum : ((m₂ * ((m₁ <<< k) / m₂) + (m₁ <<< k) % m₂ : ℕ) : ℚ) = (m₁ * 2 ^ k : ℕ) := by
      rw [Nat.div_add_mod, Nat.shiftLeft_eq]
    rw [eq_div_iff hm₂, add_mul, div_mul_cancel₀ _ hm₂]
    push_cast at hsum
    linarith
  rw [hdiv, value, value, factor_div, zpow_sub₀ two_ne_zero, zpow_sub₀ two_ne_zero, zpow_natCast,
    mul_div_mul_comm, mul_div_mul_comm]
  field_simp

/-- The quotient of the mantissas has 53 bits, unless it is cut off at the smallest exponent. -/
theorem divCore_spec (hlow : 2 ^ 52 ≤ m₁) (hhigh : m₁ < 2 ^ 53) (hm₂ : 0 < m₂) (hm₂' : m₂ < 2 ^ 53)
    (he : -1074 ≤ e₁ - e₂) :
    ∃ k : ℕ, divCore Format.binary64 m₁ e₁ m₂ e₂ =
        ((m₁ <<< k) / m₂, e₁ - e₂ - k, accuracyOfFraction ((m₁ <<< k) % m₂) m₂) ∧
      k ≤ 53 ∧ -1074 ≤ e₁ - e₂ - k ∧ (2 ^ 52 ≤ (m₁ <<< k) / m₂ ∨ e₁ - e₂ - k = -1074) := by
  have hlog₁ := log2_eq hlow hhigh
  have hlog₂ := (Nat.log2_lt hm₂.ne').mpr hm₂'
  have htarget : min (e₁ - e₂) (Format.binary64.targetExponent
      (totalExponent m₁ e₁ - totalExponent m₂ e₂)) = max (e₁ - e₂ - m₂.log2 - 1) (-1074) := by
    rw [Format.targetExponent, totalExponent, totalExponent, hlog₁,
      show Format.binary64.minExponent = -1074 by decide,
      show (Format.binary64.mantissaBits : ℤ) = 53 by rfl]
    omega
  obtain ⟨k, hk⟩ : ∃ k : ℕ, e₁ - e₂ - max (e₁ - e₂ - m₂.log2 - 1) (-1074) = k :=
    ⟨(e₁ - e₂ - max (e₁ - e₂ - m₂.log2 - 1) (-1074)).toNat, by omega⟩
  refine ⟨k, ?_, by omega, by omega, ?_⟩
  · rw [divCore, htarget, hk, Int.toNat_natCast]
    congr 2
    omega
  · rcases Nat.lt_or_ge m₂.log2 k with hlong | hshort
    · refine Or.inl ?_
      have hlt := Nat.lt_log2_self (n := m₂)
      rw [Nat.le_div_iff_mul_le hm₂, Nat.shiftLeft_eq]
      calc 2 ^ 52 * m₂ ≤ 2 ^ 52 * 2 ^ k :=
            Nat.mul_le_mul_left _ (hlt.le.trans (Nat.pow_le_pow_right (by omega) hlong))
        _ ≤ m₁ * 2 ^ k := Nat.mul_le_mul_right _ hlow
    · exact Or.inr (by omega)

theorem Holds.div (hx : Holds x a) (hy : Holds y b) (hab : Moderate (a / b)) :
    ∃ r, Holds (x / y) r ∧ RoundsTo (a / b) r := by
  obtain ⟨ha, s₁, m₁, e₁, h₁, hux, hlow₁, hhigh₁, rfl⟩ := hx
  obtain ⟨hb, s₂, m₂, e₂, h₂, huy, hlow₂, hhigh₂, rfl⟩ := hy
  have he₁ := exponent_bounds hlow₁ hhigh₁ ha
  have he₂ := exponent_bounds hlow₂ hhigh₂ hb
  obtain ⟨k, hcore, hk, hexp, hlong⟩ :=
    divCore_spec hlow₁ hhigh₁ h₂ hhigh₂ (show -1074 ≤ e₁ - e₂ by omega)
  rw [value_div s₁ s₂ h₂ e₁ e₂ k] at hab ⊢
  obtain ⟨r, hr, hnear⟩ := holds_roundWithAccuracy (s₁ / s₂)
    (stands_fraction ((m₁ <<< k) / m₂) ((m₁ <<< k) % m₂) m₂ (Nat.mod_lt _ h₂))
    (hlong.resolve_right (by omega)) hexp hab
  refine ⟨r, ?_, hnear⟩
  change Holds (.ofModel (.pack (UnpackedFloat.div _ x.toModel.unpack y.toModel.unpack))) _
  rw [hux, huy, UnpackedFloat.div, hcore]
  exact hr

theorem normalize_spec (zero : Sign) {i : ℤ} (hi : i ≠ 0) (he : -1074 ≤ e)
    (hmod : Moderate (i * 2 ^ e)) :
    ∃ r, Holds (.ofModel (.pack (UnpackedFloat.normalize Format.binary64 i e zero))) r ∧
      RoundsTo (i * 2 ^ e) r := by
  rcases Int.lt_or_gt_of_ne hi with hneg | hpos
  · have hcast : (((-i).toNat : ℕ) : ℚ) = -i := by
      exact_mod_cast (Int.toNat_of_nonneg (by omega : 0 ≤ -i))
    have hvalue : (i : ℚ) * 2 ^ e = value .negative (-i).toNat e := by
      rw [value, factor, hcast]
      ring
    rw [hvalue] at hmod ⊢
    rw [UnpackedFloat.normalize, Int.compare_eq_lt.mpr hneg]
    exact holds_round .negative (by omega) he hmod
  · have hcast : ((i.toNat : ℕ) : ℚ) = i := by
      exact_mod_cast (Int.toNat_of_nonneg (by omega : 0 ≤ i))
    have hvalue : (i : ℚ) * 2 ^ e = value .positive i.toNat e := by
      rw [value, factor, hcast]
      ring
    rw [hvalue] at hmod ⊢
    rw [UnpackedFloat.normalize, Int.compare_eq_gt.mpr hpos]
    exact holds_round .positive (by omega) he hmod

/-- Two mantissas at a common exponent. -/
theorem apply_shiftLeft (s : Sign) (m : ℕ) {e f : ℤ} (h : f ≤ e) :
    ((s.apply (m <<< (e - f).toNat : ℕ) : ℤ) : ℚ) * 2 ^ f = value s m e := by
  obtain ⟨k, hk⟩ : ∃ k : ℕ, e - f = k := ⟨(e - f).toNat, by omega⟩
  rw [← factor_mul_cast, value, hk, Int.toNat_natCast, Nat.shiftLeft_eq,
    show e = k + f by omega, zpow_add₀ two_ne_zero, zpow_natCast]
  push_cast
  ring

theorem Holds.add (hx : Holds x a) (hy : Holds y b) (hab : Moderate (a + b)) :
    ∃ r, Holds (x + y) r ∧ RoundsTo (a + b) r := by
  obtain ⟨ha, s₁, m₁, e₁, h₁, hux, hlow₁, hhigh₁, rfl⟩ := hx
  obtain ⟨hb, s₂, m₂, e₂, h₂, huy, hlow₂, hhigh₂, rfl⟩ := hy
  have he₁ := exponent_bounds hlow₁ hhigh₁ ha
  have he₂ := exponent_bounds hlow₂ hhigh₂ hb
  have hsum : (((s₁.apply (m₁ <<< (e₁ - min e₁ e₂).toNat : ℕ) +
      s₂.apply (m₂ <<< (e₂ - min e₁ e₂).toNat : ℕ) : ℤ)) : ℚ) * 2 ^ min e₁ e₂ =
      value s₁ m₁ e₁ + value s₂ m₂ e₂ := by
    rw [Int.cast_add, add_mul, apply_shiftLeft s₁ m₁ (min_le_left _ _),
      apply_shiftLeft s₂ m₂ (min_le_right _ _)]
  rw [← hsum] at hab ⊢
  have hne := left_ne_zero_of_mul hab.ne_zero
  obtain ⟨r, hr, hnear⟩ := normalize_spec .positive (Int.cast_ne_zero.mp hne)
    (show -1074 ≤ min e₁ e₂ by omega) hab
  refine ⟨r, ?_, hnear⟩
  change Holds (.ofModel (.pack (UnpackedFloat.add _ x.toModel.unpack y.toModel.unpack))) _
  rw [hux, huy]
  exact hr

theorem Holds.neg (hx : Holds x a) : Holds (-x) (-a) := by
  obtain ⟨ha, s, m, e, h, hux, hlow, hhigh, rfl⟩ := hx
  have hneg : -value s m e = value (-s) m e := by
    rw [value, value, factor_neg, neg_mul]
  rw [hneg]
  change Holds (.ofModel (.pack x.toModel.unpack.neg)) _
  rw [hux]
  exact holds_pack h hlow hhigh (hneg ▸ ha.neg)

theorem Holds.abs (hx : Holds x a) : Holds x.abs |a| := by
  obtain ⟨ha, s, m, e, h, hux, hlow, hhigh, rfl⟩ := hx
  have habs : |value s m e| = value .positive m e := by
    rw [abs_value, value, factor, one_mul]
  rw [habs]
  change Holds (.ofModel (.pack x.toModel.unpack.abs)) _
  rw [hux]
  refine holds_pack h hlow hhigh ?_
  rwa [← habs, Moderate, abs_abs]

/-! ## Comparison -/

theorem lt_iff_compare :
    x < y ↔ UnpackedFloat.compare x.toModel.unpack y.toModel.unpack = some .lt := by
  change decide (x.toModel < y.toModel) = true ↔ _
  rw [decide_eq_true_iff]
  change (UnpackedFloat.compare x.toModel.unpack y.toModel.unpack == some .lt) = true ↔ _
  rw [beq_iff_eq]

/-- A smaller exponent means a smaller number. -/
theorem magnitude_lt {m₁ m₂ : ℕ} {e₁ e₂ : ℤ} (hhigh₁ : m₁ < 2 ^ 53) (hlow₂ : 2 ^ 52 ≤ m₂)
    (he : e₁ < e₂) : (m₁ : ℚ) * 2 ^ e₁ < m₂ * 2 ^ e₂ := by
  have hhigh : (m₁ : ℚ) < 2 ^ 53 := by exact_mod_cast hhigh₁
  have hlow : (2 : ℚ) ^ 52 ≤ m₂ := by exact_mod_cast hlow₂
  calc (m₁ : ℚ) * 2 ^ e₁ < 2 ^ 53 * 2 ^ e₁ := mul_lt_mul_of_pos_right hhigh (by positivity)
    _ = 2 ^ 52 * 2 ^ (e₁ + 1) := by rw [zpow_add_one₀ two_ne_zero]; ring
    _ ≤ 2 ^ 52 * 2 ^ e₂ :=
      mul_le_mul_of_nonneg_left (zpow_le_zpow_right₀ one_le_two he) (by positivity)
    _ ≤ m₂ * 2 ^ e₂ := mul_le_mul_of_nonneg_right hlow (by positivity)

theorem compare_magnitude {m₁ m₂ : ℕ} {e₁ e₂ : ℤ} (hlow₁ : 2 ^ 52 ≤ m₁) (hhigh₁ : m₁ < 2 ^ 53)
    (hlow₂ : 2 ^ 52 ≤ m₂) (hhigh₂ : m₂ < 2 ^ 53) :
    (compare e₁ e₂).then (compare m₁ m₂) = .lt ↔ (m₁ : ℚ) * 2 ^ e₁ < m₂ * 2 ^ e₂ := by
  rcases lt_trichotomy e₁ e₂ with he | rfl | he
  · rw [Int.compare_eq_lt.mpr he]
    exact iff_of_true rfl (magnitude_lt hhigh₁ hlow₂ he)
  · rw [Int.compare_eq_eq.mpr rfl, mul_lt_mul_iff_left₀ (by positivity), Nat.cast_lt]
    exact Nat.compare_eq_lt
  · rw [Int.compare_eq_gt.mpr he]
    exact iff_of_false (by simp [Ordering.then]) (magnitude_lt hhigh₂ hlow₁ he).not_gt

theorem Holds.lt_iff (hx : Holds x a) (hy : Holds y b) : x < y ↔ a < b := by
  obtain ⟨ha, s₁, m₁, e₁, h₁, hux, hlow₁, hhigh₁, rfl⟩ := hx
  obtain ⟨hb, s₂, m₂, e₂, h₂, huy, hlow₂, hhigh₂, rfl⟩ := hy
  have hpos₁ : (0 : ℚ) < m₁ * 2 ^ e₁ := by positivity
  have hpos₂ : (0 : ℚ) < m₂ * 2 ^ e₂ := by positivity
  rw [lt_iff_compare, hux, huy, value, value]
  cases s₁ with
  | negative =>
    cases s₂ with
    | negative =>
      rw [factor, neg_one_mul, neg_one_mul, neg_lt_neg_iff,
        ← compare_magnitude hlow₂ hhigh₂ hlow₁ hhigh₁, UnpackedFloat.compare,
        Option.some_inj, Ordering.swap_then, Int.compare_swap, Nat.compare_swap]
    | positive =>
      rw [factor, factor, neg_one_mul, one_mul]
      exact iff_of_true rfl (by linarith)
  | positive =>
    cases s₂ with
    | negative =>
      rw [factor, factor, neg_one_mul, one_mul]
      exact iff_of_false (by simp [UnpackedFloat.compare]) (by linarith)
    | positive =>
      rw [factor, one_mul, one_mul, ← compare_magnitude hlow₁ hhigh₁ hlow₂ hhigh₂,
        UnpackedFloat.compare, Option.some_inj]

theorem unpack_zero : (0 : Float).toModel.unpack = .zero .positive := by
  rw [Float.Model.unpack, show (0 : Float).toModel.toBits = 0 by decide +kernel]
  rfl

theorem Holds.lt_zero_iff (hx : Holds x a) : x < 0 ↔ a < 0 := by
  obtain ⟨ha, s, m, e, h, hux, hlow, hhigh, rfl⟩ := hx
  have hpos : (0 : ℚ) < m * 2 ^ e := by positivity
  rw [lt_iff_compare, hux, unpack_zero, value]
  cases s with
  | negative =>
    rw [factor, neg_one_mul]
    exact iff_of_true rfl (by linarith)
  | positive =>
    rw [factor, one_mul]
    exact iff_of_false (by simp [UnpackedFloat.compare]) (by linarith)

/-! ## Integers -/

/-- The whole part of a float. -/
theorem Holds.toNat_toUInt32 (hx : Holds x a) {n : ℕ} (hn : n ≤ a ∧ a < n + 1)
    (hlt : n < 2 ^ 32) : x.toUInt32.toNat = n := by
  obtain ⟨ha, s, m, e, h, hux, hlow, hhigh, rfl⟩ := hx
  have hpos : (0 : ℚ) < m * 2 ^ e := by positivity
  have hn0 : (0 : ℚ) ≤ n := by positivity
  have hs : s = .positive := by
    cases s with
    | positive => rfl
    | negative =>
      rw [value, factor, neg_one_mul] at hn
      linarith
  subst hs
  rw [value, factor, one_mul] at hn
  have hstands := (stands_exact (m <<< e.toNat)).shiftRight (-e).toNat
  have hscale : ((m <<< e.toNat : ℕ) : ℚ) / 2 ^ (-e).toNat = m * 2 ^ e := by
    rw [Nat.shiftLeft_eq, div_eq_iff (by positivity), Nat.cast_mul, Nat.cast_pow, Nat.cast_ofNat,
      mul_assoc, ← zpow_natCast, ← zpow_natCast, ← zpow_add₀ two_ne_zero]
    congr 2
    omega
  rw [hscale] at hstands
  have hfloor : (ExtendedMantissa.ofMantissaAndAccuracy (m <<< e.toNat) .exact >>>
      (-e).toNat).mantissa = n := by
    obtain ⟨h1, h2⟩ := hstands.bounds
    have h3 : n < (ExtendedMantissa.ofMantissaAndAccuracy (m <<< e.toNat) .exact >>>
      (-e).toNat).mantissa + 1 := by exact_mod_cast hn.1.trans_lt h2
    have h4 : (ExtendedMantissa.ofMantissaAndAccuracy (m <<< e.toNat) .exact >>>
      (-e).toNat).mantissa < n + 1 := by exact_mod_cast h1.trans_lt hn.2
    omega
  have hint : roundToInt .positive m e = n := by
    simp only [roundToInt, decreaseExponent, shiftToExponent, Int.sub_zero]
    rw [show (0 - (e - (e.toNat : ℤ))).toNat = (-e).toNat by omega, hfloor]
    rfl
  change (UInt32.ofNatClamp (UnpackedFloat.toInt 0 _ x.toModel.unpack).toNat).toNat = n
  rw [hux, UnpackedFloat.toInt, hint, Int.toNat_natCast, UInt32.ofNatClamp,
    dif_pos (show n < UInt32.size from hlt)]
  exact UInt32.toNat_ofNatLT

theorem moderate_intCast {i : ℤ} (hi : i ≠ 0) (hle : |i| ≤ 2 ^ 53) : Moderate (i : ℚ) := by
  have h1 : (1 : ℚ) ≤ |(i : ℚ)| := by exact_mod_cast Int.one_le_abs hi
  have h2 : |(i : ℚ)| ≤ 2 ^ 53 := by exact_mod_cast hle
  have h3 : (2 : ℚ) ^ (-100 : ℤ) ≤ 1 := by norm_num
  have h4 : (2 : ℚ) ^ 53 ≤ 2 ^ (100 : ℤ) := by norm_num
  exact ⟨h3.trans h1, h2.trans h4⟩

theorem representable_intCast {i : ℤ} (hle : |i| ≤ 2 ^ 53) : Representable (i : ℚ) :=
  ⟨i, 0, hle, by simp⟩

/-- A float that is known bit by bit. -/
theorem holds_of_bits {w : UInt64} (hbits : x.toModel.toBits = w) (h : 0 < m)
    (hunpack : UnpackedFloat.unpack Format.binary64 w.toBitVec = .finite s m e h)
    (hlow : 2 ^ 52 ≤ m) (hhigh : m < 2 ^ 53) (hmod : Moderate (value s m e)) :
    Holds x (value s m e) :=
  ⟨hmod, s, m, e, h, by rw [Float.Model.unpack, hbits, hunpack], hlow, hhigh, rfl⟩

theorem moderate_one : Moderate 1 := by
  have h := moderate_intCast (i := 1) (by norm_num) (by norm_num)
  rwa [Int.cast_one] at h

theorem holds_one : Holds 1 1 := by
  have hv : value .positive (2 ^ 52) (-52) = 1 := by
    rw [value, factor]
    norm_num
  have h := holds_of_bits (x := 1) (s := .positive) (m := 2 ^ 52) (e := -52)
    (w := 0x3ff0000000000000) (by decide +kernel) (by norm_num) rfl (le_refl _) (by norm_num)
    (hv ▸ moderate_one)
  rwa [hv] at h

theorem holds_ofNat {n : ℕ} (hn : n ≠ 0) (hlt : n < 2 ^ 53) : Holds (Float.ofNat n) n := by
  have hle : |(n : ℤ)| ≤ 2 ^ 53 := by
    rw [Nat.abs_cast]
    exact_mod_cast hlt.le
  have hmod := moderate_intCast (Int.natCast_ne_zero.mpr hn) hle
  have hrep := representable_intCast hle
  rw [Int.cast_natCast] at hmod hrep
  have hword : n.toUInt64.toNat = n := UInt64.toNat_ofNat_of_lt' (hlt.trans (by norm_num))
  have hfloat : Holds n.toUInt64.toFloat n := by
    refine holds_of_representable ?_ hrep
    obtain ⟨r, hr, hnear⟩ := normalize_spec .positive (Int.natCast_ne_zero.mpr hn)
      (show (-1074 : ℤ) ≤ 0 by omega) (by simpa using hmod)
    refine ⟨r, ?_, by simpa using hnear⟩
    rw [← hword] at hr
    exact hr
  -- the conversion ends with a product by the zeroth power of ten
  have hpower : Float.ofNat n = n.toUInt64.toFloat * 1 := by
    have hone : Float.exactlyRepresentablePowersOfTen[0] = 1 := by decide +kernel
    change Float.ofScientific n false 0 = _
    rw [Float.ofScientific, dif_pos ⟨hlt, by omega⟩]
    simp only [Bool.false_eq_true, if_false, hone]
  rw [hpower]
  refine holds_of_representable ?_ hrep
  have hmul := hfloat.mul holds_one (by rwa [mul_one])
  rwa [mul_one] at hmul

theorem holds_ofInt {i : ℤ} (hi : i ≠ 0) (hlt : |i| < 2 ^ 53) : Holds (Float.ofInt i) i := by
  cases i with
  | ofNat n =>
    rw [Float.ofInt, Int.ofNat_eq_natCast, Int.cast_natCast]
    rw [Int.ofNat_eq_natCast, Nat.abs_cast] at hlt
    exact holds_ofNat (by rintro rfl; exact hi rfl) (by exact_mod_cast hlt)
  | negSucc n =>
    have hlt' : n + 1 < 2 ^ 53 := by
      rw [Int.negSucc_eq, abs_neg, abs_of_nonneg (by omega)] at hlt
      exact_mod_cast hlt
    have hneg : ((Int.negSucc n : ℤ) : ℚ) = -((n + 1 : ℕ) : ℚ) := by
      rw [Int.negSucc_eq]
      push_cast
      ring
    rw [hneg]
    exact (holds_ofNat (Nat.succ_ne_zero n) hlt').neg

end QuadSphere.Binary64
