import Mathlib

/-!
# Rounding to 53 bits

A number is representable if it is a power of two times an integer of at most 53 bits, whatever the
exponent.  `RoundsTo v r` says that `r` is representable and that no representable number is closer
to `v`.  Which one of two equally close numbers is taken is left open, so a bound for `r` comes from
representable numbers near `v` (`RoundsTo.le`, `RoundsTo.lt`).

The rounding of the model of `Float` is of this kind: a mantissa with its round bit and its sticky
bit stands for a number (`Stands`), which halving keeps up to a factor of two, and the rounded
mantissa is an integer nearest to it.

* `roundWithAccuracy_spec`: a mantissa of at least 53 bits is rounded to a nearest one.
* `round_spec`, `round_of_small`: so is any other one, which loses nothing if it is small.
-/

namespace QuadSphere.Binary64

open Float.Model Float.Model.UnpackedFloat

/-! ## Nearest numbers -/

/-- The number has at most 53 bits. -/
def Representable (w : ℚ) : Prop :=
  ∃ m e : ℤ, |m| ≤ 2 ^ 53 ∧ w = m * 2 ^ e

/-- No number of 53 bits is closer to `v` than `r`. -/
structure RoundsTo (v r : ℚ) : Prop where
  representable : Representable r
  nearest : ∀ w, Representable w → |r - v| ≤ |w - v|

variable {v r w w' : ℚ}

theorem Representable.neg (h : Representable w) : Representable (-w) := by
  obtain ⟨m, e, hm, rfl⟩ := h
  exact ⟨-m, e, by rwa [abs_neg], by push_cast; ring⟩

namespace RoundsTo

theorem eq_of_representable (h : RoundsTo v r) (hv : Representable v) : r = v := by
  have hnear := h.nearest v hv
  rw [sub_self, abs_zero] at hnear
  exact sub_eq_zero.mp (abs_eq_zero.mp (le_antisymm hnear (abs_nonneg _)))

theorem neg (h : RoundsTo v r) : RoundsTo (-v) (-r) := by
  refine ⟨h.representable.neg, fun w hw => ?_⟩
  have hnear := h.nearest (-w) hw.neg
  rw [show -r - -v = -(r - v) by ring, abs_neg]
  rwa [show -w - v = -(w - -v) by ring, abs_neg] at hnear

theorem le (h : RoundsTo v r) (hw : Representable w) (hvw : v ≤ w) : r ≤ w := by
  by_contra hlt
  have hnear := h.nearest w hw
  rw [abs_of_nonneg (by linarith), abs_of_nonneg (by linarith)] at hnear
  linarith

theorem ge (h : RoundsTo v r) (hw : Representable w) (hvw : w ≤ v) : w ≤ r := by
  have := h.neg.le hw.neg (neg_le_neg hvw)
  linarith

theorem lt (h : RoundsTo v r) (hw : Representable w) (hw' : Representable w') (hvw : v < w)
    (hlt : w' < w) (hclose : v - w' < w - v) : r < w := by
  refine lt_of_le_of_ne (h.le hw hvw.le) ?_
  rintro rfl
  have hnear := h.nearest w' hw'
  rw [abs_of_pos (by linarith)] at hnear
  rcases abs_cases (w' - v) with ⟨habs, _⟩ | ⟨habs, _⟩ <;> linarith

end RoundsTo

/-- An integer nearest to a number of 53 bits before the point is a nearest number. -/
theorem roundsTo_of_integer {x : ℚ} {n : ℤ} (hx : 2 ^ 52 ≤ x) (hn : |(n : ℚ) - x| ≤ 1 / 2)
    (hle : n ≤ 2 ^ 53) (e : ℤ) : RoundsTo (x * 2 ^ e) (n * 2 ^ e) := by
  have hpos : (0 : ℚ) < 2 ^ e := by positivity
  obtain ⟨hlow, hhigh⟩ := abs_le.mp hn
  have hmin : (2 : ℤ) ^ 52 ≤ n := by
    by_contra hlt
    have : (n : ℚ) + 1 ≤ 2 ^ 52 := by exact_mod_cast Int.not_le.mp hlt
    linarith
  refine ⟨⟨n, e, by rwa [abs_of_nonneg (by omega)], rfl⟩, ?_⟩
  rintro w ⟨m, f, hm, rfl⟩
  rw [← sub_mul, abs_mul, abs_of_pos hpos]
  -- it is enough to compare with integers, and with numbers up to `2 ^ 52`
  suffices h : |(n : ℚ) - x| ≤ |m * 2 ^ (f - e) - x| by
    have hsplit : (m : ℚ) * 2 ^ f - x * 2 ^ e = (m * 2 ^ (f - e) - x) * 2 ^ e := by
      rw [sub_mul, mul_assoc, ← zpow_add₀ two_ne_zero, sub_add_cancel]
    rw [hsplit, abs_mul, abs_of_pos hpos]
    exact mul_le_mul_of_nonneg_right h hpos.le
  rcases le_or_gt e f with hef | hef
  · obtain ⟨k, hk⟩ : ∃ k : ℕ, f - e = k := ⟨(f - e).toNat, by omega⟩
    have hint : (m : ℚ) * 2 ^ (f - e) = ((m * 2 ^ k : ℤ) : ℚ) := by
      rw [hk]
      push_cast
      rfl
    rw [hint]
    generalize m * 2 ^ k = i
    rcases lt_trichotomy n i with h | rfl | h
    · have : (n : ℚ) + 1 ≤ i := by exact_mod_cast h
      exact hn.trans ((by linarith : (1 / 2 : ℚ) ≤ i - x).trans (le_abs_self _))
    · exact le_refl _
    · have : (i : ℚ) + 1 ≤ n := by exact_mod_cast h
      exact hn.trans ((by linarith : (1 / 2 : ℚ) ≤ -(i - x)).trans (neg_le_abs _))
  · have hhalf : (2 : ℚ) ^ (f - e) ≤ 2 ^ (-1 : ℤ) := zpow_le_zpow_right₀ one_le_two (by omega)
    have hsmall : (m : ℚ) * 2 ^ (f - e) ≤ 2 ^ 52 := by
      have hm' : (m : ℚ) ≤ 2 ^ 53 := by exact_mod_cast (le_abs_self m).trans hm
      calc (m : ℚ) * 2 ^ (f - e) ≤ 2 ^ 53 * 2 ^ (f - e) :=
            mul_le_mul_of_nonneg_right hm' (by positivity)
        _ ≤ 2 ^ 53 * 2 ^ (-1 : ℤ) := mul_le_mul_of_nonneg_left hhalf (by positivity)
        _ = 2 ^ 52 := by norm_num
    have hnx : |(n : ℚ) - x| ≤ x - 2 ^ 52 := by
      have hmin' : (2 : ℚ) ^ 52 ≤ n := by exact_mod_cast hmin
      rcases eq_or_lt_of_le hmin with rfl | hgt
      · rw [abs_of_nonpos (by push_cast; linarith)]
        push_cast
        linarith
      · have : (2 : ℚ) ^ 52 + 1 ≤ n := by exact_mod_cast hgt
        exact hn.trans (by linarith)
    exact hnx.trans ((by linarith : x - 2 ^ 52 ≤ -(m * 2 ^ (f - e) - x)).trans (neg_le_abs _))

/-! ## Mantissas with a round bit and a sticky bit -/

/-- The mantissa and its two bits stand for the number: the round bit is worth one half, and the
sticky bit says whether anything is left below that. -/
def Stands (em : ExtendedMantissa) (x : ℚ) : Prop :=
  ∃ rest : ℚ, 0 ≤ rest ∧ rest < 1 / 2 ∧ (em.stickyBit = false ↔ rest = 0) ∧
    x = em.mantissa + (if em.roundBit then 1 / 2 else 0) + rest

theorem stands_exact (m : ℕ) : Stands (.ofMantissaAndAccuracy m .exact) m :=
  ⟨0, le_refl _, by norm_num, by simp [ExtendedMantissa.ofMantissaAndAccuracy],
    by simp [ExtendedMantissa.ofMantissaAndAccuracy]⟩

theorem stands_fraction (m num den : ℕ) (h : num < den) :
    Stands (.ofMantissaAndAccuracy m (accuracyOfFraction num den)) (m + num / den) := by
  have hden : (0 : ℚ) < den := by exact_mod_cast Nat.zero_lt_of_lt h
  have hlt : (num : ℚ) < den := by exact_mod_cast h
  rw [accuracyOfFraction]
  split
  · next h0 =>
    rw [h0, Nat.cast_zero, zero_div, add_zero]
    exact stands_exact m
  · next h0 =>
    have hnum : (0 : ℚ) < num := by exact_mod_cast Nat.pos_of_ne_zero h0
    have hquot : (0 : ℚ) < num / den := div_pos hnum hden
    rcases Nat.lt_trichotomy (2 * num) den with hc | hc | hc
    · have hhalf : (num : ℚ) / den < 1 / 2 := by
        rw [div_lt_div_iff₀ hden two_pos]
        exact_mod_cast (by omega : num * 2 < 1 * den)
      rw [Nat.compare_eq_lt.mpr hc]
      exact ⟨num / den, hquot.le, hhalf,
        iff_of_false (by simp [ExtendedMantissa.ofMantissaAndAccuracy]) hquot.ne',
        by simp [ExtendedMantissa.ofMantissaAndAccuracy]⟩
    · have hhalf : (num : ℚ) / den = 1 / 2 := by
        rw [div_eq_div_iff hden.ne' two_ne_zero]
        exact_mod_cast (by omega : num * 2 = 1 * den)
      rw [Nat.compare_eq_eq.mpr hc, hhalf]
      exact ⟨0, le_refl _, by norm_num, by simp [ExtendedMantissa.ofMantissaAndAccuracy],
        by simp [ExtendedMantissa.ofMantissaAndAccuracy]⟩
    · have hhalf : 1 / 2 < (num : ℚ) / den := by
        rw [div_lt_div_iff₀ two_pos hden]
        exact_mod_cast (by omega : 1 * den < num * 2)
      have hone : (num : ℚ) / den < 1 := (div_lt_one hden).mpr hlt
      rw [Nat.compare_eq_gt.mpr hc]
      exact ⟨num / den - 1 / 2, by linarith, by linarith,
        iff_of_false (by simp [ExtendedMantissa.ofMantissaAndAccuracy]) (by linarith),
        by simp [ExtendedMantissa.ofMantissaAndAccuracy]⟩

theorem Stands.shiftRightOne {em : ExtendedMantissa} {x : ℚ} (h : Stands em x) :
    Stands em.shiftRightOne (x / 2) := by
  obtain ⟨rest, h0, h1, hsticky, rfl⟩ := h
  have hdiv : (em.mantissa : ℚ) = 2 * (em.mantissa / 2 : ℕ) + (em.mantissa % 2 : ℕ) := by
    exact_mod_cast (Nat.div_add_mod em.mantissa 2).symm
  refine ⟨(if em.roundBit then 1 / 4 else 0) + rest / 2, ?_, ?_, ?_, ?_⟩
  · split <;> linarith
  · split <;> linarith
  · rw [ExtendedMantissa.shiftRightOne, Bool.or_eq_false_iff, hsticky]
    cases em.roundBit
    · simp
    · refine iff_of_false (by simp) ?_
      rw [if_pos rfl]
      linarith
  · rw [ExtendedMantissa.shiftRightOne, hdiv]
    dsimp only
    rcases Nat.mod_two_eq_zero_or_one em.mantissa with hm | hm <;> rw [hm] <;>
      cases em.roundBit <;> norm_num <;> ring

theorem Stands.shiftRight {em : ExtendedMantissa} {x : ℚ} (h : Stands em x) (n : ℕ) :
    Stands (em >>> n) (x / 2 ^ n) := by
  change Stands (n.repeat ExtendedMantissa.shiftRightOne em) _
  induction n with
  | zero => rwa [pow_zero, div_one]
  | succ n ih =>
    rw [pow_succ, ← div_div]
    exact ih.shiftRightOne

theorem Stands.bounds {em : ExtendedMantissa} {x : ℚ} (h : Stands em x) :
    em.mantissa ≤ x ∧ x < em.mantissa + 1 := by
  obtain ⟨rest, h0, h1, _, rfl⟩ := h
  constructor <;> split <;> linarith

theorem Stands.roundedMantissa {em : ExtendedMantissa} {x : ℚ} (h : Stands em x) :
    |(em.roundedMantissa : ℚ) - x| ≤ 1 / 2 := by
  obtain ⟨m, r, s⟩ := em
  obtain ⟨rest, h0, h1, hsticky, rfl⟩ := h
  rw [abs_le]
  cases r with
  | false =>
    cases s with
    | false =>
      have hrest : rest = 0 := hsticky.mp rfl
      simp [ExtendedMantissa.roundedMantissa, ExtendedMantissa.accuracy,
        Accuracy.roundToNearestEven, hrest]
    | true =>
      simp only [ExtendedMantissa.roundedMantissa, ExtendedMantissa.accuracy,
        Accuracy.roundToNearestEven, Bool.false_eq_true, if_false]
      constructor <;> linarith
  | true =>
    cases s with
    | false =>
      have hrest : rest = 0 := hsticky.mp rfl
      simp only [ExtendedMantissa.roundedMantissa, ExtendedMantissa.accuracy,
        Accuracy.roundToNearestEven, if_true, hrest, Nat.cast_add]
      rcases Nat.mod_two_eq_zero_or_one m with hm | hm <;> rw [hm] <;> norm_num
    | true =>
      simp only [ExtendedMantissa.roundedMantissa, ExtendedMantissa.accuracy,
        Accuracy.roundToNearestEven, if_true, Nat.cast_add, Nat.cast_one]
      constructor <;> linarith

/-! ## Rounded mantissas -/

/-- The exponent at which a mantissa keeps 53 bits. -/
theorem targetExponent_eq {m : ℕ} {e : ℤ} (hm : 52 ≤ m.log2) (he : -1074 ≤ e) :
    Format.binary64.targetExponent (totalExponent m e) = e + (m.log2 - 52 : ℕ) := by
  rw [Format.targetExponent, totalExponent, show Format.binary64.minExponent = -1074 by decide,
    show (Format.binary64.mantissaBits : ℤ) = 53 by rfl]
  omega

theorem shiftToTargetExponent_eq {m : ℕ} {e : ℤ} (acc : Accuracy) (hm : 52 ≤ m.log2)
    (he : -1074 ≤ e) :
    shiftToTargetExponent Format.binary64 m e acc =
      (ExtendedMantissa.ofMantissaAndAccuracy m acc >>> (m.log2 - 52),
        e + (m.log2 - 52 : ℕ)) := by
  rw [shiftToTargetExponent, targetExponent_eq hm he, shiftToExponent,
    show (e + (m.log2 - 52 : ℕ) - e).toNat = m.log2 - 52 by omega]

theorem Stands.roundedMantissa_bounds {em : ExtendedMantissa} {x : ℚ} (h : Stands em x)
    (hlow : 2 ^ 52 ≤ x) (hhigh : x < 2 ^ 53) :
    2 ^ 52 ≤ em.roundedMantissa ∧ em.roundedMantissa ≤ 2 ^ 53 := by
  obtain ⟨h1, h2⟩ := abs_le.mp h.roundedMantissa
  constructor
  · by_contra hcon
    have : (em.roundedMantissa : ℚ) + 1 ≤ 2 ^ 52 := by exact_mod_cast Nat.not_le.mp hcon
    linarith
  · by_contra hcon
    have : (2 : ℚ) ^ 53 + 1 ≤ em.roundedMantissa := by exact_mod_cast Nat.not_le.mp hcon
    linarith

theorem div_two_pow_bounds {m j : ℕ} {x : ℚ} (hm : m ≠ 0) (hj : m.log2 = j + 52)
    (hx : m ≤ x ∧ x < m + 1) : 2 ^ 52 ≤ x / 2 ^ j ∧ x / 2 ^ j < 2 ^ 53 := by
  have hself := Nat.log2_self_le hm
  have hlt := Nat.lt_log2_self (n := m)
  rw [hj] at hself hlt
  have hpos : (0 : ℚ) < 2 ^ j := by positivity
  constructor
  · rw [le_div_iff₀ hpos, ← pow_add, Nat.add_comm]
    have : ((2 ^ (j + 52) : ℕ) : ℚ) ≤ m := by exact_mod_cast hself
    push_cast at this
    linarith
  · rw [div_lt_iff₀ hpos, ← pow_add, show 53 + j = j + 52 + 1 by omega]
    have : (m : ℚ) + 1 ≤ (2 ^ (j + 52 + 1) : ℕ) := by exact_mod_cast hlt
    push_cast at this
    linarith

/-- A rounded mantissa stays as it is, up to the one more bit that it may have. -/
theorem shiftToTargetExponent_rounded {m : ℕ} {e : ℤ} (hlow : 2 ^ 52 ≤ m) (hhigh : m ≤ 2 ^ 53)
    (he : -1074 ≤ e) :
    ∃ m' e', (shiftToTargetExponent Format.binary64 m e .exact).1.mantissa = m' ∧
      (shiftToTargetExponent Format.binary64 m e .exact).2 = e' ∧ 2 ^ 52 ≤ m' ∧ m' < 2 ^ 53 ∧
      e ≤ e' ∧ e' ≤ e + 1 ∧ (m : ℚ) * 2 ^ e = m' * 2 ^ e' := by
  have hlog : 52 ≤ m.log2 := (Nat.le_log2 (by omega)).mpr hlow
  rw [shiftToTargetExponent_eq .exact hlog he]
  rcases Nat.lt_or_eq_of_le hhigh with hlt | rfl
  · have h52 : m.log2 - 52 = 0 := by
      have := (Nat.log2_lt (by omega)).mpr hlt
      omega
    rw [h52]
    exact ⟨m, e, rfl, by dsimp only; omega, hlow, hlt, le_refl _, by omega, rfl⟩
  · rw [Nat.log2_two_pow]
    refine ⟨2 ^ 52, e + 1, rfl, rfl, le_refl _, by norm_num, by omega, le_refl _, ?_⟩
    rw [zpow_add_one₀ two_ne_zero]
    push_cast
    ring

theorem mantissa_ofMantissaAndAccuracy (m : ℕ) (acc : Accuracy) :
    (ExtendedMantissa.ofMantissaAndAccuracy m acc).mantissa = m := by
  rcases acc with _ | (_ | _ | _) <;> rfl

/-- **A mantissa of at least 53 bits is rounded to a nearest one of 53 bits.** -/
theorem roundWithAccuracy_spec (s : Sign) {m : ℕ} {e : ℤ} {acc : Accuracy} {x : ℚ}
    (hx : Stands (.ofMantissaAndAccuracy m acc) x) (hm : 2 ^ 52 ≤ m) (he : -1074 ≤ e) :
    ∃ m' e' h', roundWithAccuracy Format.binary64 s m e acc = .finite s m' e' h' ∧
      2 ^ 52 ≤ m' ∧ m' < 2 ^ 53 ∧ e ≤ e' ∧ RoundsTo (x * 2 ^ e) (m' * 2 ^ e') := by
  have hlog : 52 ≤ m.log2 := (Nat.le_log2 (by omega)).mpr hm
  obtain ⟨j, hj⟩ : ∃ j, m.log2 = j + 52 := ⟨m.log2 - 52, by omega⟩
  have hmx := hx.bounds
  rw [mantissa_ofMantissaAndAccuracy] at hmx
  obtain ⟨hlow, hhigh⟩ := div_two_pow_bounds (by omega) hj hmx
  have hstands := hx.shiftRight j
  obtain ⟨hRlow, hRhigh⟩ := hstands.roundedMantissa_bounds hlow hhigh
  have hfirst := shiftToTargetExponent_eq acc hlog he
  rw [hj, Nat.add_sub_cancel] at hfirst
  obtain ⟨m', e', hm', he', hlow', hhigh', hle, hle', hval⟩ :=
    shiftToTargetExponent_rounded hRlow hRhigh (show -1074 ≤ e + (j : ℤ) by omega)
  have hnear := roundsTo_of_integer hlow hstands.roundedMantissa (by exact_mod_cast hRhigh) (e + j)
  have hscale : x / 2 ^ j * 2 ^ (e + j) = x * 2 ^ e := by
    rw [zpow_add₀ two_ne_zero, zpow_natCast, div_mul_eq_mul_div, div_eq_iff (by positivity)]
    ring
  rw [hscale, Int.cast_natCast, hval] at hnear
  refine ⟨m', e', by omega, ?_, hlow', hhigh', by omega, hnear⟩
  rw [roundWithAccuracy, hfirst]
  dsimp only
  rw [dif_neg (by rw [hm']; omega)]
  simp only [hm', he']

/-- **Any other mantissa is first made longer**, up to 53 bits if the exponent allows it. -/
theorem round_spec (s : Sign) {m : ℕ} {e : ℤ} (hm : 0 < m) (he : -1074 ≤ e)
    (hlarge : -1022 ≤ e + m.log2) :
    ∃ m' e' h', UnpackedFloat.round Format.binary64 s m e = .finite s m' e' h' ∧
      2 ^ 52 ≤ m' ∧ m' < 2 ^ 53 ∧ -1074 ≤ e' ∧ RoundsTo (m * 2 ^ e) (m' * 2 ^ e') := by
  have htarget : (e - Format.binary64.targetExponent (totalExponent m e)).toNat = 52 - m.log2 := by
    rw [Format.targetExponent, totalExponent, show Format.binary64.minExponent = -1074 by decide,
      show (Format.binary64.mantissaBits : ℤ) = 53 by rfl]
    omega
  have hlong : 2 ^ 52 ≤ m <<< (52 - m.log2) := by
    have hself := Nat.log2_self_le hm.ne'
    rw [Nat.shiftLeft_eq]
    calc 2 ^ 52 ≤ 2 ^ (m.log2 + (52 - m.log2)) := Nat.pow_le_pow_right (by omega) (by omega)
      _ = 2 ^ m.log2 * 2 ^ (52 - m.log2) := Nat.pow_add ..
      _ ≤ m * 2 ^ (52 - m.log2) := Nat.mul_le_mul_right _ hself
  have hexp : -1074 ≤ e - ((52 - m.log2 : ℕ) : ℤ) := by omega
  obtain ⟨m', e', h', hround, hlow, hhigh, hle, hnear⟩ :=
    roundWithAccuracy_spec s (stands_exact _) hlong hexp
  refine ⟨m', e', h', ?_, hlow, hhigh, hexp.trans hle, ?_⟩
  · rw [UnpackedFloat.round, decreaseExponent, htarget]
    exact hround
  · rwa [Nat.shiftLeft_eq, Nat.cast_mul, Nat.cast_pow, Nat.cast_ofNat, zpow_sub₀ two_ne_zero,
      zpow_natCast, mul_assoc, mul_div_cancel₀ _ (by positivity)] at hnear

theorem shiftToTargetExponent_small {m : ℕ} (acc : Accuracy) (hm : m < 2 ^ 53) :
    shiftToTargetExponent Format.binary64 m (-1074) acc =
      (.ofMantissaAndAccuracy m acc, -1074) := by
  have hlog : m.log2 < 53 := by
    rcases Nat.eq_zero_or_pos m with rfl | h
    · decide
    · exact (Nat.log2_lt h.ne').mpr hm
  have htarget : Format.binary64.targetExponent (totalExponent m (-1074)) = -1074 := by
    rw [Format.targetExponent, totalExponent, show Format.binary64.minExponent = -1074 by decide,
      show (Format.binary64.mantissaBits : ℤ) = 53 by rfl]
    omega
  rw [shiftToTargetExponent, htarget, shiftToExponent]
  rfl

/-- Where the exponent does not allow it, the smallest one is taken and nothing is lost. -/
theorem round_of_small (s : Sign) {m : ℕ} {e : ℤ} (hm : 0 < m) (he : -1074 ≤ e)
    (hsmall : e + m.log2 < -1022) :
    ∃ m' h', UnpackedFloat.round Format.binary64 s m e = .finite s m' (-1074) h' ∧
      m' < 2 ^ 52 ∧ (m : ℚ) * 2 ^ e = m' * 2 ^ (-1074 : ℤ) := by
  have htarget : Format.binary64.targetExponent (totalExponent m e) = -1074 := by
    rw [Format.targetExponent, totalExponent, show Format.binary64.minExponent = -1074 by decide,
      show (Format.binary64.mantissaBits : ℤ) = 53 by rfl]
    omega
  obtain ⟨k, hk⟩ : ∃ k : ℕ, e + 1074 = k := ⟨(e + 1074).toNat, by omega⟩
  have hlt : m * 2 ^ k < 2 ^ 52 := by
    calc m * 2 ^ k < 2 ^ (m.log2 + 1) * 2 ^ k :=
          Nat.mul_lt_mul_of_pos_right Nat.lt_log2_self (by positivity)
      _ = 2 ^ (m.log2 + 1 + k) := (Nat.pow_add ..).symm
      _ ≤ 2 ^ 52 := Nat.pow_le_pow_right (by omega) (by omega)
  have hpos : 0 < m * 2 ^ k := by positivity
  have hshift := fun acc => shiftToTargetExponent_small acc (show m * 2 ^ k < 2 ^ 53 by omega)
  refine ⟨m * 2 ^ k, hpos, ?_, hlt, ?_⟩
  · have hdecrease : decreaseExponent m e (-1074) = (m * 2 ^ k, -1074) := by
      rw [decreaseExponent, show (e - -1074).toNat = k by omega, Nat.shiftLeft_eq,
        show e - (k : ℤ) = -1074 by omega]
    have hrounded : (ExtendedMantissa.ofMantissaAndAccuracy (m * 2 ^ k) .exact).roundedMantissa =
        m * 2 ^ k := rfl
    rw [UnpackedFloat.round, htarget, hdecrease]
    dsimp only
    rw [roundWithAccuracy, hshift]
    dsimp only
    rw [hrounded, hshift, dif_neg (by rw [mantissa_ofMantissaAndAccuracy]; exact hpos.ne')]
    rfl
  · rw [Nat.cast_mul, Nat.cast_pow, Nat.cast_ofNat, mul_assoc, ← zpow_natCast,
      ← zpow_add₀ two_ne_zero, show (k : ℤ) + -1074 = e by omega]

/-- A quotient that is cut off at the smallest exponent stays small. -/
theorem roundWithAccuracy_of_small (s : Sign) {m : ℕ} (acc : Accuracy) (hm : m < 2 ^ 52) :
    roundWithAccuracy Format.binary64 s m (-1074) acc = .zero s ∨
      ∃ m' h', roundWithAccuracy Format.binary64 s m (-1074) acc = .finite s m' (-1074) h' ∧
        m' ≤ 2 ^ 52 := by
  have hrounded : (ExtendedMantissa.ofMantissaAndAccuracy m acc).roundedMantissa ≤ m + 1 := by
    rcases acc with _ | (_ | _ | _) <;>
      simp only [ExtendedMantissa.ofMantissaAndAccuracy, ExtendedMantissa.roundedMantissa,
        ExtendedMantissa.accuracy, Accuracy.roundToNearestEven] <;> omega
  rw [roundWithAccuracy, shiftToTargetExponent_small acc (by omega)]
  dsimp only
  rw [shiftToTargetExponent_small .exact (by omega)]
  dsimp only
  rw [mantissa_ofMantissaAndAccuracy]
  split
  · exact Or.inl rfl
  · next h => exact Or.inr ⟨_, Nat.pos_of_ne_zero h, rfl, by omega⟩

end QuadSphere.Binary64
