import QuadSphere.Proofs.Binary64.Subtraction
import QuadSphere.Proofs.Binary64.Logarithm

/-!
# Quotients of any size

`Holds.div` is about numbers far from both ends of the range.  Here the divisor is any positive
float, the smallest ones with fewer than 53 bits among them, so the quotient may leave the range: it
is cut off at the smallest exponent, or it is infinite.

* `Holds.rounded_div`: what the quotient is.
* `Rounded.le_floorLog2`, `Rounded.le_floorLog2_iff_roundsUp`, `Rounded.le_of_le_floorLog2`: which
  powers of two its logarithm reaches.
-/

namespace QuadSphere.Binary64

open Float.Model Float.Model.UnpackedFloat

variable {x y : Float} {a b v : ℚ} {m m₁ m₂ : ℕ} {e e₁ e₂ : ℤ} {s : Sign}

/-! ## Rounding at both ends of the range -/

/-- The float is what a positive number is rounded to: a nearest number, infinity if the number is
large, or a number that is cut off at the smallest exponent. -/
inductive Rounded (v : ℚ) (x : Float) : Prop
  | near (h : Nears x v) (pos : 0 < number x)
  | large (h : 2 ^ (1000 : ℤ) ≤ v) (infinite : x.toModel.unpack = .infinity .positive)
  | small (h : v ≤ 2 ^ (-1022 : ℤ)) (finite : x.toModel.unpack.isFinite = true)
      (nonneg : 0 ≤ number x) (le : number x ≤ 2 ^ (-1022 : ℤ))

theorem unpack_pack_large (h : 0 < m) (he : 971 < e) :
    (Float.Model.pack (.finite s m e h)).unpack = .infinity s := by
  have hpack : UnpackedFloat.pack Format.binary64 (.finite s m e h) =
      packedInfinity Format.binary64 s := by
    rw [UnpackedFloat.pack]
    simp only [show (Format.binary64.exponentBias : ℤ) = 1023 from rfl]
    rw [if_pos (by omega)]
  have hunpack : UnpackedFloat.unpack Format.binary64 (packedInfinity Format.binary64 s) =
      .infinity s := by
    cases s <;> rfl
  rw [Float.Model.unpack, Float.Model.pack]
  exact (congrArg _ hpack).trans hunpack

theorem representable_steps (n : ℤ) (k : ℕ) (hk : k ≤ 2 ^ 53) :
    Representable (2 ^ n * (1 - k / 2 ^ 53)) := by
  refine ⟨2 ^ 53 - k, n - 53, ?_, ?_⟩
  · rw [abs_le]
    omega
  · rw [zpow_sub₀ two_ne_zero]
    push_cast
    norm_num
    ring

theorem rounded_roundWithAccuracy {acc : Accuracy} {q : ℚ}
    (hq : Stands (.ofMantissaAndAccuracy m acc) q) (he : -1074 ≤ e)
    (hlong : 2 ^ 52 ≤ m ∨ e = -1074) :
    Rounded (q * 2 ^ e)
      (.ofModel (.pack (roundWithAccuracy Format.binary64 .positive m e acc))) := by
  by_cases hm : 2 ^ 52 ≤ m
  · obtain ⟨m', e', h', hround, hlow, hhigh, hle, hnear⟩ :=
      roundWithAccuracy_spec .positive hq hm he
    have hnumber : numberOf (.finite .positive m' e' h') = m' * 2 ^ e' := by
      rw [numberOf, value, factor, one_mul]
    rw [hround]
    by_cases he' : e' ≤ 971
    · have hnears : Nears (.ofModel (.pack (.finite .positive m' e' h'))) (q * 2 ^ e) :=
        nears_of_unpacked ⟨hhigh, by omega, he', Or.inl hlow⟩ rfl (hnumber ▸ hnear)
      refine .near hnears ?_
      rw [number, unpack_pack h' hlow hhigh ⟨by omega, he'⟩, hnumber]
      positivity
    · refine .large ?_ (unpack_pack_large h' (not_le.mp he'))
      by_contra hsmall
      have hup := hnear.le (representable_zpow 1000) (not_le.mp hsmall).le
      have hlow' : (2 : ℚ) ^ (52 : ℤ) ≤ m' := by exact_mod_cast hlow
      have hpow : (2 : ℚ) ^ (1001 : ℤ) ≤ m' * 2 ^ e' :=
        calc (2 : ℚ) ^ (1001 : ℤ) ≤ 2 ^ (52 + e') := zpow_le_zpow_right₀ one_le_two (by omega)
          _ = 2 ^ (52 : ℤ) * 2 ^ e' := zpow_add₀ two_ne_zero _ _
          _ ≤ m' * 2 ^ e' := mul_le_mul_of_nonneg_right hlow' (by positivity)
      exact absurd (hpow.trans hup) (not_le.mpr (zpow_lt_zpow_right₀ one_lt_two (by omega)))
  · obtain rfl := hlong.resolve_left hm
    have hcut : ((2 : ℚ) ^ 52) * 2 ^ (-1074 : ℤ) = 2 ^ (-1022 : ℤ) := by
      rw [← zpow_natCast, ← zpow_add₀ two_ne_zero]
      rfl
    have hv : q * 2 ^ (-1074 : ℤ) ≤ 2 ^ (-1022 : ℤ) := by
      have hq' := hq.bounds.2
      rw [mantissa_ofMantissaAndAccuracy] at hq'
      have hm' : (m : ℚ) + 1 ≤ 2 ^ 52 := by exact_mod_cast not_le.mp hm
      rw [← hcut]
      exact mul_le_mul_of_nonneg_right (hq'.le.trans hm') (by positivity)
    rcases roundWithAccuracy_of_small .positive acc (not_le.mp hm) with
      hround | ⟨m', h', hround, hle⟩
    · rw [hround]
      exact .small hv rfl (le_refl _) (by positivity)
    · have hunpack : (Float.Model.pack (.finite .positive m' (-1074) h')).unpack =
          .finite .positive m' (-1074) h' :=
        unpack_pack_finite ⟨by omega, le_refl _, by norm_num, Or.inr rfl⟩ rfl
      have hnumber : number (.ofModel (.pack (.finite .positive m' (-1074) h'))) =
          m' * 2 ^ (-1074 : ℤ) := by
        rw [number, hunpack, numberOf, value, factor, one_mul]
      have hle' : (m' : ℚ) ≤ 2 ^ 52 := by exact_mod_cast hle
      rw [hround]
      refine .small hv (by rw [hunpack]; rfl) ?_ ?_ <;> rw [hnumber]
      · positivity
      · rw [← hcut]
        exact mul_le_mul_of_nonneg_right hle' (by positivity)

/-! ## Logarithms -/

theorem upwardSteps_le {n : ℤ} (hn : 0 ≤ n) (hn' : n ≤ 60) : upwardSteps n ≤ 22 := by
  interval_cases n <;> decide

theorem small_lt_one : (2 : ℚ) ^ (-1022 : ℤ) < 1 :=
  zpow_lt_one_of_neg₀ one_lt_two (by omega)

theorem steps_lt (n : ℤ) {k : ℕ} (hk : 0 < k) : (2 : ℚ) ^ n * (1 - k / 2 ^ 53) < 2 ^ n :=
  mul_lt_of_lt_one_right (by positivity) (sub_lt_self _ (by positivity))

namespace Rounded

variable {n : ℤ} (hx : Rounded v x) (hn : 0 ≤ n) (hn' : n ≤ 60)
include hx hn hn'

theorem le_floorLog2 (hv : 2 ^ n ≤ v) : n ≤ floorLog2 x := by
  cases hx with
  | near h pos =>
    exact (le_floorLog2_iff h.finite pos n).mpr (Or.inl (h.nearest.ge (representable_zpow n) hv))
  | large h infinite =>
    rw [floorLog2_infinite infinite]
    omega
  | small h finite nonneg le =>
    exact absurd (hv.trans h) (not_le.mpr (zpow_lt_zpow_right₀ one_lt_two (by omega)))

omit hn' in
theorem not_roundsUp (hv : 2 ^ n ≤ v) : ¬RoundsUp x n := by
  intro hround
  cases hx with
  | near h pos => exact absurd (h.nearest.ge (representable_zpow n) hv) (not_le.mpr hround.below)
  | large h infinite =>
    have hpos := hround.pos
    rw [number, infinite] at hpos
    exact lt_irrefl _ hpos
  | small h finite nonneg le =>
    exact absurd (hv.trans h) (not_le.mpr (zpow_lt_zpow_right₀ one_lt_two (by omega)))

/-- At least one step below `2 ^ n`, the logarithm reaches `n` only if it is rounded up. -/
theorem le_floorLog2_iff_roundsUp (hv : v ≤ 2 ^ n * (1 - 1 / 2 ^ 53)) :
    n ≤ floorLog2 x ↔ RoundsUp x n := by
  have hlt := steps_lt n one_pos
  rw [Nat.cast_one] at hlt
  cases hx with
  | near h pos =>
    have hle := h.nearest.le (representable_steps n 1 (by norm_num)) (by rwa [Nat.cast_one])
    rw [Nat.cast_one] at hle
    rw [le_floorLog2_iff h.finite pos, or_iff_right (not_le.mpr (hle.trans_lt hlt))]
  | large h infinite =>
    have hpow : (2 : ℚ) ^ n ≤ 2 ^ (1000 : ℤ) := zpow_le_zpow_right₀ one_le_two (by omega)
    exact absurd (h.trans hv) (not_le.mpr (hlt.trans_le hpow))
  | small h finite nonneg le =>
    have hneg := floorLog2_neg finite nonneg (le.trans_lt small_lt_one)
    refine iff_of_false (by omega) fun hround => ?_
    have := (le_floorLog2_iff finite hround.pos n).mpr (Or.inr hround)
    omega

/-- It is never reached from further than 23 steps below. -/
theorem le_of_le_floorLog2 (hreach : n ≤ floorLog2 x) : 2 ^ n * (1 - 23 / 2 ^ 53) ≤ v := by
  have hlt := steps_lt n (show 0 < 23 by norm_num)
  rw [Nat.cast_ofNat] at hlt
  cases hx with
  | near h pos =>
    by_contra hv
    have hle := h.nearest.le (representable_steps n 23 (by norm_num))
      (by rw [Nat.cast_ofNat]; exact (not_le.mp hv).le)
    rw [Nat.cast_ofNat] at hle
    rcases (le_floorLog2_iff h.finite pos n).mp hreach with hpow | hround
    · linarith
    · have hsteps : (upwardSteps n : ℚ) ≤ 22 := by exact_mod_cast upwardSteps_le hn hn'
      have hbound := le_of_mul_le_mul_left (hround.sub_steps_le.trans hle) (by positivity)
      linarith
  | large h infinite =>
    have hpow : (2 : ℚ) ^ n ≤ 2 ^ (1000 : ℤ) := zpow_le_zpow_right₀ one_le_two (by omega)
    exact (hlt.le.trans hpow).trans h
  | small h finite nonneg le =>
    have hneg := floorLog2_neg finite nonneg (le.trans_lt small_lt_one)
    omega

end Rounded

/-! ## Division -/

/-- **The quotient by a positive float is what the exact quotient is rounded to.** -/
theorem Holds.rounded_div (hy : Holds y a) (ha : 1 / 2 ≤ a) (hx : x.toModel.unpack.isFinite = true)
    (hpos : 0 < number x) : Rounded (a / number x) (y / x) := by
  obtain ⟨hmod, s, m₁, e₁, h₁, huy, hlow, hhigh, rfl⟩ := hy
  obtain ⟨m₂, e₂, h₂, hux, hnumber, hm₂, he₂, he₂', -⟩ := exists_mantissa hx hpos
  have hpos₁ : (0 : ℚ) < m₁ * 2 ^ e₁ := by positivity
  have hs : s = .positive := by
    cases s with
    | positive => rfl
    | negative =>
      rw [value, factor] at ha
      linarith
  subst hs
  -- the dividend is not small, so the exponent of the quotient stays in the range
  have he₁ : -54 < e₁ := by
    have hhigh' : (m₁ : ℚ) < 2 ^ (53 : ℤ) := by exact_mod_cast hhigh
    have hlt : (2 : ℚ) ^ (-1 : ℤ) < 2 ^ (53 + e₁) := by
      rw [zpow_add₀ two_ne_zero]
      refine lt_of_le_of_lt ?_ (mul_lt_mul_of_pos_right hhigh' (by positivity))
      rw [value, factor, one_mul] at ha
      exact le_trans (by norm_num) ha
    have := (zpow_lt_zpow_iff_right₀ one_lt_two).mp hlt
    omega
  obtain ⟨k, hcore, -, hexp, hlong⟩ :=
    divCore_spec hlow hhigh h₂ hm₂ (show -1074 ≤ e₁ - e₂ by omega)
  have hvalue : number x = value .positive m₂ e₂ := by
    rw [hnumber, value, factor, one_mul]
  have hdiv := @value_div .positive .positive m₁ m₂ h₂ e₁ e₂ k
  rw [show factor (.positive / .positive) = 1 from rfl, one_mul] at hdiv
  rw [hvalue, hdiv]
  change Rounded _ (.ofModel (.pack (UnpackedFloat.div _ y.toModel.unpack x.toModel.unpack)))
  rw [huy, hux, UnpackedFloat.div, hcore]
  exact rounded_roundWithAccuracy (stands_fraction _ _ _ (Nat.mod_lt _ h₂)) hexp hlong

end QuadSphere.Binary64
