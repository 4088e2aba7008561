import QuadSphere.Proofs.Binary64.Order

/-!
# Differences of floats

`Nears x v` says that the float `x` is finite, and as a number nearest to `v`.  The difference of
two finite floats is of this kind as long as it does not leave the range at its large end: at the
small end nothing is lost, since both are multiples of the smallest float.

* `nears_sub`: the difference is nearest to the difference of the numbers.
-/

namespace QuadSphere.Binary64

open Float.Model Float.Model.UnpackedFloat

/-- The float is finite, and a number nearest to the given one. -/
structure Nears (x : Float) (v : ℚ) : Prop where
  finite : x.toModel.unpack.isFinite = true
  nearest : RoundsTo v (number x)

variable {x y : Float} {u : UnpackedFloat} {m : ℕ} {e : ℤ} {s : Sign} {v : ℚ}

theorem Representable.roundsTo (h : Representable v) : RoundsTo v v := by
  refine ⟨h, fun w _ => ?_⟩
  rw [sub_self, abs_zero]
  exact abs_nonneg _

/-! ## Packing -/

theorem unpack_pack_small (h : 0 < m) (hm : m < 2 ^ 52) :
    (Float.Model.pack (.finite s m (-1074) h)).unpack = .finite s m (-1074) h := by
  have hlog := (Nat.log2_lt h.ne').mpr hm
  have hbits : (BitVec.ofNat 52 m).toNat = m := by
    rw [BitVec.toNat_ofNat, Nat.mod_eq_of_lt hm]
  have hne : BitVec.ofNat 52 m ≠ 0#52 := by
    intro h0
    rw [h0] at hbits
    exact h.ne hbits
  have hpack : UnpackedFloat.pack Format.binary64 (.finite s m (-1074) h) =
      packComponents Format.binary64 s 0#11 (BitVec.ofNat 52 m) := by
    rw [UnpackedFloat.pack]
    simp only [show (Format.binary64.mantissaBits) = 53 from rfl]
    rw [if_neg (by decide), if_neg (by omega)]
  have hunpack : UnpackedFloat.unpack Format.binary64
      (packComponents Format.binary64 s 0#11 (BitVec.ofNat 52 m)) = .finite s m (-1074) h := by
    rw [UnpackedFloat.unpack]
    simp only [unpackMantissa_packComponents, unpackExponent_packComponents,
      unpackSign_packComponents, Sign.ofBitVec_toBitVec]
    rw [if_neg (by decide), if_pos trivial, dif_neg hne]
    congr 1
  rw [Float.Model.unpack, Float.Model.pack]
  exact (congrArg _ hpack).trans hunpack

theorem unpack_pack_finite (hu : InFormat u) (hfin : u.isFinite = true) :
    (Float.Model.pack u).unpack = u := by
  cases u with
  | notANumber => cases hfin
  | infinity s => cases hfin
  | zero s => cases s <;> rfl
  | finite s m e h =>
    obtain ⟨hm, he, he', hn⟩ := hu
    by_cases hlow : 2 ^ 52 ≤ m
    · exact unpack_pack h hlow hm ⟨he, he'⟩
    · obtain rfl : e = -1074 := hn.resolve_left hlow
      exact unpack_pack_small h (not_le.mp hlow)

theorem nears_of_unpacked (hu : InFormat u) (hfin : u.isFinite = true)
    (h : RoundsTo v (numberOf u)) : Nears (.ofModel (.pack u)) v := by
  have hpack := unpack_pack_finite hu hfin
  exact ⟨(congrArg _ hpack).trans hfin, by rwa [number, hpack]⟩

theorem nears_numberOf (hu : InFormat u) (hfin : u.isFinite = true) :
    Nears (.ofModel (.pack u)) (numberOf u) := by
  obtain ⟨s, m, e, hnumber, _, hm, _⟩ := exists_signed hu hfin
  refine nears_of_unpacked hu hfin ?_
  rw [hnumber]
  exact (representable_value s hm e).roundsTo

/-! ## Sums of signed mantissas -/

theorem nears_round (s : Sign) (hm : 0 < m) (he : -1074 ≤ e)
    (hle : (m : ℚ) * 2 ^ e ≤ 2 ^ (100 : ℤ)) :
    Nears (.ofModel (.pack (UnpackedFloat.round Format.binary64 s m e))) (value s m e) := by
  by_cases hlarge : -1022 ≤ e + m.log2
  · obtain ⟨m', e', h', hround, hlow, hhigh, he', hnear⟩ := round_spec s hm he hlarge
    have hmax : (2 : ℚ) ^ (52 + e') ≤ 2 ^ (100 : ℤ) := by
      rw [zpow_add₀ two_ne_zero]
      have hlow' : (2 : ℚ) ^ (52 : ℤ) ≤ m' := by exact_mod_cast hlow
      exact (mul_le_mul_of_nonneg_right hlow' (by positivity)).trans
        (hnear.le (representable_zpow 100) hle)
    have := (zpow_le_zpow_iff_right₀ one_lt_two).mp hmax
    rw [hround]
    exact nears_of_unpacked ⟨hhigh, he', by omega, Or.inl hlow⟩ rfl (hnear.factor_mul s)
  · obtain ⟨m', h', hround, hlt, heq⟩ := round_of_small s hm he (not_le.mp hlarge)
    have hvalue : value s m e = value s m' (-1074) := by
      rw [value, value, heq]
    rw [hround, hvalue]
    exact nears_numberOf ⟨by omega, le_rfl, by omega, Or.inr rfl⟩ rfl

theorem nears_normalize {i : ℤ} (he : -1074 ≤ e) (hle : |(i : ℚ) * 2 ^ e| ≤ 2 ^ (100 : ℤ)) :
    Nears (.ofModel (.pack (UnpackedFloat.normalize Format.binary64 i e .positive)))
      (i * 2 ^ e) := by
  have hnat : ((i.natAbs : ℕ) : ℚ) = |(i : ℚ)| := by
    rw [Nat.cast_natAbs, Int.cast_abs]
  rw [abs_mul, ← hnat, abs_of_pos (show (0 : ℚ) < 2 ^ e by positivity)] at hle
  rcases lt_trichotomy i 0 with hneg | rfl | hpos
  · have hvalue : (i : ℚ) * 2 ^ e = value .negative i.natAbs e := by
      rw [value, factor, hnat, abs_of_neg (by exact_mod_cast hneg)]
      ring
    rw [UnpackedFloat.normalize, Int.compare_eq_lt.mpr hneg, hvalue,
      show i.natAbs = (-i).toNat by omega] at *
    exact nears_round .negative (by omega) he hle
  · rw [Int.cast_zero, zero_mul]
    exact nears_numberOf (u := .zero .positive) trivial rfl
  · have hvalue : (i : ℚ) * 2 ^ e = value .positive i.natAbs e := by
      rw [value, factor, hnat, abs_of_pos (by exact_mod_cast hpos)]
      ring
    rw [UnpackedFloat.normalize, Int.compare_eq_gt.mpr hpos, hvalue,
      show i.natAbs = i.toNat by omega] at *
    exact nears_round .positive (by omega) he hle

/-! ## Differences -/

/-- **The difference of two finite floats is a number nearest to the exact one.** -/
theorem nears_sub (hx : x.toModel.unpack.isFinite = true) (hy : y.toModel.unpack.isFinite = true)
    (hle : |number x - number y| ≤ 2 ^ (100 : ℤ)) : Nears (x - y) (number x - number y) := by
  change Nears (.ofModel (.pack (UnpackedFloat.sub _ x.toModel.unpack y.toModel.unpack))) _
  have hux := inFormat_unpack x
  have huy := inFormat_unpack y
  rw [number, number] at *
  generalize x.toModel.unpack = u at *
  generalize y.toModel.unpack = v at *
  cases u with
  | notANumber => cases hx
  | infinity s => cases hx
  | zero s =>
    cases v with
    | notANumber => cases hy
    | infinity t => cases hy
    | zero t =>
      rw [show numberOf (.zero s) - numberOf (.zero t) = 0 from sub_self _, UnpackedFloat.sub]
      split
      · exact nears_numberOf (u := .zero s) trivial rfl
      · exact nears_numberOf (u := .zero .positive) trivial rfl
    | finite t n f k =>
      have hneg : numberOf (.zero s) - numberOf (.finite t n f k) = value (-t) n f := by
        rw [show numberOf (.zero s) = 0 from rfl, numberOf, value, value, factor_neg, neg_mul,
          zero_sub]
      rw [hneg]
      exact nears_numberOf (u := .finite (-t) n f k) huy rfl
  | finite s m e h =>
    cases v with
    | notANumber => cases hy
    | infinity t => cases hy
    | zero t =>
      rw [show numberOf (.zero t) = 0 from rfl, sub_zero]
      exact nears_numberOf hux rfl
    | finite t n f k =>
      have hsum : (((s.apply (m <<< (e - min e f).toNat : ℕ) -
          t.apply (n <<< (f - min e f).toNat : ℕ) : ℤ)) : ℚ) * 2 ^ min e f =
          numberOf (.finite s m e h) - numberOf (.finite t n f k) := by
        rw [Int.cast_sub, sub_mul, apply_shiftLeft s m (min_le_left _ _),
          apply_shiftLeft t n (min_le_right _ _)]
        rfl
      rw [← hsum] at hle ⊢
      exact nears_normalize (le_min hux.2.1 huy.2.1) hle

end QuadSphere.Binary64
