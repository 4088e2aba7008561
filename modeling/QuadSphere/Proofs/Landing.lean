import QuadSphere.Proofs.Binary64.Arithmetic
import QuadSphere.Sphere.Chart

/-!
# Where plane coordinates land

Over the edge of a face a column or a row is found as the whole part of a float: a quotient of two
plane coordinates, which lies between -1 and 1, is moved up by one and stretched to the side of a
face.  Both the quotient and the sum are rounded.  `Lands b n` says that the quotient of `b` by
`2 ^ 30 + 1` gives the number `n` in the end.

The `t`-th of the `2 ^ 30` squares along an edge should land on `t`.  Its quotient lies just below
the border to the next square, at a distance that grows with `t`.  For the first 32 squares this is
less than half of what a float can tell apart there, so the quotient is rounded up to the border,
and the square lands on `t + 1` (`landing`).

* `lands_square`, `lands_square_neg`: the squares along an edge, counted from either end.
* `lands_last`, `lands_first`: the squares next to the edge of the other face.
* `leafIndex_div`: what lands on a number is found there.
-/

namespace QuadSphere

open Binary64

/-- The quotient of the number by `2 ^ 30 + 1`, moved up by one and stretched, has the whole part
`n`, whichever nearest numbers are taken. -/
structure Lands (b : ℤ) (n : ℕ) : Prop where
  abs_numerator : |b| ≤ 2 ^ 30
  ne_zero : b ≠ 0
  lt : n < 2 ^ 30
  whole : ∀ r w, RoundsTo (b / (2 ^ 30 + 1)) r → RoundsTo (r + 1) w →
    n ≤ 2 ^ 29 * w ∧ 2 ^ 29 * w < n + 1

/-- Where the squares along an edge land. -/
def landing (t : ℕ) : ℕ :=
  if t < 32 then t + 1 else t

variable {b : ℤ} {n t : ℕ} {p q r v w : ℚ}

/-! ## Bounds -/

theorem representable_div (m : ℤ) (k : ℕ) (hm : |m| ≤ 2 ^ 53) (hw : w = m / 2 ^ k) :
    Representable w :=
  ⟨m, -k, hm, by rw [hw, zpow_neg, zpow_natCast, div_eq_mul_inv]⟩

theorem whole_of_bounds (hp : Representable (p + 1)) (hq : Representable (q + 1))
    (hlow : p ≤ r) (hhigh : r ≤ q) (hn : n ≤ 2 ^ 29 * (p + 1)) (hn' : 2 ^ 29 * (q + 1) < n + 1)
    (h : RoundsTo (r + 1) w) : n ≤ 2 ^ 29 * w ∧ 2 ^ 29 * w < n + 1 := by
  have h1 := h.ge hp (by linarith)
  have h2 := h.le hq (by linarith)
  constructor <;> linarith

/-- Below -1/2 the representable numbers are at least `2 ^ (-53)` apart. -/
theorem le_sub_of_lt (hw : Representable w) (hhalf : w < -1 / 2) (m : ℤ)
    (hlt : w < m / 2 ^ 53) : w ≤ (m - 1) / 2 ^ 53 := by
  obtain ⟨i, e, hi, rfl⟩ := hw
  have hi' : -(2 ^ 53 : ℚ) ≤ i := by exact_mod_cast (abs_le.mp hi).1
  have he : -53 ≤ e := by
    by_contra hcon
    have hpow : (2 : ℚ) ^ e ≤ 2 ^ (-54 : ℤ) := zpow_le_zpow_right₀ one_le_two (by omega)
    have hge : (-1 / 2 : ℚ) ≤ i * 2 ^ e := by
      calc (-1 / 2 : ℚ) = -2 ^ 53 * 2 ^ (-54 : ℤ) := by norm_num
        _ ≤ -2 ^ 53 * 2 ^ e := mul_le_mul_of_nonpos_left hpow (by norm_num)
        _ ≤ i * 2 ^ e := mul_le_mul_of_nonneg_right hi' (by positivity)
    exact absurd hhalf (not_lt.mpr hge)
  obtain ⟨k, hk⟩ : ∃ k : ℕ, e + 53 = k := ⟨(e + 53).toNat, by omega⟩
  have hint : (i : ℚ) * 2 ^ e = (i * 2 ^ k : ℤ) / 2 ^ 53 := by
    rw [show e = k - (53 : ℕ) by omega, zpow_sub₀ two_ne_zero, zpow_natCast, zpow_natCast]
    push_cast
    ring
  rw [hint] at hlt ⊢
  rw [div_lt_div_iff_of_pos_right (by positivity)] at hlt
  rw [div_le_div_iff_of_pos_right (by positivity)]
  have : i * 2 ^ k + 1 ≤ m := by exact_mod_cast hlt
  exact_mod_cast (by omega : i * 2 ^ k ≤ m - 1)

/-! ## The squares along an edge -/

/-- How far the quotient of a square lies below the border to the next one. -/
theorem quotient_eq (t : ℕ) : ((2 * t + 1 - 2 ^ 30 : ℤ) : ℚ) / (2 ^ 30 + 1) =
    (t + 1) / 2 ^ 29 - 1 - (t + 1) / (2 ^ 29 * (2 ^ 30 + 1)) := by
  push_cast
  field_simp
  ring

theorem representable_border (ht : t < 2 ^ 30) : Representable (((t : ℚ) + 1) / 2 ^ 29 - 1) :=
  representable_div (t + 1 - 2 ^ 29) 29 (by rw [abs_le]; omega) (by push_cast; ring)

section Square

variable (ht : t < 2 ^ 30) (h : RoundsTo ((2 * t + 1 - 2 ^ 30 : ℤ) / (2 ^ 30 + 1)) r)
include ht h

theorem square_le_quotient : (t : ℚ) / 2 ^ 29 - 1 ≤ r := by
  have ht' : (t : ℚ) + 1 ≤ 2 ^ 30 := by exact_mod_cast ht
  have hdist : ((t : ℚ) + 1) / (2 ^ 29 * (2 ^ 30 + 1)) ≤ 1 / 2 ^ 29 := by
    rw [div_le_div_iff₀ (by positivity) (by positivity)]
    linarith
  rw [quotient_eq] at h
  refine h.ge (representable_div (t - 2 ^ 29) 29 (by rw [abs_le]; omega) (by push_cast; ring)) ?_
  linarith [add_div (t : ℚ) 1 (2 ^ 29)]

theorem quotient_le_border : r ≤ ((t : ℚ) + 1) / 2 ^ 29 - 1 := by
  rw [quotient_eq] at h
  refine h.le (representable_border ht) ?_
  linarith [show (0 : ℚ) ≤ (t + 1) / (2 ^ 29 * (2 ^ 30 + 1)) by positivity]

/-- The first squares are rounded up to the border. -/
theorem border_le_quotient (hfew : t < 32) : ((t : ℚ) + 1) / 2 ^ 29 - 1 ≤ r := by
  have hfew' : (t : ℚ) + 1 ≤ 32 := by exact_mod_cast hfew
  have hdist : ((t : ℚ) + 1) / (2 ^ 29 * (2 ^ 30 + 1)) < 1 / 2 ^ 54 := by
    rw [div_lt_div_iff₀ (by positivity) (by positivity)]
    linarith
  have hnonneg : (0 : ℚ) ≤ (t + 1) / (2 ^ 29 * (2 ^ 30 + 1)) := by positivity
  by_contra hlt
  rw [not_le] at hlt
  have hgap := le_sub_of_lt h.representable (by linarith) ((t + 1) * 2 ^ 24 - 2 ^ 53)
    (by push_cast; linarith)
  push_cast at hgap
  have hnear := (quotient_eq t ▸ h).nearest _ (representable_border ht)
  rw [abs_of_neg (by linarith), abs_of_nonneg (by linarith)] at hnear
  linarith

/-- The next squares stay one step of 53 bits below the border. -/
theorem quotient_le_step (hfew : 32 ≤ t) (hmany : t < 2 ^ 28) :
    r ≤ ((t : ℚ) + 1) / 2 ^ 29 - 1 - 1 / 2 ^ 53 := by
  have hfew' : (32 : ℚ) ≤ t := by exact_mod_cast hfew
  have hmany' : (t : ℚ) + 1 ≤ 2 ^ 28 := by exact_mod_cast hmany
  have hdist : 1 / 2 ^ 54 < ((t : ℚ) + 1) / (2 ^ 29 * (2 ^ 30 + 1)) := by
    rw [div_lt_div_iff₀ (by positivity) (by positivity)]
    linarith
  have hstep : Representable (((t : ℚ) + 1) / 2 ^ 29 - 1 - 1 / 2 ^ 53) :=
    representable_div ((t + 1) * 2 ^ 24 - 2 ^ 53 - 1) 53 (by rw [abs_le]; omega)
      (by push_cast; ring)
  have hlt := (quotient_eq t ▸ h).lt (representable_border ht) hstep (by linarith) (by linarith)
    (by linarith)
  have hgap := le_sub_of_lt h.representable (by linarith) ((t + 1) * 2 ^ 24 - 2 ^ 53)
    (by push_cast; linarith)
  push_cast at hgap
  linarith

theorem quotient_le_far (hmany : 2 ^ 28 ≤ t) : r ≤ ((t : ℚ) + 1) / 2 ^ 29 - 1 - 1 / 2 ^ 32 := by
  have hmany' : (2 : ℚ) ^ 28 ≤ t := by exact_mod_cast hmany
  have hdist : 1 / 2 ^ 32 ≤ ((t : ℚ) + 1) / (2 ^ 29 * (2 ^ 30 + 1)) := by
    rw [div_le_div_iff₀ (by positivity) (by positivity)]
    linarith
  refine (quotient_eq t ▸ h).le (representable_div ((t + 1) * 2 ^ 3 - 2 ^ 32 - 1) 32
    (by rw [abs_le]; omega) (by push_cast; ring)) ?_
  linarith

/-- All but the first squares stay below the border, with room for the sum. -/
theorem exists_quotient_le (hfew : 32 ≤ t) :
    ∃ q, Representable (q + 1) ∧ r ≤ q ∧ q < ((t : ℚ) + 1) / 2 ^ 29 - 1 := by
  rcases Nat.lt_or_ge t (2 ^ 28) with hmany | hmany
  · have hrep : Representable (((t : ℚ) + 1) / 2 ^ 29 - 1 - 1 / 2 ^ 53 + 1) :=
      representable_div ((t + 1) * 2 ^ 24 - 1) 53 (by rw [abs_le]; omega) (by push_cast; ring)
    exact ⟨_, hrep, quotient_le_step ht h hfew hmany, by linarith⟩
  · have hrep : Representable (((t : ℚ) + 1) / 2 ^ 29 - 1 - 1 / 2 ^ 32 + 1) :=
      representable_div ((t + 1) * 2 ^ 3 - 1) 32 (by rw [abs_le]; omega) (by push_cast; ring)
    exact ⟨_, hrep, quotient_le_far ht h hmany, by linarith⟩

end Square

theorem landing_lt (ht : t < 2 ^ 30) : landing t < 2 ^ 30 := by
  rw [landing]
  split <;> omega

/-- **Where the squares along an edge land.** -/
theorem lands_square (ht : t < 2 ^ 30) : Lands (2 * t + 1 - 2 ^ 30) (landing t) := by
  refine ⟨by rw [abs_le]; omega, by omega, landing_lt ht, fun r w hr hw => ?_⟩
  rw [landing]
  split
  · next hfew =>
    have hrep : Representable (((t : ℚ) + 1) / 2 ^ 29 - 1 + 1) :=
      representable_div (t + 1) 29 (by rw [abs_le]; omega) (by push_cast; ring)
    refine whole_of_bounds hrep hrep (border_le_quotient ht hr hfew) (quotient_le_border ht hr)
      ?_ ?_ hw
    · push_cast
      linarith
    · push_cast
      linarith
  · next hmany =>
    obtain ⟨q, hrep, hrq, hq⟩ := exists_quotient_le ht hr (Nat.not_lt.mp hmany)
    have hlow : Representable ((t : ℚ) / 2 ^ 29 - 1 + 1) :=
      representable_div t 29 (by rw [abs_le]; omega) (by push_cast; ring)
    refine whole_of_bounds hlow hrep (square_le_quotient ht hr) hrq ?_ ?_ hw
    · linarith
    · linarith

theorem lands_square_neg (ht : t < 2 ^ 30) :
    Lands (-(2 * t + 1 - 2 ^ 30)) (landing (2 ^ 30 - 1 - t)) := by
  have h := lands_square (t := 2 ^ 30 - 1 - t) (by omega)
  rwa [show (2 * (2 ^ 30 - 1 - t : ℕ) + 1 - 2 ^ 30 : ℤ) = -(2 * t + 1 - 2 ^ 30) by omega] at h

/-! ## The squares next to an edge -/

theorem lands_last : Lands (2 ^ 30) (2 ^ 30 - 1) := by
  refine ⟨by norm_num, by norm_num, by norm_num, fun r w hr hw => ?_⟩
  refine whole_of_bounds (p := 1 - 1 / 2 ^ 29) (q := 1 - 1 / 2 ^ 31)
    (representable_div (2 ^ 30 - 1) 29 (by norm_num) (by norm_num))
    (representable_div (2 ^ 32 - 1) 31 (by norm_num) (by norm_num))
    (hr.ge (representable_div (2 ^ 29 - 1) 29 (by norm_num) (by norm_num)) (by norm_num))
    (hr.le (representable_div (2 ^ 31 - 1) 31 (by norm_num) (by norm_num)) (by norm_num))
    (by norm_num) (by norm_num) hw

theorem lands_first : Lands (-2 ^ 30) 0 := by
  refine ⟨by norm_num, by norm_num, by norm_num, fun r w hr hw => ?_⟩
  refine whole_of_bounds (p := -1 + 1 / 2 ^ 31) (q := -1 + 1 / 2 ^ 30)
    (representable_div 1 31 (by norm_num) (by norm_num))
    (representable_div 1 30 (by norm_num) (by norm_num))
    (hr.ge (representable_div (1 - 2 ^ 31) 31 (by norm_num) (by norm_num)) (by norm_num))
    (hr.le (representable_div (1 - 2 ^ 30) 30 (by norm_num) (by norm_num)) (by norm_num))
    (by norm_num) (by norm_num) hw

/-! ## What lands on a number is found there -/

theorem moderate_of_bounds (h : 1 / 2 ^ 32 ≤ |v|) (h' : |v| ≤ 2 ^ 32) : Moderate v :=
  ⟨le_trans (by norm_num) h, h'.trans (by norm_num)⟩

theorem moderate_of_pos (h : 1 / 2 ^ 32 ≤ v) (h' : v ≤ 2 ^ 32) : Moderate v := by
  apply moderate_of_bounds
  · exact h.trans (le_abs_self v)
  · rwa [abs_of_nonneg (by linarith)]

theorem moderate_div {d : ℚ} (hb : b ≠ 0) (hle : |b| ≤ 2 ^ 31) (hd : 1 ≤ d) (hd' : d ≤ 2 ^ 31) :
    Moderate (b / d) := by
  have hone : (1 : ℚ) ≤ |(b : ℚ)| := by exact_mod_cast Int.one_le_abs hb
  have hle' : |(b : ℚ)| ≤ 2 ^ 31 := by exact_mod_cast hle
  have hpos : 0 < d := by linarith
  have habs : |(b : ℚ) / d| = |(b : ℚ)| / d := by rw [abs_div, abs_of_pos hpos]
  apply moderate_of_bounds
  · rw [habs, div_le_div_iff₀ (by positivity) hpos]
    linarith
  · rw [habs, div_le_iff₀ hpos]
    linarith

theorem Lands.moderate (h : Lands b n) : Moderate (b / (2 ^ 30 + 1)) :=
  moderate_div h.ne_zero (h.abs_numerator.trans (by norm_num)) (by norm_num) (by norm_num)

theorem Lands.quotient_bounds (h : Lands b n) (hr : RoundsTo (b / (2 ^ 30 + 1)) r) :
    -1 + 1 / 2 ^ 31 ≤ r ∧ r ≤ 1 := by
  have hle : |(b : ℚ)| ≤ 2 ^ 30 := by exact_mod_cast h.abs_numerator
  obtain ⟨hlow, hhigh⟩ := abs_le.mp hle
  constructor
  · refine hr.ge (representable_div (1 - 2 ^ 31) 31 (by norm_num) (by norm_num)) ?_
    rw [le_div_iff₀ (by positivity)]
    linarith
  · refine hr.le (representable_div 1 0 (by norm_num) (by norm_num)) ?_
    rw [div_le_iff₀ (by positivity)]
    linarith

theorem representable_zpow_mul (hw : Representable w) (k : ℤ) : Representable (2 ^ k * w) := by
  obtain ⟨m, e, hm, rfl⟩ := hw
  exact ⟨m, k + e, hm, by rw [zpow_add₀ two_ne_zero]; ring⟩

theorem holds_half : Holds 0.5 (1 / 2) := by
  have hv : value .positive (2 ^ 52) (-53) = 1 / 2 := by
    rw [value, factor]
    norm_num
  have h := holds_of_bits (x := 0.5) (s := .positive) (m := 2 ^ 52) (e := -53)
    (w := 0x3fe0000000000000) (by decide +kernel) (by norm_num) rfl (le_refl _) (by norm_num)
    (hv ▸ moderate_of_pos (by norm_num) (by norm_num))
  rwa [hv] at h

theorem faceSide_toInt : (faceSide : ℤ) = 2 ^ 30 := rfl

theorem faceSide_toRat : (faceSide : ℚ) = 2 ^ 30 := by
  exact_mod_cast congrArg (Int.cast : ℤ → ℚ) faceSide_toInt

theorem holds_faceSide : Holds faceSide.toFloat (2 ^ 30) := by
  rw [← faceSide_toRat]
  exact holds_ofNat (by decide) (by decide)

/-- **What lands on a number is found there.** -/
theorem leafIndex_div {x y : Float} {a d : ℚ} (hx : Holds x a) (hy : Holds y d)
    (hab : a / d = b / (2 ^ 30 + 1)) (h : Lands b n) :
    Chart.leafIndex (0.5 * (x / y + 1)) = n := by
  obtain ⟨r, hr, hround⟩ := hx.div hy (hab ▸ h.moderate)
  rw [hab] at hround
  obtain ⟨hr1, hr2⟩ := h.quotient_bounds hround
  obtain ⟨w, hw, hround'⟩ := hr.add holds_one (moderate_of_pos (by linarith) (by linarith))
  have hw1 := hround'.ge (representable_div 1 31 (by norm_num) rfl) (by push_cast; linarith)
  have hw2 := hround'.le (representable_div 2 0 (by norm_num) rfl) (by push_cast; linarith)
  push_cast at hw1 hw2
  -- the last two products are exact
  have hhalf : Holds (0.5 * (x / y + 1)) (2 ^ (-1 : ℤ) * w) := by
    rw [show (2 : ℚ) ^ (-1 : ℤ) = 1 / 2 by norm_num]
    refine holds_of_representable
      (holds_half.mul hw (moderate_of_pos (by linarith) (by linarith))) ?_
    simpa using representable_zpow_mul hround'.representable (-1)
  have hside : Holds (faceSide.toFloat * (0.5 * (x / y + 1))) (2 ^ (29 : ℤ) * w) := by
    have hprod := holds_faceSide.mul hhalf
    rw [show (2 : ℚ) ^ 30 * (2 ^ (-1 : ℤ) * w) = 2 ^ (29 : ℤ) * w by norm_num; ring] at hprod
    exact holds_of_representable (hprod (moderate_of_pos (by norm_num; linarith)
      (by norm_num; linarith))) (representable_zpow_mul hround'.representable 29)
  rw [Chart.leafIndex, hside.toNat_toUInt32 (h.whole r w hround hround') (h.lt.trans (by norm_num))]
  exact Nat.min_eq_left (Nat.le_sub_one_of_lt h.lt)

end QuadSphere
