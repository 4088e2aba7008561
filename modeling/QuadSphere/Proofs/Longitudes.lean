import QuadSphere.Proofs.Binary64.Subtraction
import QuadSphere.Sphere.Angle

/-!
# Longitudes

A longitude is a float from `-pi` to `pi`, both of which are the meridian opposite to zero.
`meridian p` writes that one as `pi`.

Two orders of longitudes are used.  One is that of floats, and comparisons of longitudes become
comparisons of their ranks.  The other is the order in which one meets them going east from a given
one: `wayEast a b` is the way from `a` to `b` as a number, with the whole turns taken off, and
`OnArc lo hi p` says that `p` is met no later than `hi` when one starts from `lo`.

* `onArc_iff`: this order in terms of ranks.
-/

namespace QuadSphere

open Binary64

/-! ## Floats up to pi -/

/-- The float is a number from `-pi` to `pi`. -/
def IsLongitude (p : Float) : Prop :=
  -pi ≤ p ∧ p ≤ pi

theorem rank_pi_pos : 0 < rank pi := by decide +kernel

theorem rank_pi_lt : rank pi < 2047 * 2 ^ 52 := by decide +kernel

theorem rank_neg_pi : rank (-pi) = -rank pi := by decide +kernel

theorem isNaN_pi : pi.isNaN = false := by decide +kernel

theorem isNaN_neg_pi : (-pi).isNaN = false := by decide +kernel

variable {p a b : Float}

theorem beq_pi_iff (h : p.isNaN = false) : (p == pi) = true ↔ rank p = rank pi :=
  beq_iff_rank h isNaN_pi

theorem beq_neg_pi_iff (h : p.isNaN = false) : (p == -pi) = true ↔ rank p = -rank pi := by
  rw [beq_iff_rank h isNaN_neg_pi, rank_neg_pi]

theorem bne_pi_iff (h : p.isNaN = false) : (p != pi) = true ↔ rank p ≠ rank pi := by
  rw [bne, Bool.not_eq_true', ← Bool.not_eq_true, beq_pi_iff h]

namespace IsLongitude

theorem isNaN (h : IsLongitude p) : p.isNaN = false :=
  (not_isNaN_of_le h.2).1

theorem rank_bounds (h : IsLongitude p) : -rank pi ≤ rank p ∧ rank p ≤ rank pi := by
  rw [← rank_neg_pi]
  exact ⟨(le_iff_rank isNaN_neg_pi h.isNaN).mp h.1, (le_iff_rank h.isNaN isNaN_pi).mp h.2⟩

theorem isFinite (h : IsLongitude p) : p.toModel.unpack.isFinite = true := by
  have hbounds := h.rank_bounds
  have hpi := rank_pi_lt
  exact isFinite_of_rank h.isNaN (by omega) (by omega)

end IsLongitude

theorem isLongitude_pi : IsLongitude pi := by
  rw [IsLongitude]
  decide +kernel

theorem isLongitude_neg_pi : IsLongitude (-pi) := by
  rw [IsLongitude]
  decide +kernel

/-- The same meridian, with `-pi` written as `pi`. -/
def meridian (p : Float) : Float :=
  if p == -pi then pi else p

theorem isLongitude_meridian (h : IsLongitude p) : IsLongitude (meridian p) := by
  rw [meridian]
  split
  · exact isLongitude_pi
  · exact h

theorem rank_meridian (h : IsLongitude p) :
    rank (meridian p) = if rank p = -rank pi then rank pi else rank p := by
  rw [meridian]
  by_cases hp : (p == -pi) = true
  · rw [if_pos hp, if_pos ((beq_neg_pi_iff h.isNaN).mp hp)]
  · rw [if_neg hp, if_neg (mt (beq_neg_pi_iff h.isNaN).mpr hp)]

theorem neg_rank_pi_lt (h : IsLongitude p) : -rank pi < rank (meridian p) := by
  have hbounds := h.rank_bounds
  have hpi := rank_pi_pos
  rw [rank_meridian h]
  split <;> omega

/-! ## Longitudes as numbers -/

theorem unpack_pi : pi.toModel.unpack = .finite .positive 7074237752028440 (-51) (by norm_num) := by
  rw [Float.Model.unpack, show pi.toModel.toBits = 0x400921fb54442d18 by decide +kernel]
  rfl

theorem unpack_neg_pi :
    (-pi).toModel.unpack = .finite .negative 7074237752028440 (-51) (by norm_num) := by
  rw [Float.Model.unpack, show (-pi).toModel.toBits = 0xc00921fb54442d18 by decide +kernel]
  rfl

theorem rank_pi : rank pi = place 7074237752028440 (-51) := by
  rw [rank, unpack_pi]
  rfl

theorem number_pi : number pi = 7074237752028440 * 2 ^ (-51 : ℤ) := by
  rw [number, unpack_pi, numberOf, value, factor, one_mul, Nat.cast_ofNat]

theorem number_pi_pos : 0 < number pi := by
  rw [number_pi]
  positivity

theorem number_neg_pi : number (-pi) = -number pi := by
  rw [number, number, unpack_pi, unpack_neg_pi, numberOf, numberOf, value, value, factor, factor]
  ring

theorem number_bounds (h : IsLongitude p) : -number pi ≤ number p ∧ number p ≤ number pi := by
  rw [← number_neg_pi, number_le_iff isLongitude_neg_pi.isFinite h.isFinite,
    number_le_iff h.isFinite isLongitude_pi.isFinite, rank_neg_pi]
  exact h.rank_bounds

/-! ## Once around -/

theorem unpack_two_pi :
    (2 * pi).toModel.unpack = .finite .positive 7074237752028440 (-50) (by norm_num) := by
  rw [Float.Model.unpack, show (2 * pi).toModel.toBits = 0x401921fb54442d18 by decide +kernel]
  rfl

theorem isFinite_two_pi : (2 * pi).toModel.unpack.isFinite = true := by
  rw [unpack_two_pi]
  rfl

theorem number_two_pi : number (2 * pi) = 7074237752028440 * 2 ^ (-50 : ℤ) := by
  rw [number, unpack_two_pi, numberOf, value, factor, one_mul, Nat.cast_ofNat]

/-- The largest difference of two longitudes but those next to `-pi` and `pi`. -/
theorem number_sub_number_le (ha : IsLongitude a) (hb : IsLongitude b)
    (h : ¬(rank a = -rank pi ∨ rank a = -rank pi + 1 ∧ rank b = rank pi)) :
    number b - number a ≤ 7074237752028439 * 2 ^ (-50 : ℤ) := by
  have hrank := rank_pi
  have hpi := number_pi
  have hbn := (number_bounds hb).2
  have har := ha.rank_bounds
  rw [place] at hrank
  rcases hb.rank_bounds.2.lt_or_eq with hlt | heq
  · have h1 : number b ≤ (7074237752028439 : ℕ) * 2 ^ (-51 : ℤ) :=
      number_le_of_rank_le hb.isFinite (by norm_num) (by norm_num) (Or.inl (by norm_num))
        (by rw [place]; omega)
    have h2 : -((7074237752028439 : ℕ) * 2 ^ (-51 : ℤ)) ≤ number a :=
      neg_le_number_of_le_rank ha.isFinite (by norm_num) (by norm_num) (Or.inl (by norm_num))
        (by rw [place]; omega)
    norm_num at h1 h2 ⊢
    linarith
  · have h2 : -((7074237752028438 : ℕ) * 2 ^ (-51 : ℤ)) ≤ number a :=
      neg_le_number_of_le_rank ha.isFinite (by norm_num) (by norm_num) (Or.inl (by norm_num))
        (by rw [place]; omega)
    norm_num at h2 hpi ⊢
    linarith

/-- The difference is rounded, so it is `2 * pi` for the first float after `-pi` as well. -/
theorem ranks_of_sub_eq (ha : IsLongitude a) (hb : IsLongitude b)
    (h : (b - a == 2 * pi) = true) :
    rank a = -rank pi ∨ rank a = -rank pi + 1 ∧ rank b = rank pi := by
  have han := number_bounds ha
  have hbn := number_bounds hb
  have hpi := number_pi
  have hsize : |number b - number a| ≤ 2 ^ (100 : ℤ) := by
    norm_num at hpi
    rw [abs_le]
    norm_num
    constructor <;> linarith
  have hnear := nears_sub hb.isFinite ha.isFinite hsize
  rw [beq_iff_rank (isNaN_of_isFinite hnear.finite) (isNaN_of_isFinite isFinite_two_pi),
    ← number_eq_iff hnear.finite isFinite_two_pi, number_two_pi] at h
  by_contra hcon
  have hle := hnear.nearest.le ⟨7074237752028439, -50, by norm_num, by norm_num⟩
    (number_sub_number_le ha hb hcon)
  rw [h] at hle
  norm_num at hle

/-! ## Going east -/

/-- How far east it is from one longitude to another: less than the whole circle. -/
def wayEast (a b : Float) : ℚ :=
  2 * number pi * Int.fract ((number b - number a) / (2 * number pi))

/-- Going east from `lo`, one comes to `p` no later than to `hi`.  From `-pi` to `pi` one goes once
around. -/
def OnArc (lo hi p : Float) : Prop :=
  (lo == -pi) = true ∧ (hi == pi) = true ∨ wayEast lo p ≤ wayEast lo hi

theorem exists_number_meridian (h : IsLongitude p) :
    ∃ k : ℤ, number (meridian p) = number p + 2 * number pi * k := by
  rw [meridian]
  split
  · next hp =>
    have hrank := (beq_neg_pi_iff h.isNaN).mp hp
    rw [← rank_neg_pi, ← number_eq_iff h.isFinite isLongitude_neg_pi.isFinite,
      number_neg_pi] at hrank
    exact ⟨1, by rw [hrank]; push_cast; ring⟩
  · exact ⟨0, by simp⟩

theorem wayEast_meridian (ha : IsLongitude a) (hb : IsLongitude b) :
    wayEast (meridian a) (meridian b) = wayEast a b := by
  have hpi := number_pi_pos
  obtain ⟨k, hk⟩ := exists_number_meridian ha
  obtain ⟨l, hl⟩ := exists_number_meridian hb
  rw [wayEast, wayEast, hk, hl]
  congr 1
  rw [Int.fract_eq_fract]
  refine ⟨l - k, ?_⟩
  push_cast
  field_simp
  ring

/-- What is left of the difference after some turns, if it is less than a turn. -/
theorem wayEast_eq {r : ℚ} (j : ℤ) (hr : r = number b - number a + 2 * number pi * j) (h0 : 0 ≤ r)
    (hlt : r < 2 * number pi) : wayEast a b = r := by
  have hpi := number_pi_pos
  have hfract : Int.fract ((number b - number a) / (2 * number pi)) = r / (2 * number pi) := by
    rw [Int.fract_eq_iff]
    refine ⟨div_nonneg h0 (by linarith), (div_lt_one (by linarith)).mpr hlt, -j, ?_⟩
    rw [hr]
    push_cast
    field_simp
    ring
  rw [wayEast, hfract]
  field_simp

theorem wayEast_of_le (h : number a ≤ number b) (hlt : number b < number a + 2 * number pi) :
    wayEast a b = number b - number a :=
  wayEast_eq 0 (by push_cast; ring) (by linarith) (by linarith)

theorem wayEast_of_lt (h : number b < number a) (hlt : number a ≤ number b + 2 * number pi) :
    wayEast a b = number b - number a + 2 * number pi :=
  wayEast_eq 1 (by push_cast; ring) (by linarith) (by linarith)

theorem neg_number_pi_lt (h : IsLongitude p) : -number pi < number (meridian p) := by
  rw [← number_neg_pi, number_lt_iff isLongitude_neg_pi.isFinite (isLongitude_meridian h).isFinite,
    rank_neg_pi]
  exact neg_rank_pi_lt h

/-- The numbers of meridians lie in one turn. -/
theorem wayEast_le_wayEast_iff {l h q : Float} (hl : -number pi < number l ∧ number l ≤ number pi)
    (hh : -number pi < number h ∧ number h ≤ number pi)
    (hq : -number pi < number q ∧ number q ≤ number pi) :
    wayEast l q ≤ wayEast l h ↔
      number l ≤ number h ∧ number l ≤ number q ∧ number q ≤ number h ∨
        number h < number l ∧ (number l ≤ number q ∨ number q ≤ number h) := by
  rcases le_or_gt (number l) (number h) with hlh | hlh
  · rw [wayEast_of_le hlh (by linarith)]
    rcases le_or_gt (number l) (number q) with hlq | hlq
    · rw [wayEast_of_le hlq (by linarith)]
      constructor
      · intro hle
        exact Or.inl ⟨hlh, hlq, by linarith⟩
      · rintro (⟨-, -, hle⟩ | ⟨hlt, -⟩) <;> linarith
    · rw [wayEast_of_lt hlq (by linarith)]
      refine iff_of_false (by linarith) ?_
      rintro (⟨-, hle, -⟩ | ⟨hlt, -⟩) <;> linarith
  · rw [wayEast_of_lt hlh (by linarith)]
    rcases le_or_gt (number l) (number q) with hlq | hlq
    · rw [wayEast_of_le hlq (by linarith)]
      exact iff_of_true (by linarith) (Or.inr ⟨hlh, Or.inl hlq⟩)
    · rw [wayEast_of_lt hlq (by linarith)]
      constructor
      · intro hle
        exact Or.inr ⟨hlh, Or.inr (by linarith)⟩
      · rintro (⟨hle, -⟩ | ⟨-, hle | hle⟩) <;> linarith

theorem onArc_iff {lo hi : Float} (hlo : IsLongitude lo) (hhi : IsLongitude hi)
    (hp : IsLongitude p) :
    OnArc lo hi p ↔ rank lo = -rank pi ∧ rank hi = rank pi ∨
      rank (meridian lo) ≤ rank (meridian hi) ∧ rank (meridian lo) ≤ rank (meridian p) ∧
          rank (meridian p) ≤ rank (meridian hi) ∨
        rank (meridian hi) < rank (meridian lo) ∧
          (rank (meridian lo) ≤ rank (meridian p) ∨ rank (meridian p) ≤ rank (meridian hi)) := by
  have hflo := (isLongitude_meridian hlo).isFinite
  have hfhi := (isLongitude_meridian hhi).isFinite
  have hfp := (isLongitude_meridian hp).isFinite
  rw [OnArc, beq_neg_pi_iff hlo.isNaN, beq_pi_iff hhi.isNaN, ← wayEast_meridian hlo hp,
    ← wayEast_meridian hlo hhi,
    wayEast_le_wayEast_iff ⟨neg_number_pi_lt hlo, (number_bounds (isLongitude_meridian hlo)).2⟩
      ⟨neg_number_pi_lt hhi, (number_bounds (isLongitude_meridian hhi)).2⟩
      ⟨neg_number_pi_lt hp, (number_bounds (isLongitude_meridian hp)).2⟩,
    number_le_iff hflo hfhi, number_le_iff hflo hfp, number_le_iff hfp hfhi,
    number_lt_iff hfhi hflo]

theorem wayEast_nonneg (a b : Float) : 0 ≤ wayEast a b :=
  mul_nonneg (by linarith [number_pi_pos]) (Int.fract_nonneg _)

theorem wayEast_self (a : Float) : wayEast a a = 0 := by
  rw [wayEast, sub_self, zero_div, Int.fract_zero, mul_zero]

/-- Both ends of an arc are on it. -/
theorem onArc_ends (lo hi : Float) : OnArc lo hi lo ∧ OnArc lo hi hi :=
  ⟨Or.inr (by rw [wayEast_self]; exact wayEast_nonneg lo hi), Or.inr le_rfl⟩

end QuadSphere
