import QuadSphere.Proofs.Landing
import QuadSphere.Proofs.Neighbours

/-!
# The seams of the cube

Each of the twelve edges of the cube is a seam of two faces.  `Side.across` says which side of which
face lies across a side of a face, and the two rows of squares along a seam are counted in the same
direction or in opposite ones (`turned`).  The place just outside a face is the square on the other
side of the seam, up to the rounding of its coordinate (`Place.beyond_eq`).

The float coordinates in this computation are multiples of `2 ^ (-30)` (`IsPlane`), so they are
exact up to the last division, and the longest axis of the point is the one across the seam.
-/

namespace QuadSphere

open Binary64

/-! ## Sides -/

/-- One of the four sides of a square. -/
inductive Side where
  | south
  | east
  | north
  | west
deriving DecidableEq

instance : Fintype Side :=
  ⟨{.south, .east, .north, .west}, by intro s; cases s <;> decide⟩

namespace Side

/-- The face across a side of a face, and the side of it that lies there. -/
def across (face : Nat) : Side → Nat × Side
  | south => if face % 2 = 0 then ((face + 5) % 6, north) else ((face + 4) % 6, east)
  | east => if face % 2 = 0 then ((face + 1) % 6, west) else ((face + 2) % 6, south)
  | north => if face % 2 = 0 then ((face + 2) % 6, west) else ((face + 1) % 6, south)
  | west => if face % 2 = 0 then ((face + 4) % 6, north) else ((face + 5) % 6, east)

/-- The number of a square along a side of a face, counted as on the face across.  Between two even
or two odd faces the direction changes. -/
def turned (face : Nat) (s : Side) (t : Nat) : Nat :=
  if face % 2 = (s.across face).1 % 2 then faceSide - 1 - t else t

/-- The square with the given number along a side of a face. -/
def place (face : Nat) (s : Side) (t : Nat) : Place :=
  match s with
  | south => ⟨face, t, 0⟩
  | east => ⟨face, faceSide - 1, t⟩
  | north => ⟨face, t, faceSide - 1⟩
  | west => ⟨face, 0, t⟩

/-- The column and row lie over a side of the face, next to the square with the given number or
further out. -/
def Over (s : Side) (i j : Int) (t : Nat) : Prop :=
  match s with
  | south => i = t ∧ j < 0
  | east => faceSide ≤ i ∧ j = t
  | north => i = t ∧ faceSide ≤ j
  | west => i < 0 ∧ j = t

end Side

variable {face m n t : ℕ} {a b c k : ℤ} {x y z u v : Float}

theorem across_lt (face : ℕ) (s : Side) : (s.across face).1 < 6 := by
  cases s <;> rw [Side.across] <;> split <;> exact Nat.mod_lt _ (by omega)

/-- **A seam has two faces.** -/
theorem across_across : ∀ face < 6, ∀ s : Side,
    (s.across face).2.across (s.across face).1 = (face, s) := by
  decide

theorem across_ne : ∀ face < 6, ∀ s : Side, (s.across face).1 ≠ face := by
  decide

/-- Two faces have one seam at most. -/
theorem across_inj : ∀ face < 6, ∀ s s' : Side,
    (s.across face).1 = (s'.across face).1 → s = s' := by
  decide

/-! ## Float coordinates -/

/-- The float is a multiple of `2 ^ (-30)`. -/
def IsPlane (x : Float) (b : ℤ) : Prop :=
  Holds x (b / 2 ^ 30)

theorem IsPlane.neg (hx : IsPlane x b) : IsPlane (-x) (-b) := by
  rw [IsPlane, Int.cast_neg, neg_div]
  exact Holds.neg hx

theorem isPlane_one : IsPlane 1 (2 ^ 30) := by
  rw [IsPlane, show ((2 ^ 30 : ℤ) : ℚ) / 2 ^ 30 = 1 by norm_num]
  exact holds_one

theorem IsPlane.lt_zero_iff (hx : IsPlane x b) : x < 0 ↔ b < 0 := by
  rw [Holds.lt_zero_iff hx, div_lt_iff₀ (by positivity), zero_mul, Int.cast_lt_zero]

theorem IsPlane.abs_lt_abs_iff (hx : IsPlane x a) (hy : IsPlane y b) :
    x.abs < y.abs ↔ |a| < |b| := by
  rw [(Holds.abs hx).lt_iff (Holds.abs hy), abs_div, abs_div,
    div_lt_div_iff_of_pos_right (by positivity)]
  exact_mod_cast Iff.rfl

/-- The plane coordinate of a column or a row, which may lie outside the face. -/
def planeAt (k : Int) : Float :=
  (1 / faceSide.toFloat) * Float.ofInt (2 * max (-1) (min k faceSide) + 1 - faceSide)

theorem isPlane_planeAt (k : ℤ) :
    IsPlane (planeAt k) (2 * max (-1) (min k (2 ^ 30)) + 1 - 2 ^ 30) := by
  have hne : 2 * max (-1) (min k (2 ^ 30)) + 1 - 2 ^ 30 ≠ 0 := by omega
  have hle : |2 * max (-1) (min k (2 ^ 30)) + 1 - 2 ^ 30| ≤ 2 ^ 31 := by
    rw [abs_le]
    omega
  rw [planeAt, faceSide_toInt, IsPlane]
  generalize 2 * max (-1) (min k (2 ^ 30)) + 1 - 2 ^ 30 = b at hne hle ⊢
  have hunit : Holds (1 / faceSide.toFloat) (1 / 2 ^ 30) :=
    holds_of_representable
      (holds_one.div holds_faceSide (moderate_of_pos (by norm_num) (by norm_num)))
      (representable_div 1 30 (by norm_num) (by norm_num))
  have hprod := hunit.mul (holds_ofInt hne (hle.trans_lt (by norm_num)))
  rw [one_div_mul_eq_div] at hprod
  exact holds_of_representable (hprod (moderate_div hne hle (by norm_num) (by norm_num)))
    (representable_div b 30 (hle.trans (by norm_num)) rfl)

theorem isPlane_planeAt_of_lt (ht : t < 2 ^ 30) : IsPlane (planeAt t) (2 * t + 1 - 2 ^ 30) := by
  have h := isPlane_planeAt t
  rwa [show max (-1) (min (t : ℤ) (2 ^ 30)) = t by omega] at h

theorem isPlane_planeAt_of_neg (hk : k < 0) : IsPlane (planeAt k) (-(2 ^ 30 + 1)) := by
  have h := isPlane_planeAt k
  rwa [show max (-1) (min k (2 ^ 30)) = -1 by omega] at h

theorem isPlane_planeAt_of_ge (hk : faceSide ≤ k) : IsPlane (planeAt k) (2 ^ 30 + 1) := by
  have h := isPlane_planeAt k
  rw [faceSide_toInt] at hk
  rwa [show max (-1) (min k (2 ^ 30)) = 2 ^ 30 by omega] at h

/-! ## The longest axis -/

section Axis

variable (hx : IsPlane x a) (hy : IsPlane y b) (hz : IsPlane z c)
include hx hy hz

theorem longestAxis_eq_x (hb : |b| < |a|) (hc : |c| < |a|) :
    (⟨x, y, z⟩ : Vec3).longestAxis = .x := by
  rw [Vec3.longestAxis]
  dsimp only
  rw [if_pos ((hy.abs_lt_abs_iff hx).mpr hb), if_pos ((hz.abs_lt_abs_iff hx).mpr hc)]

theorem longestAxis_eq_y (ha : |a| < |b|) (hc : |c| < |b|) :
    (⟨x, y, z⟩ : Vec3).longestAxis = .y := by
  rw [Vec3.longestAxis]
  dsimp only
  rw [if_neg (mt (hy.abs_lt_abs_iff hx).mp ha.not_gt), if_pos ((hz.abs_lt_abs_iff hy).mpr hc)]

theorem longestAxis_eq_z (ha : |a| < |c|) (hb : |b| < |c|) :
    (⟨x, y, z⟩ : Vec3).longestAxis = .z := by
  rw [Vec3.longestAxis]
  dsimp only
  rw [if_neg (mt (hz.abs_lt_abs_iff hx).mp ha.not_gt),
    if_neg (mt (hz.abs_lt_abs_iff hy).mp hb.not_gt), ite_self]

end Axis

theorem ofSpace_of_pos {p : Vec3} {axis : Axis} (h : p.longestAxis = axis)
    (hpos : ¬p.component axis < 0) : Chart.ofSpace p = Chart.project axis.index p := by
  subst h
  exact congrArg (Chart.project · p) (if_neg hpos)

theorem ofSpace_of_neg {p : Vec3} {axis : Axis} (h : p.longestAxis = axis)
    (hneg : p.component axis < 0) : Chart.ofSpace p = Chart.project (axis.index + 3) p := by
  subst h
  exact congrArg (Chart.project · p) (if_pos hneg)

/-! ## Points over a face

The coordinate across the face is the one just outside the cube, on either side. -/

/-- The leaf at a point of a face. -/
def FacePoint.leaf (p : FacePoint) : Place :=
  ⟨p.face, Chart.leafIndex (0.5 * (p.u + 1)), Chart.leafIndex (0.5 * (p.v + 1))⟩

theorem leafIndex_pos (hx : IsPlane x b) (hy : IsPlane y (2 ^ 30 + 1)) (h : Lands b n) :
    Chart.leafIndex (0.5 * (x / y + 1)) = n := by
  refine leafIndex_div hx hy ?_ h
  rw [div_div_div_cancel_right₀ (by positivity)]
  norm_num

theorem leafIndex_neg (hx : IsPlane x b) (hy : IsPlane y (-(2 ^ 30 + 1))) (h : Lands (-b) n) :
    Chart.leafIndex (0.5 * (x / y + 1)) = n := by
  refine leafIndex_div hx hy ?_ h
  rw [div_div_div_cancel_right₀ (by positivity), Int.cast_neg, Int.cast_neg, div_neg, neg_div]
  norm_num

theorem Lands.abs_lt (h : Lands b n) : |b| < |(2 ^ 30 + 1 : ℤ)| :=
  h.abs_numerator.trans_lt (by norm_num)

theorem Lands.abs_lt_neg (h : Lands b n) : |b| < |(-(2 ^ 30 + 1) : ℤ)| :=
  h.abs_numerator.trans_lt (by norm_num)

theorem Lands.neg_abs_lt (h : Lands (-b) n) : |b| < |(2 ^ 30 + 1 : ℤ)| :=
  abs_neg b ▸ h.abs_lt

theorem Lands.neg_abs_lt_neg (h : Lands (-b) n) : |b| < |(-(2 ^ 30 + 1) : ℤ)| :=
  abs_neg b ▸ h.abs_lt_neg

theorem leaf_ofSpace_zero (hx : IsPlane x (2 ^ 30 + 1)) (hy : IsPlane y b) (hz : IsPlane z c)
    (hm : Lands b m) (hn : Lands c n) : (Chart.ofSpace ⟨x, y, z⟩).leaf = ⟨0, m, n⟩ := by
  rw [ofSpace_of_pos (longestAxis_eq_x hx hy hz hm.abs_lt hn.abs_lt)
    (mt hx.lt_zero_iff.mp (by norm_num))]
  exact congrArg₂ (Place.mk 0) (leafIndex_pos hy hx hm) (leafIndex_pos hz hx hn)

theorem leaf_ofSpace_one (hx : IsPlane x a) (hy : IsPlane y (2 ^ 30 + 1)) (hz : IsPlane z c)
    (hm : Lands (-a) m) (hn : Lands c n) : (Chart.ofSpace ⟨x, y, z⟩).leaf = ⟨1, m, n⟩ := by
  rw [ofSpace_of_pos (longestAxis_eq_y hx hy hz hm.neg_abs_lt hn.abs_lt)
    (mt hy.lt_zero_iff.mp (by norm_num))]
  exact congrArg₂ (Place.mk 1) (leafIndex_pos hx.neg hy hm) (leafIndex_pos hz hy hn)

theorem leaf_ofSpace_two (hx : IsPlane x a) (hy : IsPlane y b) (hz : IsPlane z (2 ^ 30 + 1))
    (hm : Lands (-a) m) (hn : Lands (-b) n) : (Chart.ofSpace ⟨x, y, z⟩).leaf = ⟨2, m, n⟩ := by
  rw [ofSpace_of_pos (longestAxis_eq_z hx hy hz hm.neg_abs_lt hn.neg_abs_lt)
    (mt hz.lt_zero_iff.mp (by norm_num))]
  exact congrArg₂ (Place.mk 2) (leafIndex_pos hx.neg hz hm) (leafIndex_pos hy.neg hz hn)

theorem leaf_ofSpace_three (hx : IsPlane x (-(2 ^ 30 + 1))) (hy : IsPlane y b) (hz : IsPlane z c)
    (hm : Lands (-c) m) (hn : Lands (-b) n) : (Chart.ofSpace ⟨x, y, z⟩).leaf = ⟨3, m, n⟩ := by
  rw [ofSpace_of_neg (longestAxis_eq_x hx hy hz hn.neg_abs_lt_neg hm.neg_abs_lt_neg)
    (hx.lt_zero_iff.mpr (by norm_num))]
  exact congrArg₂ (Place.mk 3) (leafIndex_neg hz hx hm) (leafIndex_neg hy hx hn)

theorem leaf_ofSpace_four (hx : IsPlane x a) (hy : IsPlane y (-(2 ^ 30 + 1))) (hz : IsPlane z c)
    (hm : Lands (-c) m) (hn : Lands a n) : (Chart.ofSpace ⟨x, y, z⟩).leaf = ⟨4, m, n⟩ := by
  rw [ofSpace_of_neg (longestAxis_eq_y hx hy hz hn.abs_lt_neg hm.neg_abs_lt_neg)
    (hy.lt_zero_iff.mpr (by norm_num))]
  exact congrArg₂ (Place.mk 4) (leafIndex_neg hz hy hm)
    (leafIndex_neg hx.neg hy ((neg_neg a).symm ▸ hn))

theorem leaf_ofSpace_five (hx : IsPlane x a) (hy : IsPlane y b) (hz : IsPlane z (-(2 ^ 30 + 1)))
    (hm : Lands b m) (hn : Lands a n) : (Chart.ofSpace ⟨x, y, z⟩).leaf = ⟨5, m, n⟩ := by
  rw [ofSpace_of_neg (longestAxis_eq_z hx hy hz hn.abs_lt_neg hm.abs_lt_neg)
    (hz.lt_zero_iff.mpr (by norm_num))]
  exact congrArg₂ (Place.mk 5) (leafIndex_neg hy.neg hz ((neg_neg b).symm ▸ hm))
    (leafIndex_neg hx.neg hz ((neg_neg a).symm ▸ hn))

/-! ## The place across a seam -/

theorem beyond_eq_leaf (face : ℕ) (i j : ℤ) :
    Place.beyond face i j =
      (Chart.ofSpace (Chart.toSpace ⟨face, planeAt i, planeAt j⟩)).leaf := rfl

theorem IsPlane.of_neg (hx : IsPlane x (-b)) : IsPlane (-x) b :=
  neg_neg b ▸ hx.neg

/-- **The place over a side of a face is the square across the seam**, or the next one. -/
theorem Place.beyond_eq {i j : ℤ} {s : Side} (hf : face < 6) (ht : t < 2 ^ 30)
    (h : s.Over i j t) :
    Place.beyond face i j =
      (s.across face).2.place (s.across face).1 (landing (s.turned face t)) := by
  have hsquare := lands_square ht
  have hback := lands_square_neg ht
  have hback' : Lands (- -(2 * t + 1 - 2 ^ 30)) (landing t) := by rwa [neg_neg]
  have hlast' : Lands (- -2 ^ 30) (2 ^ 30 - 1) := by rw [neg_neg]; exact lands_last
  have hone := isPlane_one
  have hmid := isPlane_planeAt_of_lt ht
  rw [beyond_eq_leaf]
  cases s with
  | south =>
    obtain ⟨rfl, hj⟩ := h
    have hout := isPlane_planeAt_of_neg hj
    interval_cases face
    · exact leaf_ofSpace_five hone hmid hout hsquare lands_last
    · exact leaf_ofSpace_five hmid.neg hone hout lands_last hback
    · exact leaf_ofSpace_one hmid.neg hout.of_neg hone hback' lands_last
    · exact leaf_ofSpace_one hone.neg hout.of_neg hmid.neg hlast' hback
    · exact leaf_ofSpace_three hout hone.neg hmid.neg hback' hlast'
    · exact leaf_ofSpace_three hout hmid hone.neg hlast' hback
  | east =>
    obtain ⟨hi, rfl⟩ := h
    have hout := isPlane_planeAt_of_ge hi
    interval_cases face
    · exact leaf_ofSpace_one hone hout hmid lands_first hsquare
    · exact leaf_ofSpace_three hout.neg hone hmid hback lands_first
    · exact leaf_ofSpace_three hout.neg hmid.neg hone lands_first hback'
    · exact leaf_ofSpace_five hone.neg hmid.neg hout.neg hback lands_first
    · exact leaf_ofSpace_five hmid hone.neg hout.neg lands_first hsquare
    · exact leaf_ofSpace_one hmid hout hone.neg hback lands_first
  | north =>
    obtain ⟨rfl, hj⟩ := h
    have hout := isPlane_planeAt_of_ge hj
    interval_cases face
    · exact leaf_ofSpace_two hone hmid hout lands_first hback
    · exact leaf_ofSpace_two hmid.neg hone hout hback' lands_first
    · exact leaf_ofSpace_four hmid.neg hout.neg hone lands_first hback
    · exact leaf_ofSpace_four hone.neg hout.neg hmid.neg hback' lands_first
    · exact leaf_ofSpace_zero hout hone.neg hmid.neg lands_first hback
    · exact leaf_ofSpace_zero hout hmid hone.neg hsquare lands_first
  | west =>
    obtain ⟨hi, rfl⟩ := h
    have hout := isPlane_planeAt_of_neg hi
    interval_cases face
    · exact leaf_ofSpace_four hone hout hmid hback lands_last
    · exact leaf_ofSpace_zero hout.of_neg hone hmid lands_last hsquare
    · exact leaf_ofSpace_zero hout.of_neg hmid.neg hone hback lands_last
    · exact leaf_ofSpace_two hone.neg hmid.neg hout.of_neg hlast' hback'
    · exact leaf_ofSpace_two hmid hone.neg hout.of_neg hback hlast'
    · exact leaf_ofSpace_four hmid hout hone.neg hlast' hsquare

end QuadSphere
