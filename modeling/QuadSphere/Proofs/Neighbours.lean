import QuadSphere.Cell.Adjacency
import QuadSphere.Proofs.Squares

/-!
# Neighbours on the grid of a level

The squares of a level form a grid on each face, and `Cell.onGrid` is the cell at a column and a row
of that grid, also just outside the face, where it lies on another one.  The neighbours of a cell
are the cells on the ring around its block of squares (`neighbours_eq`), so it makes no difference
whether one walks around the block or around each of its squares.

* `nodup_ring`, `length_neighbours`: how many steps the walk around a cell has.
* `neighbours_spec`: the neighbours are cells of the given level.
* `closeTo_iff_exists`: one walk around a cell finds what the walks around its parts find.
-/

namespace QuadSphere

open Cell

/-! ## Places outside a face -/

/-- The place on another face of a column and row just outside a face. -/
def Place.beyond (face : Nat) (i j : Int) : Place :=
  let plane (k : Int) : Float :=
    let k := max (-1) (min k faceSide)
    (1 / faceSide.toFloat) * Float.ofInt (2 * k + 1 - faceSide)
  let f := Chart.ofSpace (Chart.toSpace ⟨face, plane i, plane j⟩)
  ⟨f.face, Chart.leafIndex (0.5 * (f.u + 1)), Chart.leafIndex (0.5 * (f.v + 1))⟩

/-- The column and row are those of a place on the face. -/
def OnFace (i j : Int) : Prop :=
  0 ≤ i ∧ i < faceSide ∧ 0 ≤ j ∧ j < faceSide

instance (i j : Int) : Decidable (OnFace i j) :=
  inferInstanceAs (Decidable (_ ∧ _ ∧ _ ∧ _))

/-- The place of a column and row that may lie outside the face. -/
def Place.wrap (face : Nat) (i j : Int) : Place :=
  if OnFace i j then ⟨face, i.toNat, j.toNat⟩ else .beyond face i j

theorem beyondFace_eq (face : Nat) (i j : Int) :
    beyondFace face i j = ofPlace (.beyond face i j) := rfl

theorem leafIndex_lt (s : Float) : Chart.leafIndex s < faceSide :=
  Nat.lt_of_le_of_lt (Nat.min_le_right _ _) (by decide)

theorem face_project (face : Nat) (p : Vec3) : (Chart.project face p).face = face := by
  unfold Chart.project
  split <;> rfl

theorem face_ofSpace_lt (p : Vec3) : (Chart.ofSpace p).face < faceCount := by
  have hindex : p.longestAxis.index < 3 := by
    cases p.longestAxis <;> decide
  rw [Chart.ofSpace, face_project, faceCount]
  split <;> omega

theorem Place.onCube_beyond (face : Nat) (i j : Int) : (Place.beyond face i j).OnCube :=
  ⟨face_ofSpace_lt _, leafIndex_lt _, leafIndex_lt _⟩

theorem Place.onCube_wrap {face : Nat} (h : face < faceCount) (i j : Int) :
    (Place.wrap face i j).OnCube := by
  rw [wrap]
  split
  · next hon =>
    obtain ⟨hi, hi', hj, hj'⟩ := hon
    exact ⟨h, by dsimp only; omega, by dsimp only; omega⟩
  · exact onCube_beyond face i j

theorem near_eq {face : Nat} {i j : Int} {onFace : Bool} (h : onFace = true ↔ OnFace i j) :
    near face i j onFace = ofPlace (.wrap face i j) := by
  rw [near, Place.wrap, beyondFace_eq]
  by_cases hon : OnFace i j
  · rw [if_pos hon, if_pos (h.mpr hon)]
  · rw [if_neg hon, if_neg (mt h.mp hon)]

/-! ## The ring around a block -/

/-- The squares of the grid around the block of `r` by `r` squares from column `x` and row `y` on,
row by row from the south. -/
def ring (x y : Int) (r : Nat) : List (Int × Int) :=
  [(x - 1, y - 1), (x + r, y - 1)] ++
    (List.range r).flatMap (fun n : Nat =>
      [(x + n, y - 1), (x + n, y + r), (x - 1, y + n), (x + r, y + n)]) ++
    [(x - 1, y + r), (x + r, y + r)]

/-- The square at a column and row belongs to the block. -/
def InBlock (x y : Int) (r : Nat) (a b : Int) : Prop :=
  x ≤ a ∧ a < x + r ∧ y ≤ b ∧ b < y + r

theorem mem_ring {x y a b : Int} {r : Nat} :
    (a, b) ∈ ring x y r ↔ InBlock (x - 1) (y - 1) (r + 2) a b ∧ ¬InBlock x y r a b := by
  simp only [ring, InBlock, List.mem_append, List.mem_flatMap, List.mem_range, List.mem_cons,
    List.not_mem_nil, or_false, Prod.mk.injEq]
  constructor
  · rintro ((h | ⟨n, hn, h⟩) | h) <;> omega
  · rintro ⟨hin, hout⟩
    by_cases ha : x ≤ a ∧ a < x + r
    · exact Or.inl (Or.inr ⟨(a - x).toNat, by omega, by omega⟩)
    · by_cases hb : y ≤ b ∧ b < y + r
      · exact Or.inl (Or.inr ⟨(b - y).toNat, by omega, by omega⟩)
      · by_cases hlow : b = y - 1
        · exact Or.inl (Or.inl (by omega))
        · exact Or.inr (by omega)

theorem length_ring (x y : Int) (r : Nat) : (ring x y r).length = 4 * r + 4 := by
  simp [ring, List.length_flatMap]
  omega

theorem nodup_ring (x y : Int) (r : Nat) : (ring x y r).Nodup := by
  -- the order does not matter here, so the squares at the four corners are taken together
  rw [ring, List.append_assoc, (List.perm_append_comm.append_left _).nodup_iff,
    ← List.append_assoc]
  refine List.Nodup.append ?corners (List.nodup_flatMap.mpr ⟨?beside, ?steps⟩) ?apart
  case corners =>
    simp only [List.cons_append, List.nil_append, List.nodup_cons, List.mem_cons,
      List.not_mem_nil, Prod.mk.injEq, or_false, not_false_eq_true, List.nodup_nil, and_true]
    omega
  case beside =>
    intro n hn
    rw [List.mem_range] at hn
    simp only [List.nodup_cons, List.mem_cons, List.not_mem_nil, Prod.mk.injEq, or_false,
      not_false_eq_true, List.nodup_nil, and_true]
    omega
  case steps =>
    refine List.nodup_range.imp_of_mem fun {m n} hm hn hne => ?_
    rw [List.mem_range] at hm hn
    simp only [Function.onFun, List.disjoint_left, List.mem_cons, List.not_mem_nil, or_false,
      Prod.forall, Prod.mk.injEq]
    omega
  case apart =>
    simp only [List.disjoint_left, List.mem_flatMap, List.mem_range, List.cons_append,
      List.nil_append, List.mem_cons, List.not_mem_nil, or_false, Prod.forall, Prod.mk.injEq]
    rintro a b h ⟨n, hn, h'⟩
    omega

/-- **A block and its ring are the squares of the block and those around each of them.** -/
theorem inBlock_grown_iff {x y a b : Int} {r : Nat} (hr : 0 < r) :
    InBlock (x - 1) (y - 1) (r + 2) a b ↔
      ∃ a' b', InBlock x y r a' b' ∧ InBlock (a' - 1) (b' - 1) 3 a b := by
  simp only [InBlock]
  constructor
  · intro h
    exact ⟨max x (min a (x + r - 1)), max y (min b (y + r - 1)), by omega, by omega⟩
  · rintro ⟨a', b', h, h'⟩
    omega

namespace Cell

variable {c a n : Cell} {l : Nat}

/-! ## The grid of a level -/

/-- The cell of a level at a column and a row of its grid, which may lie outside the face. -/
def onGrid (face l : Nat) (x y : Int) : Cell :=
  (Place.wrap face (x * sideAt l) (y * sideAt l)).cell l

/-- The side of the block that a cell fills on the grid of a level. -/
def span (c : Cell) (l : Nat) : Nat :=
  c.side / sideAt l

/-- The column of the block of a cell. -/
def column (c : Cell) (l : Nat) : Nat :=
  c.place.i / c.side * c.span l

/-- The row of the block of a cell. -/
def row (c : Cell) (l : Nat) : Nat :=
  c.place.j / c.side * c.span l

theorem faceSide_cast_eq_mul (hl : l ≤ leafLevel) : (faceSide : Int) = 2 ^ l * sideAt l := by
  rw [faceSide_eq_mul hl]
  push_cast
  rfl

theorem two_pow_cast (l : Nat) : ((2 ^ l : Nat) : Int) = 2 ^ l := by
  push_cast
  rfl

section Grid

variable (hcl : c.level ≤ l)
include hcl

theorem span_mul : c.span l * sideAt l = c.side :=
  Nat.div_mul_cancel (sideAt_dvd hcl)

theorem span_pos : 0 < c.span l := by
  apply Nat.pos_of_mul_pos_right (b := sideAt l)
  rw [span_mul hcl]
  exact side_pos c

theorem span_eq (hl : l ≤ leafLevel) : c.span l = 2 ^ (l - c.level) := by
  rw [span, side_eq_sideAt, sideAt_eq, sideAt_eq, Nat.pow_div (by omega) (by decide)]
  congr 1
  omega

theorem column_mul : c.column l * sideAt l = c.corner.i := by
  rw [column, Nat.mul_assoc, span_mul hcl, corner]

theorem row_mul : c.row l * sideAt l = c.corner.j := by
  rw [row, Nat.mul_assoc, span_mul hcl, corner]

end Grid

theorem onFace_mul_iff (hl : l ≤ leafLevel) {x y : Int} :
    OnFace (x * sideAt l) (y * sideAt l) ↔ 0 ≤ x ∧ x < 2 ^ l ∧ 0 ≤ y ∧ y < 2 ^ l := by
  have hpos : (0 : Int) < sideAt l := Int.natCast_pos.mpr (sideAt_pos l)
  rw [OnFace, faceSide_cast_eq_mul hl, Int.mul_lt_mul_right hpos, Int.mul_lt_mul_right hpos,
    Int.mul_nonneg_iff_of_pos_right hpos, Int.mul_nonneg_iff_of_pos_right hpos]

/-- What the walk around a block finds at a column and a row. -/
theorem near_ancestor {face : Nat} (hl : l ≤ leafLevel) {x y i j : Int} {onFace : Bool}
    (hi : i = x * sideAt l) (hj : j = y * sideAt l)
    (h : onFace = true ↔ 0 ≤ x ∧ x < 2 ^ l ∧ 0 ≤ y ∧ y < 2 ^ l) :
    (near face i j onFace).ancestor l = onGrid face l x y := by
  rw [near_eq (h.trans (hi ▸ hj ▸ (onFace_mul_iff hl).symm)), hi, hj]
  rfl

/-- Where a block lies between the borders of its face, in leaves and on the grid. -/
theorem block_bounds (hcl : c.level ≤ l) (hl : l ≤ leafLevel) {t : Nat} (ht : t < faceSide) :
    t / c.side * c.span l + c.span l ≤ 2 ^ l ∧
      (((t / c.side * c.side : Nat) : Int) - c.side ≥ 0 ↔ 1 ≤ t / c.side * c.span l) ∧
      (((t / c.side * c.side : Nat) : Int) + c.side < faceSide ↔
        t / c.side * c.span l + c.span l < 2 ^ l) := by
  have hpos := sideAt_pos l
  have hspan := span_pos hcl
  have hside := span_mul hcl
  have hface := faceSide_eq_mul hl
  have hq : t / c.side < 2 ^ c.level := by
    rw [Nat.div_lt_iff_lt_mul (side_pos c), side_eq_sideAt, ← faceSide_eq_mul (level_le c)]
    exact ht
  have hwidth : 2 ^ c.level * c.span l = 2 ^ l := by
    apply Nat.eq_of_mul_eq_mul_right hpos
    rw [Nat.mul_assoc, hside, ← hface, side_eq_sideAt, ← faceSide_eq_mul (level_le c)]
  have hend : (t / c.side + 1) * c.span l ≤ 2 ^ l := hwidth ▸ Nat.mul_le_mul_right _ hq
  have hfirst : ((t / c.side * c.side : Nat) : Int) - c.side ≥ 0 ↔ 1 ≤ t / c.side := by
    have := side_pos c
    rcases Nat.eq_zero_or_pos (t / c.side) with h0 | h0
    · rw [h0]; omega
    · have := Nat.mul_le_mul_right c.side h0
      omega
  have hlast : ((t / c.side * c.side : Nat) : Int) + c.side < faceSide ↔
      (t / c.side + 1) * c.span l * sideAt l < 2 ^ l * sideAt l := by
    rw [Nat.mul_assoc, hside, ← hface, Nat.succ_mul]
    omega
  refine ⟨by rw [← Nat.succ_mul]; exact hend, hfirst.trans ?_, hlast.trans ?_⟩
  · rw [Nat.one_le_iff_ne_zero, Nat.one_le_iff_ne_zero, Ne, Ne, Nat.mul_eq_zero]
    omega
  · rw [Nat.mul_lt_mul_right hpos, Nat.succ_mul]

theorem column_bounds (hcl : c.level ≤ l) (hl : l ≤ leafLevel) :
    c.column l + c.span l ≤ 2 ^ l ∧ ((c.corner.i : Int) - c.side ≥ 0 ↔ 1 ≤ c.column l) ∧
      ((c.corner.i : Int) + c.side < faceSide ↔ c.column l + c.span l < 2 ^ l) :=
  block_bounds hcl hl (Curve.decode_lt (faceOrientation c.face) leafLevel (c.word.toNat / 2)).1

theorem row_bounds (hcl : c.level ≤ l) (hl : l ≤ leafLevel) :
    c.row l + c.span l ≤ 2 ^ l ∧ ((c.corner.j : Int) - c.side ≥ 0 ↔ 1 ≤ c.row l) ∧
      ((c.corner.j : Int) + c.side < faceSide ↔ c.row l + c.span l < 2 ^ l) :=
  block_bounds hcl hl (Curve.decode_lt (faceOrientation c.face) leafLevel (c.word.toNat / 2)).2

/-- **The neighbours of a cell are the cells on the ring around its block.** -/
theorem neighbours_eq (hcl : c.level ≤ l) (hl : l ≤ leafLevel) :
    c.neighbours l =
      (ring (c.column l) (c.row l) (c.span l)).map fun q => onGrid c.face l q.1 q.2 := by
  obtain ⟨hx, hwest, heast⟩ := column_bounds hcl hl
  obtain ⟨hy, hsouth, hnorth⟩ := row_bounds hcl hl
  have hpos := span_pos hcl
  have hside : (c.side : Int) = c.span l * sideAt l := by
    rw [← span_mul hcl, Int.natCast_mul]
  have hi : (c.corner.i : Int) = c.column l * sideAt l := by
    rw [← column_mul hcl, Int.natCast_mul]
  have hj : (c.corner.j : Int) = c.row l * sideAt l := by
    rw [← row_mul hcl, Int.natCast_mul]
  have hbelow : (c.corner.j : Int) - sideAt l ≥ 0 ↔ 1 ≤ c.row l := by
    have hone := sideAt_pos l
    rw [hj]
    rcases Nat.eq_zero_or_pos (c.row l) with h0 | h0
    · rw [h0]; omega
    · have := Nat.mul_le_mul_right (sideAt l) h0
      rw [← Int.natCast_mul]
      omega
  have hgrid := two_pow_cast l
  -- the columns and rows that the walk visits
  have hw : (c.corner.i : Int) - sideAt l = (c.column l - 1) * sideAt l := by rw [hi]; ring
  have he : (c.corner.i : Int) + c.side = (c.column l + c.span l) * sideAt l := by
    rw [hi, hside]; ring
  have hs : (c.corner.j : Int) - sideAt l = (c.row l - 1) * sideAt l := by rw [hj]; ring
  have hn : (c.corner.j : Int) + c.side = (c.row l + c.span l) * sideAt l := by
    rw [hj, hside]; ring
  have hin (n : Nat) : (c.corner.i : Int) + sideAt l * n = (c.column l + n) * sideAt l := by
    rw [hi]; ring
  have hjn (n : Nat) : (c.corner.j : Int) + sideAt l * n = (c.row l + n) * sideAt l := by
    rw [hj]; ring
  unfold neighbours ring
  simp only [List.map_append, List.map_flatMap, List.map_cons, List.map_nil, ← Int.sub_eq_add_neg,
    hwest, heast, hsouth, hnorth, hbelow]
  refine congrArg₂ (· ++ ·) (congrArg₂ (· ++ ·) ?_ ?_) ?_
  · rw [near_ancestor hl hw hs (by simp; omega), near_ancestor hl he hs (by simp; omega)]
    rfl
  · refine List.flatMap_congr fun n hmem => ?_
    have hlt : n < c.span l := List.mem_range.mp hmem
    rw [near_ancestor hl (hin n) hs (by simp; omega), near_ancestor hl (hin n) hn (by simp; omega),
      near_ancestor hl hw (hjn n) (by simp; omega), near_ancestor hl he (hjn n) (by simp; omega)]
    rfl
  · rw [near_ancestor hl hw hn (by simp; omega), near_ancestor hl he hn (by simp; omega)]
    rfl

theorem length_neighbours (hcl : c.level ≤ l) (hl : l ≤ leafLevel) :
    (c.neighbours l).length = 4 * 2 ^ (l - c.level) + 4 := by
  rw [neighbours_eq hcl hl, List.length_map, length_ring, span_eq hcl hl]

/-! ## Cells of the grid -/

section OnGrid

variable {face : Nat} {x y : Int} (hf : face < faceCount) (hl : l ≤ leafLevel)
include hf hl

theorem isValid_onGrid (x y : Int) : (onGrid face l x y).isValid = true :=
  isValid_cell (Place.onCube_wrap hf _ _) hl

theorem level_onGrid (x y : Int) : (onGrid face l x y).level = l :=
  level_cell (Place.onCube_wrap hf _ _) hl

theorem sameSquare_place_onGrid (h : OnFace (x * sideAt l) (y * sideAt l)) :
    (⟨face, (x * sideAt l).toNat, (y * sideAt l).toNat⟩ : Place).SameSquare (sideAt l)
      (onGrid face l x y).place := by
  have hsame := sameSquare_place_cell (Place.onCube_wrap hf (x * sideAt l) (y * sideAt l)) hl
  rw [Place.wrap, if_pos h] at hsame
  rw [onGrid, Place.wrap, if_pos h]
  exact hsame

end OnGrid

theorem neighbours_spec (hc : c.isValid = true) (hcl : c.level ≤ l) (hl : l ≤ leafLevel) :
    ∀ n ∈ c.neighbours l, n.isValid = true ∧ n.level = l := by
  intro n hn
  rw [neighbours_eq hcl hl] at hn
  obtain ⟨⟨x, y⟩, _, rfl⟩ := List.mem_map.mp hn
  exact ⟨isValid_onGrid (face_lt hc) hl x y, level_onGrid (face_lt hc) hl x y⟩

theorem span_self (h : c.level = l) : c.span l = 1 := by
  rw [span, side_eq_sideAt, h, Nat.div_self (sideAt_pos l)]

theorem column_self (h : c.level = l) : c.column l = c.place.i / sideAt l := by
  rw [column, span_self h, Nat.mul_one, side_eq_sideAt, h]

theorem row_self (h : c.level = l) : c.row l = c.place.j / sideAt l := by
  rw [row, span_self h, Nat.mul_one, side_eq_sideAt, h]

theorem toNat_mul_sideAt_div (k l : Nat) : ((k : Int) * sideAt l).toNat / sideAt l = k := by
  rw [← Int.natCast_mul, Int.toNat_natCast, Nat.mul_div_cancel _ (sideAt_pos l)]

/-- The column and the row of a cell of the grid on its face. -/
theorem onGrid_spec {face : Nat} {x y : Int} (hf : face < faceCount) (hl : l ≤ leafLevel)
    (h : 0 ≤ x ∧ x < 2 ^ l ∧ 0 ≤ y ∧ y < 2 ^ l) :
    (onGrid face l x y).face = face ∧ (onGrid face l x y).column l = x ∧
      (onGrid face l x y).row l = y := by
  have hlevel := level_onGrid hf hl x y
  obtain ⟨hface, hi, hj⟩ := sameSquare_place_onGrid hf hl ((onFace_mul_iff hl).mpr h)
  lift x to Nat using h.1
  lift y to Nat using h.2.2.1
  dsimp only at hi hj
  rw [toNat_mul_sideAt_div] at hi hj
  rw [column_self hlevel, row_self hlevel, ← hi, ← hj]
  exact ⟨hface.symm, rfl, rfl⟩

/-- Every cell of a level is found on the grid at its column and row. -/
theorem onGrid_self (ha : a.isValid = true) (hal : a.level = l) :
    onGrid a.face l (a.column l) (a.row l) = a := by
  have hl : l ≤ leafLevel := hal ▸ level_le a
  have hp := onCube_place ha
  have hx := (column_bounds (Nat.le_of_eq hal) hl).1
  have hy := (row_bounds (Nat.le_of_eq hal) hl).1
  rw [span_self hal] at hx hy
  have hgrid := two_pow_cast l
  have hon : OnFace (a.column l * sideAt l) (a.row l * sideAt l) :=
    (onFace_mul_iff hl).mpr (by omega)
  have hcell := cell_place ha
  rw [hal] at hcell
  refine Eq.trans ?_ hcell
  rw [onGrid, cell_eq_cell_iff (Place.onCube_wrap (face_lt ha) _ _) hl hp, Place.wrap, if_pos hon]
  refine ⟨rfl, ?_, ?_⟩
  · dsimp only
    rw [toNat_mul_sideAt_div, column_self hal]
  · dsimp only
    rw [toNat_mul_sideAt_div, row_self hal]

/-- A square of the grid lies in the square of a cell along one axis. -/
theorem div_side_eq_iff (hcl : c.level ≤ l) (t u : Nat) :
    t / c.side = u / c.side ↔
      u / c.side * c.span l ≤ t / sideAt l ∧ t / sideAt l < u / c.side * c.span l + c.span l := by
  rw [← span_mul hcl, Nat.mul_comm (c.span l), ← Nat.div_div_eq_div_mul,
    ← Nat.div_div_eq_div_mul, Nat.div_eq_iff (span_pos hcl)]
  have := span_pos hcl
  omega

/-- **A cell covers the cells of its block.** -/
theorem covers_iff_inBlock (hc : c.isValid = true) (hcl : c.level ≤ l) (ha : a.isValid = true)
    (hal : a.level = l) : c.Covers a ↔ a.face = c.face ∧
      InBlock (c.column l) (c.row l) (c.span l) (a.column l) (a.row l) := by
  have hcell := cell_place ha
  rw [hal] at hcell
  have hcov := covers_cell_iff (onCube_place ha) (hal ▸ level_le a) hc hcl
  rw [hcell] at hcov
  rw [hcov, InBlock, column_self hal, row_self hal]
  constructor
  · rintro ⟨hface, hi, hj⟩
    rw [div_side_eq_iff hcl] at hi hj
    rw [column, row]
    exact ⟨hface, by omega⟩
  · rintro ⟨hface, hblock⟩
    rw [column, row] at hblock
    refine ⟨hface, ?_, ?_⟩
    · rw [div_side_eq_iff hcl]
      omega
    · rw [div_side_eq_iff hcl]
      omega

theorem onGrid_of_inBlock (hc : c.isValid = true) (hcl : c.level ≤ l) (hl : l ≤ leafLevel)
    {x y : Int} (h : InBlock (c.column l) (c.row l) (c.span l) x y) :
    (onGrid c.face l x y).face = c.face ∧ (onGrid c.face l x y).column l = x ∧
      (onGrid c.face l x y).row l = y := by
  have hx := (column_bounds hcl hl).1
  have hy := (row_bounds hcl hl).1
  have hgrid := two_pow_cast l
  rw [InBlock] at h
  exact onGrid_spec (face_lt hc) hl (by omega)

theorem covers_iff_exists_inBlock (hc : c.isValid = true) (hcl : c.level ≤ l) (hl : l ≤ leafLevel) :
    (n.isValid = true ∧ n.level = l ∧ c.Covers n) ↔
      ∃ x y, InBlock (c.column l) (c.row l) (c.span l) x y ∧ n = onGrid c.face l x y := by
  constructor
  · rintro ⟨hn, hnl, hcov⟩
    obtain ⟨hface, hblock⟩ := (covers_iff_inBlock hc hcl hn hnl).mp hcov
    exact ⟨_, _, hblock, by rw [← hface, onGrid_self hn hnl]⟩
  · rintro ⟨x, y, hblock, rfl⟩
    have hv := isValid_onGrid (face_lt hc) hl x y
    have hlevel := level_onGrid (face_lt hc) hl x y
    obtain ⟨hface, hcol, hrow⟩ := onGrid_of_inBlock hc hcl hl hblock
    refine ⟨hv, hlevel, (covers_iff_inBlock hc hcl hv hlevel).mpr ⟨hface, ?_⟩⟩
    rw [hcol, hrow]
    exact hblock

/-! ## Neighbourhoods -/

/-- A cell of a level is close to another cell, not finer than that: it lies below it or is one of
its neighbours. -/
def CloseTo (l : Nat) (c n : Cell) : Prop :=
  (n.isValid = true ∧ n.level = l ∧ c.Covers n) ∨ n ∈ c.neighbours l

/-- The cells close to a cell are those of its block and of the ring around it. -/
theorem closeTo_iff (hc : c.isValid = true) (hcl : c.level ≤ l) (hl : l ≤ leafLevel) :
    CloseTo l c n ↔ ∃ x y, InBlock (c.column l - 1) (c.row l - 1) (c.span l + 2) x y ∧
      n = onGrid c.face l x y := by
  rw [CloseTo, covers_iff_exists_inBlock hc hcl hl, neighbours_eq hcl hl, List.mem_map]
  constructor
  · rintro (⟨x, y, h, rfl⟩ | ⟨⟨x, y⟩, h, rfl⟩)
    · refine ⟨x, y, ?_, rfl⟩
      rw [InBlock] at h ⊢
      omega
    · exact ⟨x, y, (mem_ring.mp h).1, rfl⟩
  · rintro ⟨x, y, h, rfl⟩
    by_cases hin : InBlock (c.column l) (c.row l) (c.span l) x y
    · exact Or.inl ⟨x, y, hin, rfl⟩
    · exact Or.inr ⟨(x, y), mem_ring.mpr ⟨h, hin⟩, rfl⟩

/-- **One walk around a cell finds what the walks around its parts find.** -/
theorem closeTo_iff_exists (hc : c.isValid = true) (hcl : c.level ≤ l) (hl : l ≤ leafLevel) :
    CloseTo l c n ↔
      ∃ a : Cell, a.isValid = true ∧ a.level = l ∧ c.Covers a ∧ CloseTo l a n := by
  rw [closeTo_iff hc hcl hl]
  constructor
  · rintro ⟨x, y, h, rfl⟩
    obtain ⟨x', y', hin, hnear⟩ := (inBlock_grown_iff (span_pos hcl)).mp h
    obtain ⟨hv, hlevel, hcov⟩ := (covers_iff_exists_inBlock hc hcl hl).mpr ⟨x', y', hin, rfl⟩
    obtain ⟨hface, hcol, hrow⟩ := onGrid_of_inBlock hc hcl hl hin
    refine ⟨_, hv, hlevel, hcov, (closeTo_iff hv (Nat.le_of_eq hlevel) hl).mpr ⟨x, y, ?_, ?_⟩⟩
    · rw [hcol, hrow, span_self hlevel]
      exact hnear
    · rw [hface]
  · rintro ⟨a, ha, hal, hcov, hclose⟩
    obtain ⟨hface, hin⟩ := (covers_iff_inBlock hc hcl ha hal).mp hcov
    obtain ⟨x, y, hnear, rfl⟩ := (closeTo_iff ha (Nat.le_of_eq hal) hl).mp hclose
    rw [span_self hal] at hnear
    refine ⟨x, y, (inBlock_grown_iff (span_pos hcl)).mpr ⟨_, _, hin, hnear⟩, by rw [hface]⟩

/-- The leaves of a cell and its neighbours are those of the cells close to it. -/
theorem hasLeaf_cons_neighbours_iff (hc : c.isValid = true) (hcl : c.level ≤ l)
    (hl : l ≤ leafLevel) (x : UInt64) :
    QuadSphere.HasLeaf (c :: c.neighbours l) x ↔ ∃ n, CloseTo l c n ∧ n.HasLeaf x := by
  rw [hasLeaf_cons, hasLeaf_iff_exists_covers hc hcl hl]
  constructor
  · rintro (⟨n, hn, hx⟩ | ⟨n, hn, hx⟩)
    · exact ⟨n, Or.inl hn, hx⟩
    · exact ⟨n, Or.inr hn, hx⟩
  · rintro ⟨n, hn | hn, hx⟩
    · exact Or.inl ⟨n, hn, hx⟩
    · exact Or.inr ⟨n, hn, hx⟩

theorem neighbours?_eq_ok (hcl : c.level ≤ l) (hl : l ≤ leafLevel) :
    c.neighbours? l = .ok (c.neighbours l) :=
  if_pos ⟨hcl, hl⟩

end Cell

end QuadSphere
