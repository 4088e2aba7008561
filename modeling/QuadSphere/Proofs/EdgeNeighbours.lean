import QuadSphere.Proofs.Seams

/-!
# Neighbours across the edges of a cell

`Cell.beside` is the cell across one side of a cell.  On the face it is the next square of the grid,
and the step back leads to the cell again (`beside_of_onFace`).  Over a seam it is the square that
`Place.beyond_eq` names, and the step back is the other side of the same seam.

A row or column that is rounded up to the next leaf matters only if this leaf lies in the next cell
(`Cell.SlipsTo`), which happens to leaves and their parents near a corner of the cube.  There the
step back misses the cell, and everywhere else it leads to it.

* `corner_beside`: where the square across a side begins, on the face.
* `edgeNeighbours_of_valid`: what the neighbours are, and when the cell is a neighbour of them.
-/

namespace QuadSphere

/-! ## Steps to a side -/

namespace Side

def opposite : Side → Side
  | south => north
  | east => west
  | north => south
  | west => east

/-- The column and row some way further to a side. -/
def shift (s : Side) (d i j : Int) : Int × Int :=
  match s with
  | south => (i, j - d)
  | east => (i + d, j)
  | north => (i, j + d)
  | west => (i - d, j)

/-- The number of a place along a side. -/
def along (s : Side) (p : Place) : Nat :=
  match s with
  | south => p.i
  | east => p.j
  | north => p.i
  | west => p.j

end Side

/-- The column and row some way further to a side lie outside the face. -/
def Place.Leaves (p : Place) (s : Side) (d : Nat) : Prop :=
  ¬OnFace (s.shift d p.i p.j).1 (s.shift d p.i p.j).2

variable {face t u d : ℕ} {i j : ℤ} {s s' : Side} {p p' : Place}

theorem Side.shift_opposite (s : Side) (d i j : ℤ) :
    s.opposite.shift d (s.shift d i j).1 (s.shift d i j).2 = (i, j) := by
  cases s with
  | south => exact Prod.ext rfl (sub_add_cancel j d)
  | east => exact Prod.ext (add_sub_cancel_right i d) rfl
  | north => exact Prod.ext rfl (add_sub_cancel_right j d)
  | west => exact Prod.ext (sub_add_cancel i d) rfl

theorem Side.shift_ne (s : Side) (i j : ℤ) : s.shift 1 i j ≠ (i, j) := by
  cases s <;> rw [Side.shift, Ne, Prod.mk.injEq] <;> omega

/-- A step by the side of a square is a step by one on the grid of squares. -/
theorem Side.shift_div (hd : 0 < d) (s : Side) (i j : ℤ) :
    ((s.shift d i j).1 / d, (s.shift d i j).2 / d) = s.shift 1 (i / d) (j / d) := by
  have hself : (d : ℤ) / d = 1 := Int.ediv_self (by omega)
  have hadd : ∀ k : ℤ, (k + d) / d = k / d + 1 := fun k => by
    rw [Int.add_ediv_of_dvd_right (dvd_refl _), hself]
  have hsub : ∀ k : ℤ, (k - d) / d = k / d - 1 := fun k => by
    rw [Int.sub_ediv_of_dvd k (dvd_refl _), hself]
  cases s with
  | south => exact Prod.ext rfl (hsub j)
  | east => exact Prod.ext (hadd i) rfl
  | north => exact Prod.ext rfl (hadd j)
  | west => exact Prod.ext (hsub i) rfl

theorem Side.shift_mul (s : Side) (d i j : ℤ) :
    s.shift d (i * d) (j * d) = ((s.shift 1 i j).1 * d, (s.shift 1 i j).2 * d) := by
  cases s with
  | south => exact Prod.ext rfl (sub_one_mul j d).symm
  | east => exact Prod.ext (add_one_mul i d).symm rfl
  | north => exact Prod.ext rfl (add_one_mul j d).symm
  | west => exact Prod.ext (sub_one_mul i d).symm rfl

theorem Side.along_lt (hp : p.OnCube) (s : Side) : s.along p < faceSide := by
  cases s with
  | south => exact hp.i_lt
  | east => exact hp.j_lt
  | north => exact hp.i_lt
  | west => exact hp.j_lt

theorem Side.along_eq_or (s : Side) (p : Place) : s.along p = p.i ∨ s.along p = p.j := by
  cases s with
  | south => exact Or.inl rfl
  | east => exact Or.inr rfl
  | north => exact Or.inl rfl
  | west => exact Or.inr rfl

theorem Side.onCube_place (hf : face < 6) (ht : t < faceSide) (s : Side) :
    (s.place face t).OnCube := by
  have hpos : 0 < faceSide := by decide
  have hlast : faceSide - 1 < faceSide := by decide
  cases s with
  | south => exact ⟨hf, ht, hpos⟩
  | east => exact ⟨hf, hlast, ht⟩
  | north => exact ⟨hf, ht, hlast⟩
  | west => exact ⟨hf, hpos, ht⟩

theorem Side.face_place (face : ℕ) (s : Side) (t : ℕ) : (s.place face t).face = face := by
  cases s <;> rfl

theorem Side.along_place (face : ℕ) (s : Side) (t : ℕ) : s.along (s.place face t) = t := by
  cases s <;> rfl

/-- A place from which a step leaves the face lies next to the side. -/
theorem Place.Leaves.over (h : p.Leaves s d) (hp : p.OnCube) :
    s.Over (s.shift d p.i p.j).1 (s.shift d p.i p.j).2 (s.along p) := by
  obtain ⟨_, hi, hj⟩ := hp
  rw [Leaves, OnFace] at h
  cases s with
  | south => exact ⟨rfl, by simp only [Side.shift] at h ⊢; omega⟩
  | east => exact ⟨by simp only [Side.shift] at h ⊢; omega, rfl⟩
  | north => exact ⟨rfl, by simp only [Side.shift] at h ⊢; omega⟩
  | west => exact ⟨by simp only [Side.shift] at h ⊢; omega, rfl⟩

/-! ## Squares along a side -/

theorem Side.along_div (h : p.SameSquare d p') (s : Side) : s.along p / d = s.along p' / d := by
  cases s with
  | south => exact h.i_eq
  | east => exact h.j_eq
  | north => exact h.i_eq
  | west => exact h.j_eq

theorem Side.sameSquare_place_iff :
    (s.place face t).SameSquare d (s.place face u) ↔ t / d = u / d := by
  constructor
  · intro h
    have hdiv := Side.along_div h s
    rwa [Side.along_place, Side.along_place] at hdiv
  · intro h
    cases s with
    | south => exact ⟨rfl, h, rfl⟩
    | east => exact ⟨rfl, rfl, h⟩
    | north => exact ⟨rfl, h, rfl⟩
    | west => exact ⟨rfl, rfl, h⟩

theorem div_eq_first_iff (hd : 0 < d) : t / d = 0 / d ↔ (t : ℤ) - d < 0 := by
  rw [Nat.zero_div, Nat.div_eq_zero_iff_lt hd]
  omega

theorem div_eq_last_iff (hd : 0 < d) (hdvd : d ∣ faceSide) (ht : t < faceSide) :
    t / d = (faceSide - 1) / d ↔ faceSide ≤ (t : ℤ) + d := by
  obtain ⟨m, hm⟩ := hdvd
  rw [hm] at ht ⊢
  obtain ⟨k, rfl⟩ : ∃ k, m = k + 1 := ⟨m - 1, by
    have := Nat.pos_of_mul_pos_left (Nat.zero_lt_of_lt ht)
    omega⟩
  have hlast : (d * (k + 1) - 1) / d = k := by
    have h := Nat.mul_sub_div 0 d (k + 1) (Nat.zero_lt_of_lt ht)
    rwa [Nat.zero_div, Nat.zero_add, Nat.add_sub_cancel] at h
  rw [hlast, Nat.div_eq_iff hd]
  rw [Nat.mul_succ] at ht ⊢
  rw [Nat.mul_comm]
  omega

/-- **A step leaves the face from the squares along the side.** -/
theorem leaves_iff (hp : p.OnCube) (hd : 0 < d) (hdvd : d ∣ faceSide) :
    p.Leaves s d ↔ p.SameSquare d (s.place p.face (s.along p)) := by
  have hfirst {x : ℕ} := div_eq_first_iff (t := x) hd
  have hlast {x : ℕ} (hx : x < faceSide) := div_eq_last_iff hd hdvd hx
  constructor
  · intro h
    have hover := h.over hp
    cases s with
    | south => exact ⟨rfl, rfl, hfirst.mpr hover.2⟩
    | east => exact ⟨rfl, (hlast hp.i_lt).mpr hover.1, rfl⟩
    | north => exact ⟨rfl, rfl, (hlast hp.j_lt).mpr hover.2⟩
    | west => exact ⟨rfl, hfirst.mpr hover.1, rfl⟩
  · intro h hon
    obtain ⟨hi, hi', hj, hj'⟩ := hon
    cases s with
    | south => exact absurd (hfirst.mp h.j_eq) (not_lt.mpr hj)
    | east => exact absurd ((hlast hp.i_lt).mp h.i_eq) (not_le.mpr hi')
    | north => exact absurd ((hlast hp.j_lt).mp h.j_eq) (not_le.mpr hj')
    | west => exact absurd (hfirst.mp h.i_eq) (not_lt.mpr hi)

/-! ## Numbers along a seam -/

theorem Side.turned_lt (face : ℕ) (s : Side) (ht : t < faceSide) : s.turned face t < faceSide := by
  rw [Side.turned]
  split <;> omega

/-- The two faces of a seam agree on whether its direction changes. -/
theorem Side.turned_across (hf : face < 6) (s : Side) (t : ℕ) :
    (s.across face).2.turned (s.across face).1 t = s.turned face t := by
  rw [Side.turned, across_across face hf s, Side.turned]
  exact if_congr eq_comm rfl rfl

theorem landing_div_eq_iff : landing t / d = t / d ↔ ¬(t < 32 ∧ (t + 1) % d = 0) := by
  rw [landing]
  split
  · next hfew =>
    rw [Nat.succ_div]
    split
    · next hdvd => exact iff_of_false (by omega) (not_not.mpr ⟨hfew, Nat.mod_eq_zero_of_dvd hdvd⟩)
    · next hdvd => exact iff_of_true rfl fun h => hdvd (Nat.dvd_of_mod_eq_zero h.2)
  · next hmany => exact iff_of_true rfl fun h => hmany h.1

theorem landing_div (d t : ℕ) : landing t / d = t / d ∨ landing t / d = t / d + 1 := by
  rw [landing]
  split
  · rw [Nat.succ_div]
    split
    · exact Or.inr rfl
    · exact Or.inl rfl
  · exact Or.inl rfl

theorem lt_of_landing_div_ne (h : landing t / d ≠ t / d) : t < 32 ∧ d ≤ 32 := by
  obtain ⟨hfew, hmod⟩ := not_not.mp (mt landing_div_eq_iff.mpr h)
  have := Nat.le_of_dvd (Nat.succ_pos t) (Nat.dvd_of_mod_eq_zero hmod)
  omega

theorem reverse_div (hdvd : d ∣ faceSide) (ht : t < faceSide) :
    (faceSide - 1 - t) / d = faceSide / d - 1 - t / d ∧ t / d < faceSide / d := by
  obtain ⟨m, hm⟩ := hdvd
  rw [hm] at ht ⊢
  have hd : 0 < d := Nat.pos_of_mul_pos_right (Nat.zero_lt_of_lt ht)
  have h := Nat.mul_sub_div t d m ht
  rw [Nat.mul_div_cancel_left m hd, Nat.sub_sub, Nat.add_comm 1, h, Nat.sub_sub, Nat.add_comm 1]
  exact ⟨rfl, Nat.div_lt_of_lt_mul ht⟩

theorem dvd_of_dvd_reverse (hdvd : d ∣ faceSide) (ht : t < faceSide)
    (h : d ∣ faceSide - 1 - t + 1) : d ∣ t := by
  generalize faceSide = m at hdvd ht h
  rw [show m - 1 - t + 1 = m - t by omega] at h
  exact (Nat.dvd_sub_iff_right ht.le hdvd).mp h

theorem landing_back_reversed (hdvd : d ∣ faceSide) (ht : t < faceSide) (hu : u < faceSide)
    (h : u / d = landing (faceSide - 1 - t) / d) :
    landing (faceSide - 1 - u) / d = t / d ↔
      landing (faceSide - 1 - t) / d = (faceSide - 1 - t) / d ∧
        landing (faceSide - 1 - u) / d = (faceSide - 1 - u) / d := by
  have hthere := landing_div d (faceSide - 1 - t)
  have hback := landing_div d (faceSide - 1 - u)
  obtain ⟨hrt, hlt⟩ := reverse_div hdvd ht
  obtain ⟨hru, hlu⟩ := reverse_div hdvd hu
  have hd : 0 < d := Nat.pos_of_dvd_of_pos hdvd (by decide)
  -- one of the two squares is far from the start of its side
  have htwice : landing (faceSide - 1 - t) / d = (faceSide - 1 - t) / d ∨
      landing (faceSide - 1 - u) / d = (faceSide - 1 - u) / d := by
    by_contra hcon
    rw [not_or] at hcon
    obtain ⟨h1, h2⟩ := lt_of_landing_div_ne hcon.1
    obtain ⟨h3, _⟩ := lt_of_landing_div_ne hcon.2
    have hle : landing (faceSide - 1 - t) ≤ 32 := by
      rw [landing, if_pos h1]
      exact h1
    have hsum := Nat.div_add_mod u d
    have hmod := Nat.mod_lt u hd
    have hmul := Nat.mul_div_le (landing (faceSide - 1 - t)) d
    rw [h] at hsum
    have hside : faceSide = 2 ^ 30 := rfl
    omega
  omega

/-- **There and back over a seam.**  The way back leads to the same square unless a coordinate is
rounded into the next square on the way there or on the way back. -/
theorem landing_back_iff (hdvd : d ∣ faceSide) (ht : t < faceSide) (hu : u < faceSide)
    (h : u / d = landing (s.turned face t) / d) :
    landing (s.turned face u) / d = t / d ↔
      landing (s.turned face t) / d = s.turned face t / d ∧
        landing (s.turned face u) / d = s.turned face u / d := by
  by_cases hturn : face % 2 = (s.across face).1 % 2
  · rw [Side.turned, if_pos hturn] at h ⊢
    rw [Side.turned, if_pos hturn]
    exact landing_back_reversed hdvd ht hu h
  · rw [Side.turned, if_neg hturn] at h ⊢
    rw [Side.turned, if_neg hturn]
    have hthere := landing_div d t
    have hback := landing_div d u
    omega

/-! ## The cell beside a cell -/

namespace Cell

variable {c n : Cell} {l : ℕ}

/-- The cell of the same level across one side of a cell. -/
def beside (c : Cell) (s : Side) : Cell :=
  (Place.wrap c.face (s.shift c.side c.place.i c.place.j).1
    (s.shift c.side c.place.i c.place.j).2).cell c.level

theorem edgeNeighbours_eq (hc : c.isValid = true) :
    c.edgeNeighbours = [c.beside .south, c.beside .east, c.beside .north, c.beside .west] := by
  obtain ⟨_, hi, hj⟩ := onCube_place hc
  have hside := side_pos c
  simp only [edgeNeighbours, List.map_cons, List.map_nil]
  rw [near_eq (by rw [decide_eq_true_iff, OnFace]; omega),
    near_eq (by rw [decide_eq_true_iff, OnFace]; omega),
    near_eq (by rw [decide_eq_true_iff, OnFace]; omega),
    near_eq (by rw [decide_eq_true_iff, OnFace]; omega)]
  rfl

theorem mem_edgeNeighbours (hc : c.isValid = true) :
    n ∈ c.edgeNeighbours ↔ ∃ s, n = c.beside s := by
  rw [edgeNeighbours_eq hc]
  simp only [List.mem_cons, List.not_mem_nil, or_false]
  constructor
  · rintro (h | h | h | h)
    · exact ⟨_, h⟩
    · exact ⟨_, h⟩
    · exact ⟨_, h⟩
    · exact ⟨_, h⟩
  · rintro ⟨s, rfl⟩
    cases s <;> simp

theorem isValid_beside (hc : c.isValid = true) (s : Side) : (c.beside s).isValid = true :=
  isValid_cell (Place.onCube_wrap (face_lt hc) _ _) (level_le c)

theorem level_beside (hc : c.isValid = true) (s : Side) : (c.beside s).level = c.level :=
  level_cell (Place.onCube_wrap (face_lt hc) _ _) (level_le c)

theorem side_beside (hc : c.isValid = true) (s : Side) : (c.beside s).side = c.side := by
  rw [side_eq_sideAt, side_eq_sideAt, level_beside hc]

/-! ## On the face -/

theorem onFace_iff_div (hl : l ≤ leafLevel) : OnFace i j ↔
    0 ≤ i / sideAt l ∧ i / sideAt l < 2 ^ l ∧ 0 ≤ j / sideAt l ∧ j / sideAt l < 2 ^ l := by
  have hpos : (0 : ℤ) < sideAt l := Int.natCast_pos.mpr (sideAt_pos l)
  rw [Int.ediv_nonneg_iff_of_pos hpos, Int.ediv_nonneg_iff_of_pos hpos,
    Int.ediv_lt_iff_lt_mul hpos, Int.ediv_lt_iff_lt_mul hpos, ← faceSide_cast_eq_mul hl, OnFace]

theorem wrap_cell (hf : face < faceCount) (hl : l ≤ leafLevel) (h : OnFace i j) :
    (Place.wrap face i j).cell l = onGrid face l (i / sideAt l) (j / sideAt l) := by
  have hgrid := (onFace_mul_iff hl).mpr ((onFace_iff_div hl).mp h)
  rw [onGrid, cell_eq_cell_iff (Place.onCube_wrap hf _ _) hl (Place.onCube_wrap hf _ _),
    Place.wrap, Place.wrap, if_pos h, if_pos hgrid]
  lift i to ℕ using h.1
  lift j to ℕ using h.2.2.1
  refine ⟨rfl, ?_, ?_⟩
  · dsimp only
    rw [← Int.natCast_ediv, toNat_mul_sideAt_div, Int.toNat_natCast]
  · dsimp only
    rw [← Int.natCast_ediv, toNat_mul_sideAt_div, Int.toNat_natCast]

theorem shift_column_row (c : Cell) (s : Side) :
    s.shift 1 (c.column c.level) (c.row c.level) =
      ((s.shift c.side c.place.i c.place.j).1 / sideAt c.level,
        (s.shift c.side c.place.i c.place.j).2 / sideAt c.level) := by
  rw [column_self rfl, row_self rfl, side_eq_sideAt, Side.shift_div (sideAt_pos c.level)]
  rfl

theorem not_leaves_iff (c : Cell) (s : Side) : ¬c.place.Leaves s c.side ↔
    0 ≤ (s.shift 1 (c.column c.level) (c.row c.level)).1 ∧
      (s.shift 1 (c.column c.level) (c.row c.level)).1 < 2 ^ c.level ∧
      0 ≤ (s.shift 1 (c.column c.level) (c.row c.level)).2 ∧
      (s.shift 1 (c.column c.level) (c.row c.level)).2 < 2 ^ c.level := by
  rw [Place.Leaves, not_not, onFace_iff_div (level_le c), shift_column_row]

theorem beside_eq_onGrid (hc : c.isValid = true) (h : ¬c.place.Leaves s c.side) :
    c.beside s = onGrid c.face c.level (s.shift 1 (c.column c.level) (c.row c.level)).1
      (s.shift 1 (c.column c.level) (c.row c.level)).2 := by
  rw [beside, wrap_cell (face_lt hc) (level_le c) (not_not.mp h), shift_column_row]

/-- **On the face the step back leads to the cell again.** -/
theorem beside_of_onFace (hc : c.isValid = true) (h : ¬c.place.Leaves s c.side) :
    (c.beside s).face = c.face ∧ c.beside s ≠ c ∧ (c.beside s).beside s.opposite = c := by
  have hl := level_le c
  have hv := isValid_beside hc s
  have hlevel := level_beside hc s
  obtain ⟨hface, hcol, hrow⟩ := onGrid_spec (face_lt hc) hl ((not_leaves_iff c s).mp h)
  rw [← beside_eq_onGrid hc h] at hface hcol hrow
  have hback : s.opposite.shift 1 ((c.beside s).column (c.beside s).level)
      ((c.beside s).row (c.beside s).level) = (↑(c.column c.level), ↑(c.row c.level)) := by
    rw [hlevel, hcol, hrow, Side.shift_opposite]
  refine ⟨hface, ?_, ?_⟩
  · intro heq
    rw [heq] at hcol hrow
    exact Side.shift_ne s _ _ (Prod.ext hcol.symm hrow.symm)
  · have hx := (column_bounds (Nat.le_refl c.level) hl).1
    have hy := (row_bounds (Nat.le_refl c.level) hl).1
    rw [span_self rfl] at hx hy
    have hgrid := two_pow_cast c.level
    have hstay : ¬(c.beside s).place.Leaves s.opposite (c.beside s).side := by
      rw [not_leaves_iff, hback, hlevel]
      dsimp only
      omega
    rw [beside_eq_onGrid hv hstay, hback, hlevel, hface]
    exact onGrid_self hc rfl

/-- **On the face the square beside a cell begins one side further.** -/
theorem corner_beside (hc : c.isValid = true) (h : ¬c.place.Leaves s c.side) :
    (((c.beside s).corner.i : Int), ((c.beside s).corner.j : Int)) =
      s.shift c.side c.corner.i c.corner.j := by
  have hlevel := level_beside hc s
  obtain ⟨_, hcol, hrow⟩ := onGrid_spec (face_lt hc) (level_le c) ((not_leaves_iff c s).mp h)
  rw [← beside_eq_onGrid hc h] at hcol hrow
  rw [← column_mul hlevel.le, ← row_mul hlevel.le, ← column_mul (Nat.le_refl c.level),
    ← row_mul (Nat.le_refl c.level), side_eq_sideAt]
  push_cast
  rw [Side.shift_mul, hcol, hrow]

/-! ## Across a seam -/

/-- Over a seam the neighbour is the cell around the square that the place lands on. -/
theorem beside_of_leaves (hc : c.isValid = true) (h : c.place.Leaves s c.side) :
    c.beside s = ((s.across c.face).2.place (s.across c.face).1
      (landing (s.turned c.face (s.along c.place)))).cell c.level := by
  have hp := onCube_place hc
  rw [beside, Place.wrap, if_neg h, Place.beyond_eq (face_lt hc) (Side.along_lt hp s) (h.over hp)]

/-- On the way from the cell to another face the coordinate along the seam is rounded up into the
next cell. -/
def SlipsTo (c : Cell) (face : ℕ) : Prop :=
  ∃ s : Side, (s.across c.face).1 = face ∧ s.turned c.face (s.along c.place) < 32 ∧
    (s.turned c.face (s.along c.place) + 1) % c.side = 0

instance (c : Cell) (face : ℕ) : Decidable (c.SlipsTo face) :=
  inferInstanceAs (Decidable (∃ s : Side, (s.across c.face).1 = face ∧ _ ∧ _))

theorem not_slipsTo_across_iff (hc : c.isValid = true) (s : Side) :
    ¬c.SlipsTo (s.across c.face).1 ↔ landing (s.turned c.face (s.along c.place)) / c.side =
      s.turned c.face (s.along c.place) / c.side := by
  rw [landing_div_eq_iff, not_iff_not]
  constructor
  · rintro ⟨s', hs, h⟩
    rwa [across_inj c.face (face_lt hc) s' s hs] at h
  · intro h
    exact ⟨s, rfl, h⟩

section Seam

variable (hc : c.isValid = true) (h : c.place.Leaves s c.side)
include hc h

theorem sameSquare_beside : (c.beside s).place.SameSquare c.side
    ((s.across c.face).2.place (s.across c.face).1
      (landing (s.turned c.face (s.along c.place)))) := by
  have ht := Side.turned_lt c.face s (Side.along_lt (onCube_place hc) s)
  rw [beside_of_leaves hc h, side_eq_sideAt]
  exact (sameSquare_place_cell (Side.onCube_place (across_lt c.face s) (landing_lt ht) _)
    (level_le c)).symm

theorem face_beside : (c.beside s).face = (s.across c.face).1 := by
  have hface := (sameSquare_beside hc h).face_eq
  rwa [face_place, Side.face_place] at hface

theorem leaves_beside : (c.beside s).place.Leaves (s.across c.face).2 (c.beside s).side := by
  have hsame := sameSquare_beside hc h
  have hdiv := Side.along_div hsame (s.across c.face).2
  rw [Side.along_place] at hdiv
  rw [side_beside hc, leaves_iff (onCube_place (isValid_beside hc s)) (side_pos c) (side_dvd c),
    face_place, face_beside hc h]
  exact hsame.trans (Side.sameSquare_place_iff.mpr hdiv.symm)

/-- **Over a seam the step back leads to the cell unless one of the two ways slips.** -/
theorem beside_beside_iff : (c.beside s).beside (s.across c.face).2 = c ↔
    ¬c.SlipsTo (c.beside s).face ∧ ¬(c.beside s).SlipsTo c.face := by
  have hf := face_lt hc
  have hp := onCube_place hc
  have hv := isValid_beside hc s
  have hface := face_beside hc h
  have hback := across_across c.face hf s
  have ht := Side.along_lt hp s
  have hu := Side.along_lt (onCube_place hv) (s.across c.face).2
  have hdiv := Side.along_div (sameSquare_beside hc h) (s.across c.face).2
  rw [Side.along_place] at hdiv
  have hslip := not_slipsTo_across_iff hv (s.across c.face).2
  rw [hface, hback, Side.turned_across hf, side_beside hc] at hslip
  have hlast := landing_lt (Side.turned_lt c.face s hu)
  rw [beside_of_leaves hv (leaves_beside hc h), hface, hback, Side.turned_across hf,
    level_beside hc, not_slipsTo_across_iff hc, hslip, ← landing_back_iff (side_dvd c) ht hu hdiv]
  have hsame := (leaves_iff hp (side_pos c) (side_dvd c)).mp h
  have hcell := cell_eq_cell_iff (Side.onCube_place hf hlast s) (level_le c) hp
  rw [cell_place hc] at hcell
  rw [hcell, ← side_eq_sideAt, ← Side.sameSquare_place_iff]
  exact ⟨fun heq => heq.trans hsame, fun heq => heq.trans hsame.symm⟩

theorem mem_edgeNeighbours_beside_iff : c ∈ (c.beside s).edgeNeighbours ↔
    (c.beside s).beside (s.across c.face).2 = c := by
  have hf := face_lt hc
  have hv := isValid_beside hc s
  have hface := face_beside hc h
  have hback := congrArg Prod.fst (across_across c.face hf s)
  rw [mem_edgeNeighbours hv]
  constructor
  · rintro ⟨s', hs'⟩
    by_cases hleaves : (c.beside s).place.Leaves s' (c.beside s).side
    · have hface' := face_beside hv hleaves
      rw [← hs', hface] at hface'
      rw [across_inj _ (across_lt c.face s) _ s' (hback.trans hface')]
      exact hs'.symm
    · have hface' := (beside_of_onFace hv hleaves).1
      rw [← hs', hface] at hface'
      exact absurd hface'.symm (across_ne c.face hf s)
  · intro heq
    exact ⟨_, heq.symm⟩

end Seam

/-- The place of a cell with a side of at least four lies away from the border of its square, so the
next leaf is in the same cell, counted from either end. -/
theorem not_slipsTo_of_level_le (hc : c.isValid = true) (hl : c.level ≤ 28) (face : ℕ) :
    ¬c.SlipsTo face := by
  rintro ⟨s, _, _, hmod⟩
  have hside : 4 ∣ c.side := by
    rw [side_eq_sideAt, sideAt_eq, leafLevel, show 30 - c.level = 2 + (28 - c.level) by omega,
      Nat.pow_add]
    exact Nat.dvd_mul_right _ _
  have hpos := side_pos c
  have ht := Side.along_lt (onCube_place hc) s
  obtain ⟨hdiag, hmid⟩ := place_mod_side hc (by rw [leafLevel]; omega)
  have halong : s.along c.place % c.side = c.place.i % c.side := by
    rcases s.along_eq_or c.place with heq | heq
    · rw [heq]
    · rw [heq, hdiag]
  rw [← halong] at hmid
  have hdvd := Nat.dvd_of_mod_eq_zero hmod
  rw [Side.turned] at hdvd
  split at hdvd
  · have hzero := Nat.mod_eq_zero_of_dvd (dvd_of_dvd_reverse (side_dvd c) ht hdvd)
    omega
  · have hnext := Nat.mod_eq_zero_of_dvd hdvd
    rw [Nat.add_mod, Nat.mod_eq_of_lt (show 1 < c.side by omega),
      Nat.mod_eq_of_lt (by omega)] at hnext
    omega

/-- **The neighbours across the edges of a cell.**  They are other cells of its level.  The cell is
a neighbour of each neighbour on its own face, and of one on another face unless the way there or
the way back slips.  Cells of level 28 and coarser ones never slip. -/
theorem edgeNeighbours_of_valid (hc : c.isValid = true) (hn : n ∈ c.edgeNeighbours) :
    n.isValid = true ∧ n.level = c.level ∧ n ≠ c ∧
      (c ∈ n.edgeNeighbours ↔ n.face = c.face ∨ (¬c.SlipsTo n.face ∧ ¬n.SlipsTo c.face)) ∧
      (c.level ≤ 28 → c ∈ n.edgeNeighbours) := by
  obtain ⟨s, rfl⟩ := (mem_edgeNeighbours hc).mp hn
  have hv := isValid_beside hc s
  have hlevel := level_beside hc s
  refine ⟨hv, hlevel, ?_⟩
  by_cases hleaves : c.place.Leaves s c.side
  · have hface : (c.beside s).face ≠ c.face := by
      rw [face_beside hc hleaves]
      exact across_ne c.face (face_lt hc) s
    have hmem := (mem_edgeNeighbours_beside_iff hc hleaves).trans (beside_beside_iff hc hleaves)
    refine ⟨fun heq => hface (congrArg face heq), hmem.trans ?_, fun hl => hmem.mpr ?_⟩
    · rw [or_iff_right hface]
    · exact ⟨not_slipsTo_of_level_le hc hl _, not_slipsTo_of_level_le hv (hlevel.trans_le hl) _⟩
  · obtain ⟨hface, hne, hback⟩ := beside_of_onFace hc hleaves
    have hmem : c ∈ (c.beside s).edgeNeighbours := (mem_edgeNeighbours hv).mpr ⟨_, hback.symm⟩
    exact ⟨hne, iff_of_true hmem (Or.inl hface), fun _ => hmem⟩

theorem edgeNeighbours_of_valid_roots :
    (root 0).isValid = true ∧ root 1 ∈ (root 0).edgeNeighbours ∧
      root 0 ∈ (root 1).edgeNeighbours := by
  have hc : (root 0).isValid = true := by decide
  have hn : root 1 ∈ (root 0).edgeNeighbours := by decide +kernel
  exact ⟨hc, hn, (edgeNeighbours_of_valid hc hn).2.2.2.2 (by decide)⟩

/-- The leaf in the corner of the first face is not a neighbour of its southern neighbour.  The way
there ends one column too far to the east, and so does the way back. -/
theorem edgeNeighbours_not_symm : ¬∀ c : Cell, c.isValid = true → ∀ n ∈ c.edgeNeighbours,
    n.isValid = true ∧ n.level = c.level ∧ n ≠ c ∧ c ∈ n.edgeNeighbours := by
  intro h
  have hn : (⟨13835058055282163705⟩ : Cell) ∈ (⟨1⟩ : Cell).edgeNeighbours := by decide +kernel
  have hback : (⟨1⟩ : Cell) ∉ (⟨13835058055282163705⟩ : Cell).edgeNeighbours := by decide +kernel
  exact hback (h ⟨1⟩ (by decide) _ hn).2.2.2

end Cell

end QuadSphere
