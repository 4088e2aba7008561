import QuadSphere.Proofs.EdgeNeighbours
import QuadSphere.Proofs.Places

/-!
# The surroundings of a cell

The squares of one size that touch a larger one from outside, with an edge or a vertex in common,
make up the ring around it (`Square.mem_ring_iff`).  Whether two squares touch does not depend on
the unit that they are measured in, so the cells of a level that touch a cell are the ring around
its block on the grid of that level (`touches_iff`).

If a cell does not touch the border of its face, this ring lies on the face.  So the walk around the
cell passes all these cells, and no two steps of it lead to the same one.

* `IsInner.mem_neighbours_iff`, `IsInner.nodup_neighbours`: the neighbours of an inner cell.
* `IsInner.corners_edgeNeighbours`: its neighbours across the edges.
* `neighbours_surround`: the surroundings of an inner cell.
-/

namespace QuadSphere

/-! ## Squares that touch -/

/-- A square of a grid, by the column and the row of its lower left corner. -/
structure Square where
  i : Nat
  j : Nat
  side : Nat

/-- Two intervals, given by where they begin and how long they are, have an end in common. -/
def ShareEnd (i s i' s' : Nat) : Prop :=
  i = i' ∨ i = i' + s' ∨ i + s = i' ∨ i + s = i' + s'

theorem shareEnd_mul_iff {t : Nat} (ht : 0 < t) {i s i' s' : Nat} :
    ShareEnd (i * t) (s * t) (i' * t) (s' * t) ↔ ShareEnd i s i' s' := by
  simp only [ShareEnd, ← Nat.add_mul, Nat.mul_left_inj (Nat.ne_of_gt ht)]

namespace Square

variable {q q' : Square} {t : Nat}

/-- An edge of the second square lies on an edge of the first one. -/
def EdgeOn (q q' : Square) : Prop :=
  ShareEnd q.i q.side q'.i q'.side ∧ q.j ≤ q'.j ∧ q'.j + q'.side ≤ q.j + q.side ∨
    ShareEnd q.j q.side q'.j q'.side ∧ q.i ≤ q'.i ∧ q'.i + q'.side ≤ q.i + q.side

/-- The two squares have a vertex in common. -/
def ShareVertex (q q' : Square) : Prop :=
  ShareEnd q.i q.side q'.i q'.side ∧ ShareEnd q.j q.side q'.j q'.side

/-- The two squares have more in common than a part of their borders. -/
def Overlap (q q' : Square) : Prop :=
  (q.i < q'.i + q'.side ∧ q'.i < q.i + q.side) ∧ q.j < q'.j + q'.side ∧ q'.j < q.j + q.side

/-- The square measured in a unit that is `t` times as small. -/
def scale (t : Nat) (q : Square) : Square :=
  ⟨q.i * t, q.j * t, q.side * t⟩

section Scale

variable (ht : 0 < t)
include ht

theorem edgeOn_scale_iff : (q.scale t).EdgeOn (q'.scale t) ↔ q.EdgeOn q' := by
  simp only [EdgeOn, scale, shareEnd_mul_iff ht, ← Nat.add_mul, Nat.mul_le_mul_right_iff ht]

theorem shareVertex_scale_iff : (q.scale t).ShareVertex (q'.scale t) ↔ q.ShareVertex q' := by
  simp only [ShareVertex, scale, shareEnd_mul_iff ht]

theorem overlap_scale_iff : (q.scale t).Overlap (q'.scale t) ↔ q.Overlap q' := by
  simp only [Overlap, scale, ← Nat.add_mul, Nat.mul_lt_mul_right ht]

end Scale

/-- **The ring around a square is made of the squares of side one that touch it from outside.** -/
theorem mem_ring_iff {a b : Nat} : ((a : Int), (b : Int)) ∈ ring q.i q.j q.side ↔
    ¬q.Overlap ⟨a, b, 1⟩ ∧ (q.EdgeOn ⟨a, b, 1⟩ ∨ q.ShareVertex ⟨a, b, 1⟩) := by
  rw [mem_ring, InBlock, InBlock]
  simp only [Overlap, EdgeOn, ShareVertex, ShareEnd]
  omega

end Square

namespace Cell

variable {c d : Cell} {l : Nat}

/-- The square of a cell on its face, measured in leaves. -/
def square (c : Cell) : Square :=
  ⟨c.corner.i, c.corner.j, c.side⟩

/-- The square of the second cell lies on the same face outside that of the first one, and shares an
edge or a vertex with it. -/
structure Touches (c d : Cell) : Prop where
  face_eq : d.face = c.face
  outside : ∀ p, d.InSquare p → ¬c.InSquare p
  border : c.square.EdgeOn d.square ∨ c.square.ShareVertex d.square

theorem square_eq_scale (hcl : c.level ≤ l) :
    c.square = (⟨c.column l, c.row l, c.span l⟩ : Square).scale (sideAt l) := by
  rw [Square.scale, column_mul hcl, row_mul hcl, span_mul hcl, square]

theorem overlap_iff_exists_inSquare (h : d.face = c.face) :
    c.square.Overlap d.square ↔ ∃ p, d.InSquare p ∧ c.InSquare p := by
  have hc := side_pos c
  have hd := side_pos d
  constructor
  · rintro ⟨hi, hj⟩
    dsimp only [square] at hi hj
    refine ⟨⟨c.face, max c.corner.i d.corner.i, max c.corner.j d.corner.j⟩, ?_, ?_⟩
    · exact ⟨h.symm, by dsimp only; omega, by dsimp only; omega⟩
    · exact ⟨rfl, by dsimp only; omega, by dsimp only; omega⟩
  · rintro ⟨p, hd, hc⟩
    obtain ⟨_, hi, hj⟩ := hc
    obtain ⟨_, hi', hj'⟩ := hd
    exact ⟨by dsimp only [square]; omega, by dsimp only [square]; omega⟩

/-- **The cells of a level that touch a cell are the ring around its block.** -/
theorem touches_iff (hcl : c.level ≤ l) (hdl : d.level = l) :
    c.Touches d ↔ d.face = c.face ∧
      ((d.column l : Int), (d.row l : Int)) ∈ ring (c.column l) (c.row l) (c.span l) := by
  have hpos := sideAt_pos l
  have hring : ((d.column l : Int), (d.row l : Int)) ∈ ring (c.column l) (c.row l) (c.span l) ↔
      ¬c.square.Overlap d.square ∧ (c.square.EdgeOn d.square ∨ c.square.ShareVertex d.square) := by
    -- measured in sides of the level, the second square has the side one
    rw [square_eq_scale hcl, square_eq_scale (Nat.le_of_eq hdl), Square.overlap_scale_iff hpos,
      Square.edgeOn_scale_iff hpos, Square.shareVertex_scale_iff hpos, span_self hdl,
      ← Square.mem_ring_iff]
  rw [hring]
  constructor
  · rintro ⟨hface, hout, hborder⟩
    refine ⟨hface, fun hover => ?_, hborder⟩
    obtain ⟨p, hd, hc⟩ := (overlap_iff_exists_inSquare hface).mp hover
    exact hout p hd hc
  · rintro ⟨hface, hapart, hborder⟩
    exact ⟨hface, fun p hd hc => hapart ((overlap_iff_exists_inSquare hface).mpr ⟨p, hd, hc⟩),
      hborder⟩

/-! ## Inner cells -/

/-- The square of the cell does not touch the border of its face. -/
structure IsInner (c : Cell) : Prop where
  west : c.side ≤ c.corner.i
  south : c.side ≤ c.corner.j
  east : c.corner.i + c.side < faceSide
  north : c.corner.j + c.side < faceSide

namespace IsInner

theorem block_bounds (h : c.IsInner) (hcl : c.level ≤ l) (hl : l ≤ leafLevel) :
    (1 ≤ c.column l ∧ c.column l + c.span l < 2 ^ l) ∧
      1 ≤ c.row l ∧ c.row l + c.span l < 2 ^ l := by
  obtain ⟨hwest, hsouth, heast, hnorth⟩ := h
  obtain ⟨_, hx, hx'⟩ := column_bounds hcl hl
  obtain ⟨_, hy, hy'⟩ := row_bounds hcl hl
  exact ⟨⟨hx.mp (by omega), hx'.mp (by omega)⟩, hy.mp (by omega), hy'.mp (by omega)⟩

theorem not_leaves (h : c.IsInner) (s : Side) : ¬c.place.Leaves s c.side := by
  obtain ⟨⟨hx, hx'⟩, hy, hy'⟩ := h.block_bounds (Nat.le_refl c.level) (level_le c)
  have hgrid := two_pow_cast c.level
  rw [span_self rfl] at hx' hy'
  rw [not_leaves_iff]
  cases s with
  | south => dsimp only [Side.shift]; omega
  | east => dsimp only [Side.shift]; omega
  | north => dsimp only [Side.shift]; omega
  | west => dsimp only [Side.shift]; omega

section Valid

variable (h : c.IsInner) (hc : c.isValid = true)
include h hc

theorem corner_beside {s : Side} {i j : Nat}
    (hij : s.shift c.side c.corner.i c.corner.j = ((i : Int), (j : Int))) :
    (c.beside s).corner = ⟨c.face, i, j⟩ := by
  have hstay := h.not_leaves s
  have hcorner := Cell.corner_beside hc hstay
  rw [hij, Prod.mk.injEq, Int.natCast_inj, Int.natCast_inj] at hcorner
  rw [← (beside_of_onFace hc hstay).1, ← hcorner.1, ← hcorner.2]
  rfl

theorem corners_edgeNeighbours :
    c.edgeNeighbours.map corner =
      [⟨c.face, c.corner.i, c.corner.j - c.side⟩, ⟨c.face, c.corner.i + c.side, c.corner.j⟩,
        ⟨c.face, c.corner.i, c.corner.j + c.side⟩, ⟨c.face, c.corner.i - c.side, c.corner.j⟩] := by
  have hsouth : (c.beside .south).corner = ⟨c.face, c.corner.i, c.corner.j - c.side⟩ :=
    h.corner_beside hc (Prod.ext rfl (Int.ofNat_sub h.south).symm)
  have heast : (c.beside .east).corner = ⟨c.face, c.corner.i + c.side, c.corner.j⟩ :=
    h.corner_beside hc (Prod.ext (Int.natCast_add _ _).symm rfl)
  have hnorth : (c.beside .north).corner = ⟨c.face, c.corner.i, c.corner.j + c.side⟩ :=
    h.corner_beside hc (Prod.ext rfl (Int.natCast_add _ _).symm)
  have hwest : (c.beside .west).corner = ⟨c.face, c.corner.i - c.side, c.corner.j⟩ :=
    h.corner_beside hc (Prod.ext (Int.ofNat_sub h.west).symm rfl)
  rw [edgeNeighbours_eq hc, ← hsouth, ← heast, ← hnorth, ← hwest]
  rfl

variable (hcl : c.level ≤ l) (hl : l ≤ leafLevel)
include hcl hl

theorem onGrid_spec {x y : Int} (hxy : (x, y) ∈ ring (c.column l) (c.row l) (c.span l)) :
    (onGrid c.face l x y).face = c.face ∧ (onGrid c.face l x y).column l = x ∧
      (onGrid c.face l x y).row l = y := by
  obtain ⟨⟨hx, hx'⟩, hy, hy'⟩ := h.block_bounds hcl hl
  have hgrid := two_pow_cast l
  have hin := (mem_ring.mp hxy).1
  rw [InBlock] at hin
  exact Cell.onGrid_spec (face_lt hc) hl (by omega)

/-- **The neighbours of an inner cell are the cells of the level that touch it.** -/
theorem mem_neighbours_iff :
    d ∈ c.neighbours l ↔ d.isValid = true ∧ d.level = l ∧ c.Touches d := by
  rw [neighbours_eq hcl hl, List.mem_map]
  constructor
  · rintro ⟨⟨x, y⟩, hxy, rfl⟩
    obtain ⟨hface, hcol, hrow⟩ := h.onGrid_spec hc hcl hl hxy
    have hlevel := level_onGrid (face_lt hc) hl x y
    refine ⟨isValid_onGrid (face_lt hc) hl x y, hlevel, (touches_iff hcl hlevel).mpr ⟨hface, ?_⟩⟩
    rw [hcol, hrow]
    exact hxy
  · rintro ⟨hd, hdl, htouch⟩
    obtain ⟨hface, hring⟩ := (touches_iff hcl hdl).mp htouch
    exact ⟨_, hring, by rw [← hface, onGrid_self hd hdl]⟩

theorem nodup_neighbours : (c.neighbours l).Nodup := by
  rw [neighbours_eq hcl hl]
  refine (nodup_ring _ _ _).map_on ?_
  rintro ⟨x, y⟩ hxy ⟨x', y'⟩ hxy' heq
  obtain ⟨_, hcol, hrow⟩ := h.onGrid_spec hc hcl hl hxy
  obtain ⟨_, hcol', hrow'⟩ := h.onGrid_spec hc hcl hl hxy'
  dsimp only at heq
  rw [heq] at hcol hrow
  rw [← hcol, ← hrow, hcol', hrow']

end Valid

end IsInner

/-- **The surroundings of an inner cell.**  The walk around the cell passes those cells of a level
that touch it, each of them once: as many as fit along the four edges, and one at each vertex.  The
neighbours across the edges are the cells of its own level one side further to the south, east,
north and west. -/
theorem neighbours_surround (c : Cell) (l : Nat) (hc : c.isValid = true) (hin : c.IsInner)
    (hcl : c.level ≤ l) (hl : l ≤ leafLevel) :
    (∃ ns, c.neighbours? l = .ok ns ∧ ns.Nodup ∧ ns.length = 4 * 2 ^ (l - c.level) + 4 ∧
      ∀ d, d ∈ ns ↔ d.isValid = true ∧ d.level = l ∧ c.Touches d) ∧
    (∀ d ∈ c.edgeNeighbours, d.isValid = true ∧ d.level = c.level) ∧
    c.edgeNeighbours.map corner =
      [⟨c.face, c.corner.i, c.corner.j - c.side⟩, ⟨c.face, c.corner.i + c.side, c.corner.j⟩,
        ⟨c.face, c.corner.i, c.corner.j + c.side⟩, ⟨c.face, c.corner.i - c.side, c.corner.j⟩] := by
  refine ⟨⟨c.neighbours l, neighbours?_eq_ok hcl hl, hin.nodup_neighbours hc hcl hl,
    length_neighbours hcl hl, fun d => hin.mem_neighbours_iff hc hcl hl⟩, ?_,
    hin.corners_edgeNeighbours hc⟩
  intro d hd
  obtain ⟨s, rfl⟩ := (mem_edgeNeighbours hc).mp hd
  exact ⟨isValid_beside hc s, level_beside hc s⟩

/-- A cell one side away from two borders of its face, with neighbours two levels finer. -/
theorem neighbours_surround_quarter :
    let c : Cell := ⟨0x0500000000000000⟩
    (c.isValid = true ∧ c.IsInner ∧ c.level = 2) ∧
      (∃ ns, c.neighbours? 4 = .ok ns ∧ ns.Nodup ∧ ns.length = 20 ∧
        ∀ d, d ∈ ns ↔ d.isValid = true ∧ d.level = 4 ∧ c.Touches d) ∧
      c.edgeNeighbours.map corner =
        [⟨0, 2 ^ 28, 0⟩, ⟨0, 2 ^ 29, 2 ^ 28⟩, ⟨0, 2 ^ 28, 2 ^ 29⟩, ⟨0, 0, 2 ^ 28⟩] := by
  intro c
  have hc : c.isValid = true := by decide
  have hin : c.IsInner := ⟨by decide, by decide, by decide, by decide⟩
  have hlevel : c.level = 2 := by decide
  have hcorner : c.corner = ⟨0, 2 ^ 28, 2 ^ 28⟩ := by decide
  have hside : c.side = 2 ^ 28 := by decide
  have hface : c.face = 0 := by decide
  obtain ⟨hring, _, hedges⟩ := neighbours_surround c 4 hc hin (by decide) (by decide)
  rw [hlevel] at hring
  rw [hcorner, hside, hface] at hedges
  exact ⟨⟨hc, hin, hlevel⟩, hring, hedges⟩

end Cell

end QuadSphere
