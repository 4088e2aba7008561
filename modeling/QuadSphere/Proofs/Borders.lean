import QuadSphere.Patch
import QuadSphere.Proofs.Continuity

/-!
# The borders of cells

A patch computes the bounds of its cell from a leaf somewhere in the cell, rounded down at the level
of the cell.  A bound is a float, and it is a function of one integer, the number of the line along
which the cell ends (`bound_ofCell`).  So cells that end along the same line have the same bound,
bit for bit, as soon as the integers agree: whatever `Chart.plane` makes of a coordinate, and
however it rounds.

Each child begins in the corner of its cell or half a side further, along both axes.  Which of the
two is a matter of how the curve lies in the cell, and each of the four cases is that of one child.

* `exists_decode_child`, `exists_corner_child`: where the four children lie.
* `isBorder_iff`: the lines along which the leaves of a cell end.
* `borders_agree`: the children quarter a cell, and cells share the bounds on common lines.
-/

namespace QuadSphere

/-! ## The children of a square -/

theorem Curve.exists_decode_child (o : Orientation) (n d : Nat) :
    ∃ o' : Orientation, ∀ k : Fin 4, decode o (n + 1) (4 * d + k) =
      (2 * (decode o n d).1 + (o'.quadrant k).i.toNat,
        2 * (decode o n d).2 + (o'.quadrant k).j.toNat) := by
  induction n generalizing o with
  | zero =>
    refine ⟨o, fun k => ?_⟩
    have hrank : Fin.ofNat 4 ((4 * d + k) / 4 ^ 0) = k := by
      apply Fin.ext
      rw [Fin.val_ofNat, Nat.pow_zero, Nat.div_one]
      omega
    rw [decode_succ, hrank]
    simp [decode_of_zero]
  | succ n ih =>
    obtain ⟨o', ho'⟩ := ih (o.inside (Fin.ofNat 4 (d / 4 ^ n)))
    refine ⟨o', fun k => ?_⟩
    have hquot : (4 * d + k) / 4 ^ (n + 1) = d / 4 ^ n := by
      rw [Nat.pow_succ', ← Nat.div_div_eq_div_mul, show (4 * d + k) / 4 = d by omega]
    have htwice : ∀ b x y : Nat, b * 2 ^ (n + 1) + (2 * x + y) = 2 * (b * 2 ^ n + x) + y := by
      intro b x y
      ring
    rw [decode_succ, hquot, ho' k, decode_succ]
    exact Prod.ext (htwice _ _ _) (htwice _ _ _)

theorem Orientation.bijective_quadrant (o : Orientation) : Function.Bijective o.quadrant :=
  Function.bijective_iff_has_inverse.mpr ⟨o.rank, o.rank_quadrant, o.quadrant_rank⟩

/-! ## Coordinates -/

/-- One of the two coordinates on a face. -/
inductive Coordinate where
  | column
  | row
deriving DecidableEq

def Place.get (p : Place) : Coordinate → Nat
  | .column => p.i
  | .row => p.j

/-- Whether the quadrant is in the upper half. -/
def Quadrant.upper (q : Quadrant) : Coordinate → Bool
  | .column => q.i
  | .row => q.j

/-- The interval of plane coordinates between which the patch lies. -/
def Patch.span (p : Patch) : Coordinate → PlaneSpan
  | .column => p.u
  | .row => p.v

/-- One of the two ends of an interval. -/
def PlaneSpan.bound (x : PlaneSpan) (upper : Bool) : Float :=
  if upper then x.hi else x.lo

/-- One of the two parts of an interval that is cut. -/
def PlaneSpan.part (x : PlaneSpan) (cut : Float) (upper : Bool) : PlaneSpan :=
  if upper then ⟨cut, x.hi⟩ else ⟨x.lo, cut⟩

namespace Cell

variable {c : Cell} {m q n : Nat} {x : Coordinate} {upper : Bool}

/-- The columns or the rows that the leaves of the cell lie in. -/
def strips (c : Cell) (x : Coordinate) : Set Nat :=
  {n | ∃ w, c.HasLeaf w ∧ (⟨w⟩ : Cell).place.get x = n}

/-- The cell ends along the line before the column or row `n`, with its first strip behind the line
or its last one before it. -/
def IsBorder (c : Cell) (x : Coordinate) (upper : Bool) (n : Nat) : Prop :=
  if upper then IsGreatest ((· + 1) '' c.strips x) n else IsLeast (c.strips x) n

theorem mem_strips_iff (hc : c.isValid = true) :
    n ∈ c.strips x ↔ c.corner.get x ≤ n ∧ n < c.corner.get x + c.side := by
  constructor
  · rintro ⟨w, hw, rfl⟩
    obtain ⟨p, hp, rfl⟩ := (hasLeaf_iff_exists_inSquare hc w).mp hw
    rw [show (⟨(ofPlace p).word⟩ : Cell) = ofPlace p from rfl, place_ofPlace (hp.onCube hc)]
    cases x with
    | column => exact hp.i_mem
    | row => exact hp.j_mem
  · rintro ⟨hlow, hhigh⟩
    -- a leaf on the diagonal of the square
    obtain ⟨t, rfl⟩ : ∃ t, n = c.corner.get x + t := ⟨n - c.corner.get x, by omega⟩
    have hp : c.InSquare ⟨c.corner.face, c.corner.i + t, c.corner.j + t⟩ :=
      ⟨rfl, ⟨Nat.le_add_right _ _, by dsimp only; omega⟩,
        ⟨Nat.le_add_right _ _, by dsimp only; omega⟩⟩
    refine ⟨_, (hasLeaf_iff_exists_inSquare hc _).mpr ⟨_, hp, rfl⟩, ?_⟩
    rw [show (⟨(ofPlace _).word⟩ : Cell) = ofPlace _ from rfl, place_ofPlace (hp.onCube hc)]
    cases x <;> rfl

/-- **The lines along which the leaves of a cell end** are those before its corner and one side
further. -/
theorem isBorder_iff (hc : c.isValid = true) :
    c.IsBorder x upper n ↔ n = c.corner.get x + if upper then c.side else 0 := by
  have hpos := side_pos c
  cases upper with
  | false =>
    have hleast : IsLeast (c.strips x) (c.corner.get x) :=
      ⟨(mem_strips_iff hc).mpr (by omega), fun k hk => ((mem_strips_iff hc).mp hk).1⟩
    simp only [IsBorder, Bool.false_eq_true, if_false, Nat.add_zero]
    exact ⟨fun h => h.unique hleast, fun h => h ▸ hleast⟩
  | true =>
    have hgreatest : IsGreatest ((· + 1) '' c.strips x) (c.corner.get x + c.side) := by
      have hlast : c.corner.get x + c.side - 1 ∈ c.strips x := (mem_strips_iff hc).mpr (by omega)
      refine ⟨⟨_, hlast, by dsimp only; omega⟩, ?_⟩
      rintro _ ⟨k, hk, rfl⟩
      exact ((mem_strips_iff hc).mp hk).2
    simp only [IsBorder, if_true]
    exact ⟨fun h => h.unique hgreatest, fun h => h ▸ hgreatest⟩

/-- **The children of a cell** have half its side, and begin in its corner or half a side
further. -/
theorem exists_corner_child (hc : c.isValid = true) (hl : ¬c.isLeaf = true) :
    ∃ (half : Nat) (o : Orientation), c.side = 2 * half ∧ ∀ k : Fin 4,
      (c.child k).side = half ∧
        ∀ x, (c.child k).corner.get x = c.corner.get x + ((o.quadrant k).upper x).toNat * half := by
  obtain ⟨m, q, hm, hat, _⟩ := exists_at_of_not_isLeaf hc hl
  have hfine : leafLevel - m = leafLevel - (m + 1) + 1 := by
    rw [leafLevel]
    omega
  obtain ⟨o, ho⟩ := Curve.exists_decode_child (faceOrientation c.face) (leafLevel - (m + 1)) q
  have hcoarse := At.corner_eq (m := m + 1) hat hm
  have hside : c.side = 2 * 2 ^ m := by
    rw [At.side_eq (m := m + 1) hat hm, Nat.pow_succ']
  refine ⟨2 ^ m, o, hside, fun k => ?_⟩
  have hchild : (c.child k).At (2 * m) (4 * q + k) := hat.child k.isLt
  refine ⟨hchild.side_eq (Nat.le_of_lt hm), ?_⟩
  have hcorner := hchild.corner_eq (Nat.le_of_lt hm)
  rw [face_child hc hl k.isLt, hfine, ho k] at hcorner
  obtain ⟨hi, hj⟩ := Prod.ext_iff.mp hcorner
  obtain ⟨hi', hj'⟩ := Prod.ext_iff.mp hcoarse
  dsimp only at hi hj hi' hj'
  rintro (_ | _)
  · rw [Place.get, Place.get, hi, hi', Nat.pow_succ, Quadrant.upper]
    ring
  · rw [Place.get, Place.get, hj, hj', Nat.pow_succ, Quadrant.upper]
    ring

end Cell

namespace Patch

open Cell

variable {c : Cell} {x : Coordinate}

theorem span_ofCell (c : Cell) (x : Coordinate) :
    (ofCell c).span x = ⟨border (c.corner.get x), border (c.corner.get x + c.side)⟩ := by
  cases x <;> rfl

theorem bound_ofCell (c : Cell) (x : Coordinate) (upper : Bool) :
    ((ofCell c).span x).bound upper = border (c.corner.get x + if upper then c.side else 0) := by
  rw [span_ofCell, PlaneSpan.bound]
  cases upper with
  | false => simp only [Bool.false_eq_true, if_false, Nat.add_zero]
  | true => simp only [if_true]

theorem part_border (i half : Nat) (upper : Bool) :
    (⟨border (i + upper.toNat * half), border (i + upper.toNat * half + half)⟩ : PlaneSpan) =
      PlaneSpan.part ⟨border i, border (i + 2 * half)⟩ (border (i + half)) upper := by
  cases upper with
  | false => simp [PlaneSpan.part]
  | true => simp [PlaneSpan.part, Nat.two_mul, Nat.add_assoc]

/-- **Cells tile a face without gap or overlap, bit for bit.**  The four children of a cell that is
no leaf are its quarters, one in each quadrant: the bounds of the cell are their outer bounds, and
it is cut along both coordinates at one number, which is the inner bound of all of them.  Any two
cells of a face that end along a common line have the same number for it. -/
theorem borders_agree :
    (∀ c : Cell, c.isValid = true → ¬c.isLeaf = true →
      ∃ (cut : Coordinate → Float) (quadrant : Fin 4 → Quadrant), Function.Bijective quadrant ∧
        ∀ k : Fin 4, ∃ d, c.child? k = .ok d ∧ (ofCell d).face = (ofCell c).face ∧
          ∀ x, (ofCell d).span x = ((ofCell c).span x).part (cut x) ((quadrant k).upper x)) ∧
    ∀ (c d : Cell) (x : Coordinate) (upper upper' : Bool) (n : Nat), c.isValid = true →
      d.isValid = true → c.face = d.face → c.IsBorder x upper n → d.IsBorder x upper' n →
        ((ofCell c).span x).bound upper = ((ofCell d).span x).bound upper' := by
  constructor
  · intro c hc hl
    obtain ⟨half, o, hside, hchild⟩ := exists_corner_child hc hl
    refine ⟨fun x => border (c.corner.get x + half), o.quadrant, o.bijective_quadrant, fun k => ?_⟩
    refine ⟨c.child k, child?_eq_ok_iff.mpr ⟨hl, k.isLt, rfl⟩, face_child hc hl k.isLt, fun x => ?_⟩
    obtain ⟨hhalf, hcorner⟩ := hchild k
    rw [span_ofCell, span_ofCell, hhalf, hside, hcorner, part_border]
  · intro c d x upper upper' n hc hd _ hborder hborder'
    rw [bound_ofCell, bound_ofCell, ← (isBorder_iff hc).mp hborder, ← (isBorder_iff hd).mp hborder']

/-- A quarter of a face, and a quarter of the one beside it, on the other side of the middle
line. -/
theorem borders_agree_middle :
    let c : Cell := ⟨0x4400000000000000⟩
    let d : Cell := ⟨0x5b00000000000000⟩
    (c.isValid = true ∧ ¬c.isLeaf = true ∧ d.isValid = true ∧ c.face = d.face) ∧
      (c.IsBorder .column true 0x20000000 ∧ d.IsBorder .column false 0x20000000) ∧
      ((ofCell c).span .column).bound true = ((ofCell d).span .column).bound false ∧
      ∃ (cut : Coordinate → Float) (quadrant : Fin 4 → Quadrant), Function.Bijective quadrant ∧
        ∀ k : Fin 4, ∃ e, c.child? k = .ok e ∧ (ofCell e).face = (ofCell c).face ∧
          ∀ x, (ofCell e).span x = ((ofCell c).span x).part (cut x) ((quadrant k).upper x) := by
  intro c d
  have hcells : c.isValid = true ∧ ¬c.isLeaf = true ∧ d.isValid = true ∧ c.face = d.face := by
    decide
  obtain ⟨hc, hl, hd, hface⟩ := hcells
  have hborder : c.IsBorder .column true 0x20000000 := (isBorder_iff hc).mpr (by decide)
  have hborder' : d.IsBorder .column false 0x20000000 := (isBorder_iff hd).mpr (by decide)
  obtain ⟨hchildren, hlines⟩ := borders_agree
  exact ⟨⟨hc, hl, hd, hface⟩, ⟨hborder, hborder'⟩,
    hlines c d .column true false _ hc hd hface hborder hborder', hchildren c hc hl⟩

end Patch

end QuadSphere
