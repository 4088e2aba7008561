/-!
# The curve through a square

The Hilbert curve of order `n + 1` runs through the four quadrants of a square one after the other
and follows a curve of order `n` in each.  In the standard orientation the quadrants come in the
order lower left, upper left, upper right, lower right.  An orientation may exchange the two axes
and may turn both of them around; the first and the last quadrant are entered in another
orientation than that of the square.

`encode` gives the place of a point along the curve and `decode` the point at a place.  Both are
recursions on the order, over one step `rank` and its inverse `quadrant`.
-/

namespace QuadSphere

/-- Whether a quadrant is in the upper half along each of the two axes. -/
structure Quadrant where
  i : Bool
  j : Bool
deriving DecidableEq

namespace Quadrant

/-- The place of a quadrant along the curve in the standard orientation. -/
def rank : Quadrant → Fin 4
  | ⟨false, false⟩ => 0
  | ⟨false, true⟩ => 1
  | ⟨true, true⟩ => 2
  | ⟨true, false⟩ => 3

def ofRank : Fin 4 → Quadrant
  | 0 => ⟨false, false⟩
  | 1 => ⟨false, true⟩
  | 2 => ⟨true, true⟩
  | 3 => ⟨true, false⟩

@[simp] theorem rank_ofRank (p : Fin 4) : (ofRank p).rank = p := by
  revert p; decide

@[simp] theorem ofRank_rank (q : Quadrant) : ofRank q.rank = q := by
  obtain ⟨i, j⟩ := q; cases i <;> cases j <;> rfl

end Quadrant

/-- How the curve lies in a square. -/
structure Orientation where
  swapped : Bool
  inverted : Bool
deriving DecidableEq

namespace Orientation

/-- The quadrant of the standard square that lies where the given one lies in the turned square;
the map is its own inverse. -/
def turn (o : Orientation) (q : Quadrant) : Quadrant :=
  let q := if o.swapped then ⟨q.j, q.i⟩ else q
  if o.inverted then ⟨!q.i, !q.j⟩ else q

/-- The place of a quadrant along the curve. -/
def rank (o : Orientation) (q : Quadrant) : Fin 4 :=
  (o.turn q).rank

/-- The quadrant at a place along the curve. -/
def quadrant (o : Orientation) (p : Fin 4) : Quadrant :=
  o.turn (.ofRank p)

/-- The orientation within the quadrant at a place. -/
def inside (o : Orientation) (p : Fin 4) : Orientation :=
  match p with
  | 0 => ⟨!o.swapped, o.inverted⟩
  | 3 => ⟨!o.swapped, !o.inverted⟩
  | _ => o

@[simp] theorem turn_turn (o : Orientation) (q : Quadrant) : o.turn (o.turn q) = q := by
  obtain ⟨s, v⟩ := o; obtain ⟨i, j⟩ := q
  cases s <;> cases v <;> cases i <;> cases j <;> rfl

@[simp] theorem rank_quadrant (o : Orientation) (p : Fin 4) : o.rank (o.quadrant p) = p := by
  simp [rank, quadrant]

@[simp] theorem quadrant_rank (o : Orientation) (q : Quadrant) : o.quadrant (o.rank q) = q := by
  simp [rank, quadrant]

end Orientation

namespace Curve

/-- The place of the point `(i, j)` along the curve of order `n`. -/
def encode : Orientation → Nat → Nat → Nat → Nat
  | _, 0, _, _ => 0
  | o, n + 1, i, j =>
    let p := o.rank ⟨i.testBit n, j.testBit n⟩
    p * 4 ^ n + encode (o.inside p) n i j

/-- The point at a place along the curve of order `n`. -/
def decode : Orientation → Nat → Nat → Nat × Nat
  | _, 0, _ => (0, 0)
  | o, n + 1, d =>
    let p := Fin.ofNat 4 (d / 4 ^ n)
    let q := o.quadrant p
    let r := decode (o.inside p) n d
    (q.i.toNat * 2 ^ n + r.1, q.j.toNat * 2 ^ n + r.2)

end Curve

end QuadSphere
