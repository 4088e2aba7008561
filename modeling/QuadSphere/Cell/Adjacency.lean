import QuadSphere.Cell.Square

/-!
# Neighbours

Two cells of one level are neighbours if their squares share an edge or a corner.  Within a face
the neighbours of a cell are the squares around it.  Over the edge of a face they are found in
space: the square just outside the face is lifted onto the plane of the face and projected onto
the face that it lies over.
-/

namespace QuadSphere.Cell

/-- The leaf in space nearest to a column and row just outside a face.  Columns and rows further
out are first moved to the ring of squares around the face. -/
def beyondFace (face : Nat) (i j : Int) : Cell :=
  let plane (k : Int) : Float :=
    let k := max (-1) (min k faceSide)
    (1 / faceSide.toFloat) * Float.ofInt (2 * k + 1 - faceSide)
  let f := Chart.ofSpace (Chart.toSpace ⟨face, plane i, plane j⟩)
  ofPlace ⟨f.face, Chart.leafIndex (0.5 * (f.u + 1)), Chart.leafIndex (0.5 * (f.v + 1))⟩

/-- The leaf at a column and row that may lie outside the face. -/
def near (face : Nat) (i j : Int) (onFace : Bool) : Cell :=
  if onFace then ofPlace ⟨face, i.toNat, j.toNat⟩ else beyondFace face i j

/-- The cells of the same level across the four edges: south, east, north and west. -/
def edgeNeighbours (c : Cell) : List Cell :=
  let p := c.place
  let (i, j, side) := ((p.i : Int), (p.j : Int), (c.side : Int))
  [near p.face i (j - side) (j - side ≥ 0),
   near p.face (i + side) j (i + side < faceSide),
   near p.face i (j + side) (j + side < faceSide),
   near p.face (i - side) j (i - side ≥ 0)].map (·.ancestor c.level)

/-- The cells of a level, not coarser than the cell itself, across its edges and corners, row by
row from the south.  At a corner of the cube, where three faces meet, a cell comes twice. -/
def neighbours (c : Cell) (level : Nat) : List Cell :=
  let p := c.corner
  let (i, j, side, step) := ((p.i : Int), (p.j : Int), (c.side : Int), (sideAt level : Int))
  let west (k : Int) (onFace : Bool) :=
    near p.face (i - step) (j + k) (onFace && i - side ≥ 0)
  let east (k : Int) (onFace : Bool) :=
    near p.face (i + side) (j + k) (onFace && i + side < faceSide)
  let row (n : Nat) : List Cell :=
    let k := step * n
    [near p.face (i + k) (j - step) (j - side ≥ 0),
     near p.face (i + k) (j + side) (j + side < faceSide), west k true, east k true]
  let south := [west (-step) (j - step ≥ 0), east (-step) (j - step ≥ 0)]
  let north := [west side (j + side < faceSide), east side (j + side < faceSide)]
  let rows := (List.range (c.side / sideAt level)).flatMap row
  (south ++ rows ++ north).map (·.ancestor level)

def neighbours? (c : Cell) (level : Nat) : Except Fault (List Cell) :=
  if c.level ≤ level ∧ level ≤ leafLevel then .ok (c.neighbours level)
  else .error .levelOutside

end QuadSphere.Cell
