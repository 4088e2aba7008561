import QuadSphere.Curve
import QuadSphere.Sphere.Chart

/-!
# Cells as squares

The leaves of a face lie in rows and columns `i`, `j` below `faceSide`.  Their words follow the
curve of order thirty through the face, so a cell of a coarser level is a square of leaves.  The
faces surround the sphere, so a point of space lies over one of the leaves.
-/

namespace QuadSphere

/-- A leaf of a face by its column and row. -/
structure Place where
  face : Nat
  i : Nat
  j : Nat
deriving DecidableEq

/-- The curve is swapped on every second face, so that it runs on from each face to the next. -/
def faceOrientation (face : Nat) : Orientation :=
  ⟨face % 2 = 1, false⟩

namespace Cell

/-- The leaf at a place. -/
def ofPlace (p : Place) : Cell :=
  ⟨UInt64.ofNat
    ((p.face <<< positionBits) +
      2 * Curve.encode (faceOrientation p.face) leafLevel p.i p.j + 1)⟩

/-- The place of a leaf; for a coarser cell, of one of the leaves in it. -/
def place (c : Cell) : Place :=
  let (i, j) := Curve.decode (faceOrientation c.face) leafLevel (c.word.toNat / 2)
  ⟨c.face, i, j⟩

/-- The side of the cell, measured in leaves. -/
def side (c : Cell) : Nat :=
  sideAt c.level

/-- The place of the leaf in the lower left corner of the cell. -/
def corner (c : Cell) : Place :=
  let p := c.place
  ⟨p.face, p.i / c.side * c.side, p.j / c.side * c.side⟩

/-! ## On the sphere -/

/-- The leaf that holds a point; the point need not be normalized. -/
def ofPoint (p : Vec3) : Cell :=
  let f := Chart.ofSpace p
  ofPlace ⟨f.face, Chart.leafIndex (Chart.even f.u), Chart.leafIndex (Chart.even f.v)⟩

/-- The point of the sphere over the centre of the cell's square. -/
def center (c : Cell) : Vec3 :=
  let p := c.corner
  let half := 0.5 * c.side.toFloat
  let s := (p.i.toFloat + half) / faceSide.toFloat
  let t := (p.j.toFloat + half) / faceSide.toFloat
  (Chart.toSpace ⟨p.face, Chart.plane s, Chart.plane t⟩).normalize

end Cell

end QuadSphere
