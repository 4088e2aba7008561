import QuadSphere.Cell.Square
import QuadSphere.Sphere.Cap
import QuadSphere.Sphere.Scale

/-!
# Cells as patches of the sphere

A patch holds the plane coordinates between which a cell lies on its face.  Corners, areas and
bounds are computed from them.  The bounds of a cell are even coordinates with the denominator
`faceSide`, so cells that share a border line compute the same number for it.
-/

namespace QuadSphere

/-- An interval of plane coordinates. -/
structure PlaneSpan where
  lo : Float
  hi : Float

namespace PlaneSpan

/-- The middle of the interval. -/
def middle (x : PlaneSpan) : Float :=
  0.5 * (x.lo + x.hi)

/-- How far outside its interval a coordinate still counts as on the border: four units in the
last place of 1. -/
def tolerance : Float := 4 * 2.220446049250313e-16

def nearlyContains (x : PlaneSpan) (u : Float) : Bool :=
  u ≥ x.lo - tolerance && u ≤ x.hi + tolerance

end PlaneSpan

structure Patch where
  cell : Cell
  face : Nat
  level : Nat
  u : PlaneSpan
  v : PlaneSpan

namespace Patch

/-- The plane coordinate of the border line before column or row `k`. -/
def border (k : Nat) : Float :=
  Chart.plane ((1 / faceSide.toFloat) * k.toFloat)

def ofCell (c : Cell) : Patch :=
  let p := c.corner
  ⟨c, p.face, c.level,
    ⟨border p.i, border (p.i + c.side)⟩,
    ⟨border p.j, border (p.j + c.side)⟩⟩

def isLeaf (p : Patch) : Bool :=
  p.cell.isLeaf

/-- The corners are counted against the clock, from the one where both coordinates are lowest. -/
def vertex (p : Patch) (k : Nat) : Vec3 :=
  let (u, v) := match k % 4 with
    | 0 => (p.u.lo, p.v.lo)
    | 1 => (p.u.hi, p.v.lo)
    | 2 => (p.u.hi, p.v.hi)
    | _ => (p.u.lo, p.v.hi)
  (Chart.toSpace ⟨p.face, u, v⟩).normalize

def center (p : Patch) : Vec3 :=
  p.cell.center

def meanArea (level : Nat) : Float :=
  Scale.meanArea.value level

/-- The area of the flat quadrangle between the corners, corrected for the curvature.  For the
largest cells the mean area is nearer to the truth. -/
def approxArea (p : Patch) : Float :=
  if p.level < 2 then meanArea p.level
  else
    let flat := 0.5 * ((p.vertex 2 - p.vertex 0).cross (p.vertex 3 - p.vertex 1)).norm
    flat * 2 / (1 + (1 - lesser (0.3183098861837907 * flat) 1).sqrt)

/-- The area of a spherical triangle. -/
def triangleArea (a b c : Vec3) : Float :=
  2 * (a.dot (b.cross c)).abs.atan2 (1 + a.dot b + b.dot c + c.dot a)

/-- The area, as that of two spherical triangles. -/
def exactArea (p : Patch) : Float :=
  triangleArea (p.vertex 0) (p.vertex 1) (p.vertex 2) +
    triangleArea (p.vertex 0) (p.vertex 2) (p.vertex 3)

/-- The cap about the middle of the coordinates that contains the corners. -/
def boundingCap (p : Patch) : Cap :=
  let axis := (Chart.toSpace ⟨p.face, p.u.middle, p.v.middle⟩).normalize
  (List.range 4).foldl (fun cap k => cap.grownTo (p.vertex k)) ⟨axis, 0⟩

def boundingRect (p : Patch) : LatLngRect :=
  p.boundingCap.boundingRect

/-- Whether a point lies in the patch or on its border. -/
def containsPoint (p : Patch) (q : Vec3) : Bool :=
  match Chart.project? p.face q with
  | none => false
  | some f => p.u.nearlyContains f.u && p.v.nearlyContains f.v

def containsCell? (p q : Patch) : Except Fault Bool :=
  p.cell.contains? q.cell

def meetsCell? (p q : Patch) : Except Fault Bool :=
  p.cell.intersects? q.cell

end Patch

end QuadSphere
