import QuadSphere.Cell.Basic
import QuadSphere.Sphere.Vec3

/-!
# The faces of the cube and the sphere

A face of the cube carries plane coordinates `u`, `v` from -1 to 1, in which it lies in space as
`Chart.toSpace` says.  Cut into equal squares in these coordinates, the cells in the middle of a
face would be much larger on the sphere than those in its corners, so squares are cut in even
coordinates from 0 to 1, which `Chart.plane` stretches into plane ones by a quadratic rule.
-/

namespace QuadSphere

/-- A point of a face in plane coordinates. -/
structure FacePoint where
  face : Nat
  u : Float
  v : Float

namespace Chart

/-- The plane coordinate of an even one. -/
def plane (s : Float) : Float :=
  if s ≥ 0.5 then (1 / 3) * (4 * s * s - 1)
  else (1 / 3) * (1 - 4 * (1 - s) * (1 - s))

/-- The even coordinate of a plane one. -/
def even (u : Float) : Float :=
  if u ≥ 0 then 0.5 * (1 + 3 * u).sqrt
  else 1 - 0.5 * (1 - 3 * u).sqrt

/-- The column or row of the leaf at an even coordinate.  Coordinates off the face belong to the
leaf at the border, and what is no number to the first leaf. -/
def leafIndex (s : Float) : Nat :=
  min (faceSide.toFloat * s).toUInt32.toNat (faceSide - 1)

/-- The point of the cube, not normalized, with the given plane coordinates. -/
def toSpace (p : FacePoint) : Vec3 :=
  match p.face with
  | 0 => ⟨1, p.u, p.v⟩
  | 1 => ⟨-p.u, 1, p.v⟩
  | 2 => ⟨-p.u, -p.v, 1⟩
  | 3 => ⟨-1, -p.v, -p.u⟩
  | 4 => ⟨p.v, -1, -p.u⟩
  | _ => ⟨p.v, p.u, -1⟩

/-- The plane coordinates of a point that lies on the side of the given face. -/
def project (face : Nat) (p : Vec3) : FacePoint :=
  match face with
  | 0 => ⟨face, p.y / p.x, p.z / p.x⟩
  | 1 => ⟨face, -p.x / p.y, p.z / p.y⟩
  | 2 => ⟨face, -p.x / p.z, -p.y / p.z⟩
  | 3 => ⟨face, p.z / p.x, p.y / p.x⟩
  | 4 => ⟨face, p.z / p.y, -p.x / p.y⟩
  | _ => ⟨face, -p.y / p.z, -p.x / p.z⟩

/-- The face that a point lies over, and its plane coordinates there. -/
def ofSpace (p : Vec3) : FacePoint :=
  let axis := p.longestAxis
  project (if p.component axis < 0 then axis.index + 3 else axis.index) p

/-- The axis that a face lies across. -/
def axisOf (face : Nat) : Axis :=
  match face % 3 with
  | 0 => .x
  | 1 => .y
  | _ => .z

/-- The plane coordinates on the given face, if the point lies on the side of that face. -/
def project? (face : Nat) (p : Vec3) : Option FacePoint :=
  let c := p.component (axisOf face)
  if (if face < 3 then c > 0 else c < 0) then some (project face p) else none

end Chart

end QuadSphere
