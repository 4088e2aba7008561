import QuadSphere.Cover.Membership
import QuadSphere.Patch

/-!
# Regions

What a patch and a cover have in common: bounds, and tests against cells and points.  The areas
and bounds of a cover are put together from those of its cells.
-/

namespace QuadSphere

namespace Cover

/-- Sums start from `-0`, the number that changes no other when it is added. -/
def sum (xs : List Float) : Float :=
  xs.foldl (· + ·) (-0.0)

def meanArea (A : Cover) : Float :=
  sum (A.cells.map fun c => Patch.meanArea c.level)

def approxArea (A : Cover) : Float :=
  sum (A.cells.map fun c => (Patch.ofCell c).approxArea)

def exactArea (A : Cover) : Float :=
  sum (A.cells.map fun c => (Patch.ofCell c).exactArea)

/-- The direction of the centres of the cells, weighted by the mean areas of their levels. -/
def axis (A : Cover) : Vec3 :=
  let centroid := A.cells.foldl (fun p c => p + c.center.scale (Patch.meanArea c.level)) Vec3.zero
  if centroid == Vec3.zero then ⟨1, 0, 0⟩ else centroid.normalize

/-- The cap about the axis that contains the caps of the cells. -/
def boundingCap (A : Cover) : Cap :=
  if A.isEmpty then .empty
  else A.cells.foldl (fun cap c => cap.grownOver (Patch.ofCell c).boundingCap) ⟨A.axis, 0⟩

/-- The union of the rectangles of the cells. -/
def boundingRect (A : Cover) : LatLngRect :=
  A.cells.foldl (fun r c => r.union (Patch.ofCell c).boundingRect) .empty

end Cover

class Region (α : Type) where
  boundingCap : α → Cap
  boundingRect : α → LatLngRect
  containsCell? : α → Patch → Except Fault Bool
  /-- May also hold of a cell that the region does not meet. -/
  mayMeetCell? : α → Patch → Except Fault Bool
  containsPoint? : α → Vec3 → Except Fault Bool

instance : Region Patch where
  boundingCap := Patch.boundingCap
  boundingRect := Patch.boundingRect
  containsCell? := Patch.containsCell?
  mayMeetCell? := Patch.meetsCell?
  containsPoint? p q := .ok (p.containsPoint q)

instance : Region Cover where
  boundingCap := Cover.boundingCap
  boundingRect := Cover.boundingRect
  containsCell? A p := A.contains? p.cell
  mayMeetCell? A p := A.intersects? p.cell
  containsPoint? := Cover.containsPoint?

end QuadSphere
