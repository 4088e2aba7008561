import QuadSphere.Sphere.Arc
import QuadSphere.Sphere.Vec3

/-!
# Rectangles of latitudes and longitudes

A rectangle is an interval of latitudes and an arc of longitudes, in radians.
-/

namespace QuadSphere

/-- An interval of latitudes, empty if `lo` is greater than `hi`. -/
structure Latitudes where
  lo : Float
  hi : Float

structure LatLngRect where
  lat : Latitudes
  lng : Arc

namespace LatLngRect

def ofBounds (lat : Latitudes) (lngLo lngHi : Float) : LatLngRect :=
  ⟨lat, .ofBounds lngLo lngHi⟩

def empty : LatLngRect := ⟨⟨1, 0⟩, .empty⟩

def full : LatLngRect := ⟨⟨-halfPi, halfPi⟩, .full⟩

def isEmpty (r : LatLngRect) : Bool :=
  r.lat.lo > r.lat.hi

def isFull (r : LatLngRect) : Bool :=
  r.lat.lo == -halfPi && r.lat.hi == halfPi && r.lng.isFull

/-- Whether a latitude and a longitude lie in the rectangle; the longitude `-pi` is `pi`. -/
def containsAt (r : LatLngRect) (lat lng : Float) : Bool :=
  let lng := if lng == -pi then pi else lng
  lat ≥ r.lat.lo && lat ≤ r.lat.hi && r.lng.contains lng

def containsPoint (r : LatLngRect) (p : Vec3) : Bool :=
  r.containsAt p.latitude p.longitude

/-- A rectangle that contains both. -/
def union (r s : LatLngRect) : LatLngRect :=
  if r.isEmpty then s
  else if s.isEmpty then r
  else ⟨⟨lesser r.lat.lo s.lat.lo, greater r.lat.hi s.lat.hi⟩, r.lng.union s.lng⟩

end LatLngRect

end QuadSphere
