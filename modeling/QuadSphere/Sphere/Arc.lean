import QuadSphere.Sphere.Angle

/-!
# Arcs of longitudes

An arc runs east from `lo` to `hi`, both between `-pi` and `pi`.  If `lo` is greater than `hi` it
runs across the meridian opposite to zero.  That meridian is written `pi` and not `-pi`, except in
two arcs that stand for something else: `[-pi, pi]` for the whole circle and `[pi, -pi]` for no
longitude at all.
-/

namespace QuadSphere

structure Arc where
  lo : Float
  hi : Float

namespace Arc

def full : Arc := ⟨-pi, pi⟩

def empty : Arc := ⟨pi, -pi⟩

/-- The arc between two longitudes, with `-pi` written as `pi` unless the arc is full or empty. -/
def ofBounds (lo hi : Float) : Arc :=
  let lo := if lo == -pi && hi != pi then pi else lo
  ⟨lo, if hi == -pi && lo != pi then pi else hi⟩

def isFull (x : Arc) : Bool :=
  x.hi - x.lo == 2 * pi

def isEmpty (x : Arc) : Bool :=
  x.lo == pi && x.hi == -pi

/-- The arc runs across the meridian opposite to zero, or is empty. -/
def isInverted (x : Arc) : Bool :=
  x.lo > x.hi

def contains (x : Arc) (p : Float) : Bool :=
  if x.isInverted then (p ≥ x.lo || p ≤ x.hi) && !x.isEmpty
  else p ≥ x.lo && p ≤ x.hi

def containsArc (x y : Arc) : Bool :=
  if x.isInverted then
    if y.isInverted then y.lo ≥ x.lo && y.hi ≤ x.hi
    else (y.lo ≥ x.lo || y.hi ≤ x.hi) && !x.isEmpty
  else if y.isInverted then x.isFull || y.isEmpty
  else y.lo ≥ x.lo && y.hi ≤ x.hi

/-- The way east from one longitude to another. -/
def eastward (a b : Float) : Float :=
  let d := b - a
  if d ≥ 0 then d else (b + pi) - (a - pi)

/-- An arc that contains both.  Arcs that lie apart are joined across the smaller of the two gaps
between them. -/
def union (x y : Arc) : Arc :=
  if y.isEmpty then x
  else if x.contains y.lo then
    if x.contains y.hi then
      if x.containsArc y then x else full
    else ⟨x.lo, y.hi⟩
  else if x.contains y.hi then ⟨y.lo, x.hi⟩
  else if x.isEmpty || y.contains x.lo then y
  else if eastward y.hi x.lo < eastward x.hi y.lo then ⟨y.lo, x.hi⟩
  else ⟨x.lo, y.hi⟩

end Arc

end QuadSphere
