/-!
# Points of space

A point of the sphere is a vector of length one.  Operations that only need a direction take
vectors of any length.
-/

namespace QuadSphere

structure Vec3 where
  x : Float
  y : Float
  z : Float

/-- One of the three axes of space. -/
inductive Axis where
  | x
  | y
  | z
deriving DecidableEq

/-- The axes are numbered from 0 to 2. -/
def Axis.index : Axis → Nat
  | x => 0
  | y => 1
  | z => 2

namespace Vec3

def zero : Vec3 := ⟨0, 0, 0⟩

instance : Add Vec3 := ⟨fun p q => ⟨p.x + q.x, p.y + q.y, p.z + q.z⟩⟩

instance : Sub Vec3 := ⟨fun p q => ⟨p.x - q.x, p.y - q.y, p.z - q.z⟩⟩

instance : Neg Vec3 := ⟨fun p => ⟨-p.x, -p.y, -p.z⟩⟩

/-- The components are compared as numbers. -/
instance : BEq Vec3 := ⟨fun p q => p.x == q.x && p.y == q.y && p.z == q.z⟩

/-- The vector made longer by a factor. -/
def scale (p : Vec3) (k : Float) : Vec3 :=
  ⟨p.x * k, p.y * k, p.z * k⟩

def dot (p q : Vec3) : Float :=
  p.x * q.x + p.y * q.y + p.z * q.z

def cross (p q : Vec3) : Vec3 :=
  ⟨p.y * q.z - p.z * q.y, p.z * q.x - p.x * q.z, p.x * q.y - p.y * q.x⟩

/-- The square of the length. -/
def norm2 (p : Vec3) : Float :=
  p.dot p

def norm (p : Vec3) : Float :=
  p.norm2.sqrt

/-- The vector of length one in the same direction; the zero vector is kept. -/
def normalize (p : Vec3) : Vec3 :=
  let n := p.norm
  if n == 0 then p else p.scale (1 / n)

/-- The angle between two vectors, in radians. -/
def angle (p q : Vec3) : Float :=
  (p.cross q).norm.atan2 (p.dot q)

def component (p : Vec3) : Axis → Float
  | .x => p.x
  | .y => p.y
  | .z => p.z

/-- The axis along which the vector is longest; of equal ones the later is taken. -/
def longestAxis (p : Vec3) : Axis :=
  let (ax, ay, az) := (p.x.abs, p.y.abs, p.z.abs)
  if ax > ay then
    if ax > az then .x else .z
  else if ay > az then .y
  else .z

def latitude (p : Vec3) : Float :=
  p.z.atan2 (p.x * p.x + p.y * p.y).sqrt

def longitude (p : Vec3) : Float :=
  p.y.atan2 p.x

/-- The point of the sphere with the given latitude and longitude, in radians. -/
def ofLatLng (lat lng : Float) : Vec3 :=
  ⟨lat.cos * lng.cos, lat.cos * lng.sin, lat.sin⟩

end Vec3

end QuadSphere
