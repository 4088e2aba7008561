import QuadSphere.Sphere.LatLngRect

/-!
# Caps

A cap is the part of the sphere on one side of a plane, given by the direction of its middle and
by its height over the plane.  A cap of negative height is empty and one of height 2 is the whole
sphere.
-/

namespace QuadSphere

structure Cap where
  axis : Vec3
  height : Float

namespace Cap

/-- A cap that is to contain a point is made higher by this factor, since heights are rounded. -/
def roundUp : Float := 1 + 2 * 2.220446049250313e-16

/-- The height of the cap of a given radius. -/
def heightOf (radians : Float) : Float :=
  if radians < 0 then -1
  else if radians ≥ pi then 2
  else
    let d := (0.5 * radians).sin
    2 * d * d

def ofAngle (axis : Vec3) (a : Angle) : Cap :=
  ⟨axis, heightOf a.radians⟩

def empty : Cap := ⟨⟨1, 0, 0⟩, -1⟩

def full : Cap := ⟨⟨1, 0, 0⟩, 2⟩

def isEmpty (c : Cap) : Bool :=
  c.height < 0

def isFull (c : Cap) : Bool :=
  c.height ≥ 2

/-- The radius, measured along the sphere; negative if the cap is empty. -/
def angle (c : Cap) : Angle :=
  if c.isEmpty then ⟨-1⟩
  else ⟨2 * (lesser (0.5 * c.height).sqrt 1).asin⟩

def containsPoint (c : Cap) (p : Vec3) : Bool :=
  (c.axis - p).norm2 ≤ 2 * c.height

/-- The cap about the same axis, high enough to contain a point. -/
def grownTo (c : Cap) (p : Vec3) : Cap :=
  if c.isEmpty then ⟨p, 0⟩
  else ⟨c.axis, greater c.height (roundUp * 0.5 * (c.axis - p).norm2)⟩

/-- The cap about the same axis, high enough to contain another cap. -/
def grownOver (c d : Cap) : Cap :=
  if c.isEmpty then d
  else if d.isEmpty then c
  else
    let reach := c.axis.angle d.axis + d.angle.radians
    if reach ≥ pi then ⟨c.axis, 2⟩
    else ⟨c.axis, greater c.height (roundUp * heightOf reach)⟩

/-- The remainder of `x` by `y` nearest to zero. -/
def nearRemainder (x y : Float) : Float :=
  x - (x / y).round * y

/-- How far the longitudes of a cap reach to either side of its axis, if it holds no pole.  At the
widest place the meridian touches the cap, so the sine of the reach is the sine of the radius by
the cosine of the latitude. -/
def longitudeReach? (c : Cap) (lat : Float) : Option Float :=
  let sinRadius := (c.height * (2 - c.height)).sqrt
  if sinRadius ≤ lat.cos then some (sinRadius / lat.cos).asin else none

/-- The rectangle around a cap, with all longitudes if the cap holds a pole. -/
def boundingRect (c : Cap) : LatLngRect :=
  if c.isEmpty then .empty
  else
    let lat := c.axis.latitude
    let lng := c.axis.longitude
    let radius := c.angle.radians
    let (lo, hi) := (lat - radius, lat + radius)
    let south := lo ≤ -halfPi
    let north := hi ≥ halfPi
    let lats : Latitudes := ⟨if south then -halfPi else lo, if north then halfPi else hi⟩
    match if south || north then none else c.longitudeReach? lat with
    | none => .ofBounds lats (-pi) pi
    | some reach =>
      .ofBounds lats (nearRemainder (lng - reach) (2 * pi)) (nearRemainder (lng + reach) (2 * pi))

end Cap

end QuadSphere
