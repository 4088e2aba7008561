/-!
# Angles

An angle at the centre of the sphere is held in radians.
-/

namespace QuadSphere

/-- Half the circumference of the unit circle. -/
def pi : Float := 3.141592653589793

def halfPi : Float := 1.5707963267948966

structure Angle where
  radians : Float

namespace Angle

def degreesPerRadian : Float := 57.29577951308232

def ofDegrees (x : Float) : Angle :=
  ⟨x * (pi / 180)⟩

/-- The angle that a distance along the ground spans on a sphere of the given radius. -/
def ofDistance (distance radius : Float) : Angle :=
  ⟨distance / radius⟩

def degrees (a : Angle) : Float :=
  a.radians * degreesPerRadian

end Angle

/-- The smaller of two numbers.  One that is no number loses, and of two equal ones the first is
taken, which tells `0` and `-0` apart. -/
def lesser (a b : Float) : Float :=
  if a.isNaN then b else if b < a then b else a

/-- The larger of two numbers, with the rules of `lesser`. -/
def greater (a b : Float) : Float :=
  if a.isNaN then b else if a < b then b else a

end QuadSphere
