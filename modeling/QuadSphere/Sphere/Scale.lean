import QuadSphere.Cell.Basic
import QuadSphere.Sphere.Angle
import QuadSphere.Binary64

/-!
# Sizes of cells by level

A length of the cells halves from level to level and an area is quartered.  A scale gives such a
size on every level, and `finestLevel` the finest level on which the size has not yet fallen
below a given one.
-/

namespace QuadSphere

structure Scale where
  /-- 1 for a length and 2 for an area. -/
  dimension : Nat
  /-- The size on level 0. -/
  unit : Float

namespace Scale

/-- No cell is narrower than this. -/
def minWidth : Scale := ⟨1, 2 * 1.4142135623730951 / 3⟩

/-- The mean area of the cells. -/
def meanArea : Scale := ⟨2, 4 * pi / 6⟩

/-- The size on a level. -/
def value (s : Scale) (level : Nat) : Float :=
  s.unit * Binary64.twoPowNeg (s.dimension * level)

/-- The finest level whose size is at least `x`, found from a rounded logarithm, and level 0 if
there is none.  Every level will do if `x` is not positive. -/
def finestLevel (s : Scale) (x : Float) : Nat :=
  if x.isNaN || x ≤ 0 then leafLevel
  else min (Binary64.floorLog2 (s.unit / x) / s.dimension).toNat leafLevel

theorem finestLevel_le (s : Scale) (x : Float) : s.finestLevel x ≤ leafLevel := by
  rw [finestLevel]
  split
  · exact Nat.le_refl _
  · exact Nat.min_le_right _ _

/-- A scale of dimension zero has no finest level. -/
def finestLevel? (s : Scale) (x : Float) : Except Fault Nat :=
  if s.dimension = 0 ∧ ¬(x.isNaN || x ≤ 0) then .error .zeroDimension
  else .ok (s.finestLevel x)

end Scale

end QuadSphere
