import QuadSphere.Cover.Basic

/-!
# Covers on a grid of levels

Some uses need cells of certain levels only: none coarser than a least level, and from there on
only every second or third level.  Refining a cover replaces each cell by its descendants on the
next such level, which are found by walking along the curve.
-/

namespace QuadSphere

namespace Cell

/-- The cells from `c` on that come before `stop`, after those already passed. -/
def walk (stop c : Cell) (passed : List Cell) : Except Fault (List Cell) :=
  if c = stop then .ok passed.reverse
  else if c.word < c.next.word then walk stop c.next (c :: passed)
  else .error .endless
termination_by UInt64.size - c.word.toNat
decreasing_by
  have := UInt64.lt_iff_toNat_lt.mp ‹c.word < _›
  have := c.next.word.toNat_lt_size
  omega

end Cell

namespace Cover

/-- The first level on the grid that is not coarser than `level`; the leaf level ends every grid.
All strides are divisors of the leaf level. -/
def gridLevel (least stride level : Nat) : Nat :=
  let l := max level least
  if 1 < stride then min leafLevel (l + (leafLevel - (l - least)) % stride) else l

/-- The descendants of a cell on the grid. -/
def refineCell (least stride : Nat) (c : Cell) : Except Fault (List Cell) := do
  let level := gridLevel least stride c.level
  if level = c.level then return [c]
  let stop ← c.endAt? level
  let first ← c.firstAt? level
  Cell.walk stop first []

def checkGrid (least stride : Nat) : Except Refusal Unit := do
  Cell.checkLevel least
  if stride < 1 ∨ 3 < stride then throw (.strideOutOfRange stride)

/-- The cells of a cover, each replaced by its descendants on the grid. -/
def refine (A : Cover) (least stride : Nat) : Except Failure (List Cell) := do
  Refusal.asFailure (checkGrid least stride)
  return (← Fault.asFailure (A.cells.mapM (refineCell least stride))).flatten

end Cover

end QuadSphere
