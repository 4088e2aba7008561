import QuadSphere.Cover.NormalForm
import QuadSphere.Cell.Adjacency
import QuadSphere.Sphere.Scale

/-!
# Growing a cover

A cover grows by the neighbours of its cells.  Cells finer than the level of the neighbours are
first replaced by their ancestors on that level.
-/

namespace QuadSphere.Cover

/-- The cells of a list, from last to first, and their neighbours of a level.  Where an ancestor
takes the place of a cell, it also takes the place of the cells before that lie below it. -/
def spread? (level : Nat) : List Cell → Except Fault (List Cell)
  | [] => .ok []
  | c :: before => do
    if c.marker < Cell.markerAt level then
      let a ← c.ancestor? level
      let around ← a.neighbours? level
      return a :: around ++ (← spread? level (before.dropWhile a.contains))
    else
      let around ← c.neighbours? level
      return c :: around ++ (← spread? level before)
termination_by cells => cells.length
decreasing_by
  · have := (List.dropWhile_sublist (l := before) a.contains).length_le
    simp only [List.length_cons]; omega
  · simp

/-- The cover grown by the neighbours on a level. -/
def growAt (A : Cover) (level : Nat) : Except Fault Cover := do
  ofList (← spread? level A.cells.reverse)

def growByLevel (A : Cover) (level : Nat) : Except Failure Cover := do
  Refusal.asFailure (Cell.checkLevel level)
  Fault.asFailure (A.growAt level)

/-- The level of the coarsest cells. -/
def coarsestLevel (A : Cover) : Nat :=
  A.cells.foldl (fun l c => min l c.level) leafLevel

/-- The cover grown by at least a radius, on a level no more than `finer` levels finer than its
coarsest cells.  A radius wider than a face takes two steps. -/
def growByRadius (A : Cover) (radius : Angle) (finer : Nat) : Except Fault Cover := do
  let wide := Scale.minWidth.finestLevel radius.radians
  let level := min (A.coarsestLevel + finer) wide
  if wide = 0 ∧ radius.radians > Scale.minWidth.value 0 then
    (← A.growAt 0).growAt level
  else
    A.growAt level

end QuadSphere.Cover
