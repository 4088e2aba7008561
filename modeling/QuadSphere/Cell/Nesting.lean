import QuadSphere.Cell.Basic

/-!
# How two cells lie to each other

The ranges of two cells are equal, nested or apart; they never overlap in part.
-/

namespace QuadSphere

/-- What the first of two cells is to the second. -/
inductive Relation where
  | equal
  | ancestor
  | descendant
  | disjoint
deriving DecidableEq

/-- What the second is to the first. -/
def Relation.swap : Relation → Relation
  | equal => equal
  | ancestor => descendant
  | descendant => ancestor
  | disjoint => disjoint

namespace Cell

def relation (c d : Cell) : Relation :=
  if c = d then .equal
  else if c.contains d then .ancestor
  else if d.contains c then .descendant
  else .disjoint

def relation? (c d : Cell) : Except Fault Relation :=
  if c = d then .ok .equal
  else do
    c.requireRange
    d.requireRange
    return c.relation d

end Cell

end QuadSphere
