import QuadSphere.Cover.Basic

/-!
# Runs of leaves

A run of leaves along the curve is covered by the fewest cells if each is the largest one that
starts where the last one ended and stays before the end of the run.  Laid out like that, the cells
are a normalized cover.
-/

namespace QuadSphere

namespace Cell

/-! ## The largest tile before a limit -/

/-- The largest cell, at most `levels` levels above, that starts with the same leaf and ends
before the limit. -/
def growBefore (limit : Cell) : Nat → Cell → Cell
  | 0, c => c
  | levels + 1, c =>
    let p := c.parent
    if p.firstLeaf = c.firstLeaf ∧ p.lastLeaf < limit then growBefore limit levels p else c

/-- The largest cell below `c`, at most `levels` levels down, that starts with the same leaf and
ends before the limit. -/
def shrinkBefore (limit : Cell) : Nat → Cell → Except Fault Cell
  | 0, _ => .error .endless
  | levels + 1, c =>
    let d := c.child 0
    if d.lastLeaf < limit then .ok d else shrinkBefore limit levels d

/-- The largest cell that starts with the first leaf of `c` and ends before the limit, or the
limit itself if that leaf is not before it. -/
def largestTile (c limit : Cell) : Except Fault Cell := do
  c.requireRange
  limit.requireRange
  if limit.firstLeaf ≤ c.firstLeaf then return limit
  if limit ≤ c.lastLeaf then shrinkBefore limit c.cutsLeft c
  else return growBefore limit c.level c

end Cell

namespace Cover

/-! ## Runs -/

/-- A leaf, or what comes after the last leaf of all. -/
def checkLeaf (c : Cell) : Except Refusal Unit :=
  if c.isLeaf && (c.isValid || c = Cell.leafEnd) then .ok () else .error (.notLeaf c.word)

/-- The largest tiles one after the other, from the first leaf of `c` to the limit. -/
def tiles (limit c : Cell) : Except Fault (List Cell) :=
  match c.largestTile limit with
  | .error e => .error e
  | .ok tile =>
    if tile = limit then .ok []
    else if c.firstLeaf.word < tile.next.firstLeaf.word then
      (tiles limit tile.next).map (tile :: ·)
    else .error .endless
termination_by UInt64.size - c.firstLeaf.word.toNat
decreasing_by
  have := UInt64.lt_iff_toNat_lt.mp ‹c.firstLeaf.word < _›
  have := tile.next.firstLeaf.word.toNat_lt_size
  omega

def checkRun (first last : Cell) : Except Refusal Unit := do
  checkLeaf first
  checkLeaf last
  if last < first then throw (.invertedRange first.word last.word)

/-- The leaves from the first one on and before the limit. -/
def ofLeavesBefore (first limit : Cell) : Except Failure Cover := do
  Refusal.asFailure (checkRun first limit)
  return ⟨← Fault.asFailure (tiles limit first)⟩

/-- The leaves from the first to the last. -/
def ofLeaves (first last : Cell) : Except Failure Cover := do
  Refusal.asFailure (checkRun first last)
  ofLeavesBefore first last.next

end Cover

end QuadSphere
