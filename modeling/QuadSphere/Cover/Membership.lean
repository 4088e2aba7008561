import QuadSphere.Cover.Basic
import QuadSphere.Cell.Square

/-!
# Questions about a cover

A cell is looked for by bisection.  In a normalized cover two cells are candidates for a common
leaf with it: the first one whose word is not smaller, and the one before that.

`bisect p xs` is the place where a list turns from elements that satisfy `p` to elements that do
not.  The interval that holds that place is halved until one element is left.  On a list that turns
more than once the result is one of the turns, or an end of the list; the halving decides which.
-/

namespace QuadSphere

/-! ## Bisection -/

/-- Narrows the place where a list turns from elements that satisfy `p` to elements that do not
down to one of the `n` elements from index `base` on. -/
def bisectFrom {α : Type} (p : α → Bool) (xs : Array α) (base n : Nat) : Nat :=
  if n ≤ 1 then
    if (xs[base]?).any p then base + 1 else base
  else
    let half := n / 2
    bisectFrom p xs (if (xs[base + half]?).any p then base + half else base) (n - half)
termination_by n
decreasing_by omega

/-- The number of elements that satisfy `p`, if those come first. -/
def bisect {α : Type} (p : α → Bool) (xs : List α) : Nat :=
  bisectFrom p xs.toArray 0 xs.length

namespace Cover

/-! ## Looking for a cell -/

/-- The cell at an index. -/
def cell? (A : Cover) (i : Nat) : Option Cell :=
  A.cells[i]?

/-- The index of the first cell that is not smaller than the given one. -/
def seek (A : Cover) (c : Cell) : Nat :=
  bisect (· < c) A.cells

/-- The cell before an index. -/
def before? (A : Cover) (i : Nat) : Option Cell :=
  if i = 0 then none else A.cell? (i - 1)

/-- There is such a cell, and its range starts at the bound or before it. -/
def startsBy? (x : Option Cell) (bound : Cell) : Except Fault Bool :=
  match x with
  | none => .ok false
  | some x => do return (← x.firstLeaf?) ≤ bound

/-- There is such a cell, and its range ends at the bound or behind it. -/
def endsFrom? (x : Option Cell) (bound : Cell) : Except Fault Bool :=
  match x with
  | none => .ok false
  | some x => do return bound ≤ (← x.lastLeaf?)

/-- A cell of the cover contains the given one. -/
def contains? (A : Cover) (c : Cell) : Except Fault Bool :=
  let i := A.seek c
  startsBy? (A.cell? i) c <||> endsFrom? (A.before? i) c

/-- A cell of the cover has a leaf in common with the given one. -/
def intersects? (A : Cover) (c : Cell) : Except Fault Bool :=
  let i := A.seek c
  match A.cells with
  | [] => .ok false
  | _ => do
    c.requireRange
    startsBy? (A.cell? i) c.lastLeaf <||> endsFrom? (A.before? i) c.firstLeaf

/-- The leaf at a point belongs to the cover. -/
def containsPoint? (A : Cover) (p : Vec3) : Except Fault Bool :=
  A.contains? (.ofPoint p)

/-- Every cell of the second list lies in one of the first; both are in order. -/
def coversAll (xs : List Cell) : List Cell → Bool
  | [] => true
  | y :: ys =>
    let rest := xs.dropWhile (·.lastLeaf < y.firstLeaf)
    match rest with
    | [] => false
    | x :: _ => x.contains y && coversAll rest ys

/-- A cell of the first list has a leaf in common with one of the second; both are in order. -/
def overlap : List Cell → List Cell → Bool
  | x :: xs, y :: ys =>
    if x.lastLeaf < y.firstLeaf then overlap xs (y :: ys)
    else if y.lastLeaf < x.firstLeaf then overlap (x :: xs) ys
    else true
  | _, _ => false

/-- Two lists can be compared unless one has no cell, or one has the zero word. -/
def requireRanges (A B : Cover) : Except Fault Unit :=
  if A.cells ≠ [] ∧ B.cells ≠ [] ∧ (Cell.null ∈ A.cells ∨ Cell.null ∈ B.cells) then
    .error .zeroWord
  else .ok ()

/-- Every cell of the second cover lies in one of the first. -/
def containsCover? (A B : Cover) : Except Fault Bool := do
  A.requireNormal
  B.requireNormal
  requireRanges A B
  return coversAll A.cells B.cells

/-- The two covers have a leaf in common. -/
def intersectsCover? (A B : Cover) : Except Fault Bool := do
  A.requireNormal
  B.requireNormal
  requireRanges A B
  return overlap A.cells B.cells

/-- The number of leaves in the cells, each counted as often as it occurs. -/
def leafCount? (A : Cover) : Except Fault UInt64 :=
  A.cells.foldlM (fun n c => Cell.sum? n (Cell.markerAt c.level)) 0

end Cover

end QuadSphere
