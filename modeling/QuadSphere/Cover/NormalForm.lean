import QuadSphere.Cover.Basic

/-!
# Normalization

A list of cells is sorted and then read once.  The cells read so far are kept normalized on a
stack, the last of them on top.  A cell that the top contains is dropped, cells that the new one
contains are taken off, and the new one is put on top; whenever it completes four siblings, their
parent takes their place.
-/

namespace QuadSphere.Cover

/-- Puts a cell that lies behind the whole stack on top of it. -/
def push? : List Cell → Cell → Except Fault (List Cell)
  | c :: b :: a :: rest, d => do
    if ← areSiblings? a b c d then push? rest (← d.parent?) else return d :: c :: b :: a :: rest
  | stack, d => .ok (d :: stack)

/-- Adds the next cell of a sorted list. -/
def absorb? (stack : List Cell) (c : Cell) : Except Fault (List Cell) :=
  match stack with
  | [] => push? [] c
  | top :: _ => do
    if ← top.contains? c then return stack
    c.requireRange
    push? (stack.dropWhile c.contains) c

/-- The cells of the normal form. -/
def normalCells? (cells : List Cell) : Except Fault (List Cell) := do
  return (← (cells.mergeSort (· ≤ ·)).foldlM absorb? []).reverse

/-- The normalized cover of the cells of a list, in any order. -/
def ofList (cells : List Cell) : Except Fault Cover := do
  let A : Cover := ⟨← normalCells? cells⟩
  A.requireNormal
  return A

/-- The cover in normal form, and whether that has fewer cells. -/
def normalize (A : Cover) : Except Fault (Cover × Bool) := do
  let B ← ofList A.cells
  return (B, B.size < A.size)

end QuadSphere.Cover
