import QuadSphere.Cell.Basic

/-!
# Cells as text

The token of a word is its sixteen hexadecimal digits without the zeros at the end.  The zero
word, which would have no digit left, has the token `X`.

The path to a cell is written as its face, a slash, and one digit for each level from the face down
to the cell.
-/

namespace QuadSphere.Cell

/-! ## Tokens -/

def token (c : Cell) : String :=
  if c.word = 0 then "X"
  else String.ofList ((Hex.word c.word).take (16 - c.trailingZeros / 4))

/-- One to sixteen digits, of either case, are read as the first digits of a word. -/
def ofToken (token : String) : Except Refusal Cell :=
  if token = "X" then .ok null
  else
    let cs := token.toList
    match Hex.value? cs with
    | some n =>
      if 1 ≤ cs.length ∧ cs.length ≤ 16 then
        .ok ⟨UInt64.ofNat (n <<< (4 * (16 - cs.length)))⟩
      else .error (.invalidToken token)
    | none => .error (.invalidToken token)

/-! ## Paths -/

/-- The children taken from the face down to the cell. -/
def path (c : Cell) : List Nat :=
  (List.range c.level).map fun l => c.branch (l + 1)

/-- The cell at the end of a path from a face. -/
def ofPath (face : Nat) (path : List Nat) : Cell :=
  path.foldl child (root face)

/-- A word that is no cell is written as a word. -/
def pathText (c : Cell) : String :=
  if c.isValid then
    String.ofList (Hex.digit c.face :: '/' :: c.path.map Hex.digit)
  else
    "Invalid: " ++ String.ofList (Hex.word c.word)

end QuadSphere.Cell
