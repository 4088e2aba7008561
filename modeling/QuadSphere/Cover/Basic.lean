import QuadSphere.Cell.Token

/-!
# Covers

A cover is a list of cells that stands for the region they fill together.  In a normalized cover
the cells are in strictly increasing order, none contains another, and no four of them are the
children of one cell.  `Cover.isNormal?` tests this by looking at neighbours in the list only.
-/

namespace QuadSphere

structure Cover where
  cells : List Cell
deriving DecidableEq

namespace Cover

def empty : Cover := ⟨[]⟩

def isEmpty (A : Cover) : Bool :=
  A.cells.isEmpty

/-- The number of cells. -/
def size (A : Cover) : Nat :=
  A.cells.length

/-- Takes all cells out of a cover. -/
def detach (A : Cover) : List Cell × Cover :=
  (A.cells, empty)

/-- There is no binary form of a cover to write. -/
def encode (_ : Cover) : Except Fault ByteArray :=
  .error .encodeUnsupported

/-- There is no binary form of a cover to read. -/
def decode (_ : ByteArray) : Except Refusal Cover :=
  .error .decodeUnsupported

/-- The cells in order, with their paths. -/
def text (A : Cover) : String :=
  "[" ++ ", ".intercalate (A.cells.map Cell.pathText) ++ "]"

/-! ## The normal form -/

/-- The two bits that tell the children of one cell apart, where `d` is one of them. -/
def siblingBits? (d : Cell) : Except Fault UInt64 :=
  let low := d.marker <<< 1
  Cell.sum? low (low <<< 1)

/-- The four children of one cell.  Each pair of bits that tells children apart occurs once, so the
words cancel each other out, and beside that pair the words agree. -/
def areSiblings? (a b c d : Cell) : Except Fault Bool := do
  if a.word ^^^ b.word ^^^ c.word ≠ d.word then return false
  if d.isFace then return false
  let mask := ~~~(← siblingBits? d)
  return a.word &&& mask == d.word &&& mask && b.word &&& mask == d.word &&& mask &&
    c.word &&& mask == d.word &&& mask

/-- Each range ends before the next one begins.  The test stops at the first two that do not, and
breaks off at a zero word that it reaches. -/
def isSeparated? : List Cell → Except Fault Bool
  | a :: b :: rest => do
    a.requireRange
    b.requireRange
    if a.lastLeaf < b.firstLeaf then isSeparated? (b :: rest) else return false
  | _ => .ok true

/-- Four cells in a row are the children of one cell. -/
def hasSiblings? : List Cell → Except Fault Bool
  | a :: b :: c :: d :: rest => do
    if ← areSiblings? a b c d then return true else hasSiblings? (b :: c :: d :: rest)
  | _ => .ok false

def isNormalList? (cells : List Cell) : Except Fault Bool := do
  if ← isSeparated? cells then return !(← hasSiblings? cells) else return false

def isNormal? (A : Cover) : Except Fault Bool :=
  isNormalList? A.cells

def requireNormal (A : Cover) : Except Fault Unit := do
  if ← A.isNormal? then return () else throw .notNormalized

end Cover

end QuadSphere
