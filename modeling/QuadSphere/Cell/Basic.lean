import QuadSphere.Refusal

/-!
# Cells

Each of the six faces of a cube is a square that is cut into four again and again, thirty times.
The squares of all sizes are the cells.  A cell is one 64-bit word: three bits for the face, two
bits for each cut (which of the four parts was taken), a marker bit `1`, and zeros.

The leaves below a cell are the odd words from `firstLeaf` to `lastLeaf`, so `contains` and
`intersects` are comparisons of words.  Every word can stand where a cell is expected; `isValid`
tells the cells apart.  Where an operation has no meaning for a word, its version with a question
mark says so, and the plain version gives the value that modular arithmetic gives.
-/

namespace QuadSphere

/-- The level of a leaf: the number of cuts from a face to the smallest squares. -/
def leafLevel : Nat := 30

def faceCount : Nat := 6

/-- The side of a face, measured in leaves. -/
def faceSide : Nat := 1 <<< leafLevel

/-- The number of bits below the face: two for each level, and the marker. -/
def positionBits : Nat := 2 * leafLevel + 1

/-- A cell, or any other word that stands where a cell is expected. -/
structure Cell where
  word : UInt64
deriving DecidableEq

namespace Cell

instance : LE Cell := ⟨fun a b => a.word ≤ b.word⟩

instance : LT Cell := ⟨fun a b => a.word < b.word⟩

instance (a b : Cell) : Decidable (a ≤ b) := inferInstanceAs (Decidable (a.word ≤ b.word))

instance (a b : Cell) : Decidable (a < b) := inferInstanceAs (Decidable (a.word < b.word))

instance : Ord Cell := ⟨fun a b => compare a.word b.word⟩

/-- The zero word, which stands for no cell. -/
def null : Cell := ⟨0⟩

/-- The largest word, which comes after all cells. -/
def sentinel : Cell := ⟨0xffffffffffffffff⟩

/-! ## The parts of a word -/

def face (c : Cell) : Nat :=
  (c.word >>> 61).toNat

/-- The bits below the face, the marker among them. -/
def position (c : Cell) : UInt64 :=
  c.word &&& 0x1fffffffffffffff

/-- The lowest bit that is set. -/
def marker (c : Cell) : UInt64 :=
  c.word &&& (0 - c.word)

/-- The number of zeros below the marker, 64 for the zero word. -/
def trailingZeros (c : Cell) : Nat :=
  if c.word = 0 then 64 else c.marker.toNat.log2

/-- How often the cell can be cut into four. -/
def cutsLeft (c : Cell) : Nat :=
  c.trailingZeros / 2

def level (c : Cell) : Nat :=
  leafLevel - c.cutsLeft

def isLeaf (c : Cell) : Bool :=
  c.word &&& 1 != 0

/-- The marker of the cells of one level. -/
def markerAt (level : Nat) : UInt64 :=
  UInt64.ofNat (1 <<< (2 * (leafLevel - level)))

/-- No bit below the marker of a face is set. -/
def isFace (c : Cell) : Bool :=
  c.word &&& (markerAt 0 - 1) == 0

/-- A cell has one of the six faces and its marker in an even place. -/
def isValid (c : Cell) : Bool :=
  c.face < faceCount && c.marker &&& 0x1555555555555555 != 0

/-- The side of the cells of one level, measured in leaves. -/
def sideAt (level : Nat) : Nat :=
  1 <<< (leafLevel - level)

/-- Levels end with that of the leaves. -/
def requireLevel (level : Nat) : Except Fault Unit :=
  if level ≤ leafLevel then .ok () else .error .levelOutside

def markerAt? (level : Nat) : Except Fault UInt64 := do
  requireLevel level
  return markerAt level

def sideAt? (level : Nat) : Except Fault Nat := do
  requireLevel level
  return sideAt level

/-! ## The range of leaves -/

def firstLeaf (c : Cell) : Cell :=
  ⟨c.word - (c.marker - 1)⟩

def lastLeaf (c : Cell) : Cell :=
  ⟨c.word + (c.marker - 1)⟩

/-- The zero word has no range. -/
def requireRange (c : Cell) : Except Fault Unit :=
  if c.word = 0 then .error .zeroWord else .ok ()

def firstLeaf? (c : Cell) : Except Fault Cell := do
  c.requireRange
  return c.firstLeaf

def lastLeaf? (c : Cell) : Except Fault Cell := do
  c.requireRange
  return c.lastLeaf

/-- The other cell is the cell itself or lies below it. -/
def contains (c d : Cell) : Bool :=
  c.firstLeaf ≤ d && d ≤ c.lastLeaf

/-- The two cells have a leaf in common. -/
def intersects (c d : Cell) : Bool :=
  d.firstLeaf ≤ c.lastLeaf && c.firstLeaf ≤ d.lastLeaf

def contains? (c d : Cell) : Except Fault Bool := do
  c.requireRange
  return c.contains d

def intersects? (c d : Cell) : Except Fault Bool := do
  d.requireRange
  c.requireRange
  return c.intersects d

/-! ## Steps along the tree -/

/-- The bits of a word above a marker, ended by that marker. -/
def cutAt (w marker : UInt64) : Cell :=
  ⟨(w &&& (0 - marker)) ||| marker⟩

def parent (c : Cell) : Cell :=
  cutAt c.word (c.marker <<< 2)

def parent? (c : Cell) : Except Fault Cell :=
  if c.isFace then .error .faceHasNoParent else .ok c.parent

def ancestor (c : Cell) (level : Nat) : Cell :=
  cutAt c.word (markerAt level)

def ancestor? (c : Cell) (level : Nat) : Except Fault Cell :=
  if level ≤ c.level then .ok (c.ancestor level) else .error .levelOutside

/-- The children are numbered from 0 to 3 in the order of their words. -/
def child (c : Cell) (k : Nat) : Cell :=
  let half : UInt64 := c.marker >>> 2
  ⟨c.word + (2 * UInt64.ofNat k + 1 - 4) * half⟩

def child? (c : Cell) (k : Nat) : Except Fault Cell :=
  if c.isLeaf then .error .leafHasNoChild
  else if 4 ≤ k then .error .noSuchChild
  else .ok (c.child k)

def children? (c : Cell) : Except Fault (List Cell) :=
  (List.range 4).mapM c.child?

def firstChild (c : Cell) : Cell :=
  ⟨c.word - c.marker + (c.marker >>> 2)⟩

/-- A sum of words, if it is itself a word. -/
def sum? (w v : UInt64) : Except Fault UInt64 :=
  if w.toNat + v.toNat < UInt64.size then .ok (w + v) else .error .overflow

/-- What comes after the last child, on the children's level. -/
def childrenEnd? (c : Cell) : Except Fault Cell := do
  return ⟨← sum? (← sum? c.word c.marker) (c.marker >>> 2)⟩

/-- The first cell below this one on a level, or this cell on its own level. -/
def firstAt (c : Cell) (level : Nat) : Cell :=
  ⟨c.word - c.marker + markerAt level⟩

/-- Below a cell lie the levels from its own to that of the leaves. -/
def requireDescent (c : Cell) (level : Nat) : Except Fault Unit :=
  if c.level ≤ level ∧ level ≤ leafLevel then .ok () else .error .levelOutside

def firstAt? (c : Cell) (level : Nat) : Except Fault Cell := do
  c.requireDescent level
  return c.firstAt level

/-- What comes after the last cell below this one on a level. -/
def endAt (c : Cell) (level : Nat) : Cell :=
  ⟨c.word + c.marker + markerAt level⟩

def endAt? (c : Cell) (level : Nat) : Except Fault Cell := do
  c.requireDescent level
  return ⟨← sum? (← sum? c.word c.marker) (markerAt level)⟩

/-- Which child the path to the cell takes from the level above. -/
def branch (c : Cell) (level : Nat) : Nat :=
  (c.word.toNat >>> (2 * (leafLevel - level) + 1)) % 4

def branch? (c : Cell) (level : Nat) : Except Fault Nat :=
  if 1 ≤ level ∧ level ≤ c.level then .ok (c.branch level) else .error .levelOutside

/-! ## Steps along the curve -/

/-- The next cell of the same level, on the next face after the last one of a face. -/
def next (c : Cell) : Cell :=
  ⟨c.word + (c.marker <<< 1)⟩

def prev (c : Cell) : Cell :=
  ⟨c.word - (c.marker <<< 1)⟩

/-! ## Building cells -/

/-- The cell that is a whole face. -/
def root (face : Nat) : Cell :=
  ⟨(UInt64.ofNat face <<< 61) + markerAt 0⟩

def checkFace (face : Nat) : Except Refusal Unit :=
  if face < faceCount then .ok () else .error (.faceOutOfRange face)

def checkLevel (level : Nat) : Except Refusal Unit :=
  if level ≤ leafLevel then .ok () else .error (.levelOutOfRange level)

def ofFace (face : Nat) : Except Refusal Cell := do
  checkFace face
  return root face

/-- The leaf of a face whose position has the given bits; bits above those of a position do not
count, and the marker is set. -/
def leafAt (face : Nat) (position : UInt64) : Cell :=
  ⟨(UInt64.ofNat face <<< 61) ||| ((position &&& 0x1fffffffffffffff) ||| 1)⟩

/-- The cell of a level around a position; bits finer than the level do not count. -/
def ofPosition (face : Nat) (position : UInt64) (level : Nat) : Except Refusal Cell := do
  checkFace face
  checkLevel level
  return (leafAt face position).ancestor level

/-- The first cell of a level along the whole curve. -/
def first? (level : Nat) : Except Fault Cell :=
  (root 0).firstAt? level

/-- What comes after the last cell of a level along the whole curve. -/
def end? (level : Nat) : Except Fault Cell :=
  (root 5).endAt? level

/-- What comes after the last leaf of the last face. -/
def leafEnd : Cell :=
  (root 5).endAt leafLevel

end Cell

end QuadSphere
