import QuadSphere.Text.Hex

/-!
# Refusals and faults

An operation can end in two ways other than with a value.  A `Refusal` is an answer: an argument
lies outside what the operation accepts, and `message` says which.  A `Fault` is no answer: the
caller broke a precondition, so no value and no refusal would be meaningful.  An operation that
can do both ends in a `Failure`.
-/

namespace QuadSphere

inductive Refusal where
  | levelOutOfRange (level : Nat)
  | faceOutOfRange (face : Nat)
  | strideOutOfRange (stride : Nat)
  | notLeaf (word : UInt64)
  | invertedRange (first last : UInt64)
  | invalidToken (token : String)
  | decodeUnsupported
deriving DecidableEq

inductive Fault where
  /-- The range of the zero word, which has no marker bit, was asked for. -/
  | zeroWord
  | faceHasNoParent
  | leafHasNoChild
  | noSuchChild
  /-- A level lies outside the levels that the operation is defined for. -/
  | levelOutside
  /-- A sum does not fit into 64 bits. -/
  | overflow
  /-- A list has no element at an index. -/
  | noSuchIndex
  | notNormalized
  | zeroDimension
  /-- A repeated step makes no progress on a word that is no cell. -/
  | endless
  | encodeUnsupported
deriving DecidableEq

inductive Failure where
  | refused (reason : Refusal)
  | broken (fault : Fault)
deriving DecidableEq

namespace Refusal

/-- A word in messages has all sixteen digits after `0x`. -/
def wordText (w : UInt64) : String :=
  "0x" ++ String.ofList (Hex.word w)

def message : Refusal → String
  | levelOutOfRange l => "Level '" ++ toString l ++ "' is out of range (valid: 0..=30)"
  | faceOutOfRange f => "Face '" ++ toString f ++ "' is out of range (valid: 0..=5)"
  | strideOutOfRange s => "Level modulus '" ++ toString s ++ "' is out of range (valid: 1..=3)"
  | notLeaf w => "CellId '" ++ wordText w ++ "' is not a leaf cell"
  | invertedRange a b =>
    "Range is inverted: min '" ++ wordText a ++ "' > max '" ++ wordText b ++ "'"
  | invalidToken t => "Token '" ++ t ++ "' is not a valid cell token"
  | decodeUnsupported => "Decoding a cell cover is not supported"

end Refusal

/-- A fault, seen by an operation that can also refuse. -/
def Fault.asFailure {α : Type} (r : Except Fault α) : Except Failure α :=
  r.mapError .broken

/-- A refusal, seen by an operation that can also break off. -/
def Refusal.asFailure {α : Type} (r : Except Refusal α) : Except Failure α :=
  r.mapError .refused

end QuadSphere
