import QuadSphere.Refusal
import QuadSphere.Json.Reader

/-!
# Refusals in JSON

A refusal is an object with one field, named for the cause, that holds a record of its arguments.
The one without arguments is a string.
-/

namespace QuadSphere.Refusal

/-- The name of the cause. -/
def name : Refusal → String
  | levelOutOfRange _ => "LevelOutOfRange"
  | faceOutOfRange _ => "FaceOutOfRange"
  | strideOutOfRange _ => "LevelModOutOfRange"
  | notLeaf _ => "NotLeaf"
  | invertedRange .. => "InvertedRange"
  | invalidToken _ => "InvalidToken"
  | decodeUnsupported => "DecodeUnsupported"

/-- The arguments by name, as they are written. -/
def arguments : Refusal → List (String × String)
  | levelOutOfRange l => [("level", toString l)]
  | faceOutOfRange f => [("face", toString f)]
  | strideOutOfRange s => [("level_mod", toString s)]
  | notLeaf w => [("id", toString w.toNat)]
  | invertedRange a b => [("min", toString a.toNat), ("max", toString b.toNat)]
  | invalidToken t => [("token", Json.quote t)]
  | decodeUnsupported => []

/-- An object of written values, without blanks. -/
def written (fields : List (String × String)) : String :=
  "\x7b" ++ ",".intercalate (fields.map fun (k, v) => Json.quote k ++ ":" ++ v) ++ "\x7d"

def toJson (r : Refusal) : String :=
  match r.arguments with
  | [] => Json.quote r.name
  | args => written [(r.name, written args)]

/-- The refusal of a name with the given arguments.  Levels, faces and strides are bytes. -/
def ofArguments? (name : String) (v : Json.Value) : Option Refusal :=
  let byte? (field : String) : Option Nat := do
    let [n] ← v.record? [field] | none
    n.natBelow? 256
  match name with
  | "LevelOutOfRange" => (byte? "level").map levelOutOfRange
  | "FaceOutOfRange" => (byte? "face").map faceOutOfRange
  | "LevelModOutOfRange" => (byte? "level_mod").map strideOutOfRange
  | "NotLeaf" => do
    let [n] ← v.record? ["id"] | none
    return notLeaf (UInt64.ofNat (← n.natBelow? UInt64.size))
  | "InvertedRange" => do
    let [a, b] ← v.record? ["min", "max"] | none
    let first ← a.natBelow? UInt64.size
    let last ← b.natBelow? UInt64.size
    return invertedRange (UInt64.ofNat first) (UInt64.ofNat last)
  | "InvalidToken" => do
    let [t] ← v.record? ["token"] | none
    return invalidToken (← t.text?)
  | "DecodeUnsupported" =>
    match v with
    | .null => some decodeUnsupported
    | _ => none
  | _ => none

def ofJson? (s : String) : Option Refusal := do
  match ← Json.parse? s with
  | .string cs =>
    if (← Json.unescape? cs) = "DecodeUnsupported".toList then return decodeUnsupported else none
  | .object [(k, v)] => ofArguments? (String.ofList (← Json.unescape? k)) v
  | _ => none

end QuadSphere.Refusal
