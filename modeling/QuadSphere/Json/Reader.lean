import QuadSphere.Json.Value

/-!
# Reading JSON

Each function reads something from the front of a text and gives it back with the rest.
`parse?` reads a text that is one value, with blanks around it and nothing else.
-/

namespace QuadSphere.Json

def isBlank (c : Char) : Bool :=
  c = ' ' || c = '\n' || c = '\t' || c = '\r'

def skipBlanks (s : List Char) : List Char :=
  s.dropWhile isBlank

/-- One digit or more. -/
def digits? (s : List Char) : Option (List Char × List Char) :=
  match s.takeWhile Char.isDigit with
  | [] => none
  | ds => some (ds, s.dropWhile Char.isDigit)

/-- Digits that do not start with a zero, or a zero alone. -/
def integer? : List Char → Option (List Char × List Char)
  | '0' :: rest => some (['0'], rest)
  | s => digits? s

/-- A part of a number that may be left out. -/
def fraction? : List Char → Option (List Char × List Char)
  | '.' :: rest => (digits? rest).map fun (ds, r) => ('.' :: ds, r)
  | s => some ([], s)

/-- A part of a number that may be left out. -/
def exponent? : List Char → Option (List Char × List Char)
  | c :: rest =>
    if c = 'e' ∨ c = 'E' then
      let (sign, rest) := match rest with
        | '+' :: r => (['+'], r)
        | '-' :: r => (['-'], r)
        | r => ([], r)
      (digits? rest).map fun (ds, r) => (c :: sign ++ ds, r)
    else some ([], c :: rest)
  | [] => some ([], [])

def number? (s : List Char) : Option (List Char × List Char) := do
  let (sign, s) := match s with
    | '-' :: r => (['-'], r)
    | r => ([], r)
  let (whole, s) ← integer? s
  let (part, s) ← fraction? s
  let (power, s) ← exponent? s
  return (sign ++ whole ++ part ++ power, s)

/-- A string behind its opening quote, to the closing one. -/
def string? : List Char → Option (List Char × List Char)
  | '"' :: rest => some ([], rest)
  | '\\' :: 'u' :: a :: b :: c :: d :: rest => do
    let _ ← Hex.value? [a, b, c, d]
    let (cs, r) ← string? rest
    return ('\\' :: 'u' :: a :: b :: c :: d :: cs, r)
  | '\\' :: e :: rest => do
    let _ ← escaped? e
    let (cs, r) ← string? rest
    return ('\\' :: e :: cs, r)
  | c :: rest => do
    if c = '\\' ∨ c.toNat < 0x20 then none
    let (cs, r) ← string? rest
    return (c :: cs, r)
  | [] => none

mutual

/-- A value, nested at most as deep as the first argument allows. -/
def value? : Nat → List Char → Option (Value × List Char)
  | 0, _ => none
  | n + 1, s =>
    match skipBlanks s with
    | 'n' :: 'u' :: 'l' :: 'l' :: r => some (.null, r)
    | 't' :: 'r' :: 'u' :: 'e' :: r => some (.bool true, r)
    | 'f' :: 'a' :: 'l' :: 's' :: 'e' :: r => some (.bool false, r)
    | '"' :: r => (string? r).map fun (cs, r) => (.string cs, r)
    | '[' :: r =>
      match skipBlanks r with
      | ']' :: r => some (.array [], r)
      | r => (items? n r).map fun (vs, r) => (.array vs, r)
    | '{' :: r =>
      match skipBlanks r with
      | '}' :: r => some (.object [], r)
      | r => (fields? n r).map fun (fs, r) => (.object fs, r)
    | r => (number? r).map fun (cs, r) => (.number cs, r)

/-- The items of an array, one at least, to the closing bracket. -/
def items? : Nat → List Char → Option (List Value × List Char)
  | 0, _ => none
  | n + 1, s => do
    let (v, r) ← value? n s
    match skipBlanks r with
    | ']' :: r => return ([v], r)
    | ',' :: r =>
      let (vs, r) ← items? n r
      return (v :: vs, r)
    | _ => none

/-- The fields of an object, one at least, to the closing brace. -/
def fields? : Nat → List Char → Option (List (List Char × Value) × List Char)
  | 0, _ => none
  | n + 1, s => do
    let '"' :: r := skipBlanks s | none
    let (k, r) ← string? r
    let ':' :: r := skipBlanks r | none
    let (v, r) ← value? n r
    match skipBlanks r with
    | '}' :: r => return ([(k, v)], r)
    | ',' :: r =>
      let (fs, r) ← fields? n r
      return ((k, v) :: fs, r)
    | _ => none

end

/-- Every two steps take a character at least, so twice the length is depth enough. -/
def parse? (s : String) : Option Value :=
  match value? (2 * s.toList.length + 2) s.toList with
  | some (v, rest) => if skipBlanks rest = [] then some v else none
  | none => none

end QuadSphere.Json
