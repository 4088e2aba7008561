import QuadSphere.Text.Hex

/-!
# JSON values

Numbers and strings are kept as they are written: what a number or an escape stands for is only
asked where a value of a certain kind is expected, so a part that nobody asks for may hold numbers
of any size and unpaired surrogates.
-/

namespace QuadSphere.Json

inductive Value where
  | null
  | bool (b : Bool)
  | number (written : List Char)
  | string (written : List Char)
  | array (items : List Value)
  | object (fields : List (List Char × Value))

/-- What a single character stands for after a backslash. -/
def escaped? : Char → Option Char
  | '"' => some '"'
  | '\\' => some '\\'
  | '/' => some '/'
  | 'b' => some '\x08'
  | 'f' => some '\x0c'
  | 'n' => some '\n'
  | 'r' => some '\r'
  | 't' => some '\t'
  | _ => none

/-- The text that a written string stands for.  A surrogate has to be one of a pair. -/
def unescape? : List Char → Option (List Char)
  | [] => some []
  | '\\' :: 'u' :: a :: b :: c :: d :: rest => do
    let n ← Hex.value? [a, b, c, d]
    if 0xd800 ≤ n ∧ n < 0xdc00 then
      match rest with
      | '\\' :: 'u' :: a₂ :: b₂ :: c₂ :: d₂ :: rest =>
        let m ← Hex.value? [a₂, b₂, c₂, d₂]
        if 0xdc00 ≤ m ∧ m < 0xe000 then
          return Char.ofNat (0x10000 + (n - 0xd800) * 0x400 + (m - 0xdc00)) :: (← unescape? rest)
        else none
      | _ => none
    else if 0xdc00 ≤ n ∧ n < 0xe000 then none
    else return Char.ofNat n :: (← unescape? rest)
  | '\\' :: e :: rest => do
    let c ← escaped? e
    return c :: (← unescape? rest)
  | c :: rest => return c :: (← unescape? rest)

/-- How a character is written in a string. -/
def escape (c : Char) : List Char :=
  match c with
  | '"' => ['\\', '"']
  | '\\' => ['\\', '\\']
  | '\x08' => ['\\', 'b']
  | '\x0c' => ['\\', 'f']
  | '\n' => ['\\', 'n']
  | '\r' => ['\\', 'r']
  | '\t' => ['\\', 't']
  | c => if c.toNat < 0x20 then '\\' :: 'u' :: Hex.digits 4 c.toNat else [c]

/-- A text as a written string, with its quotes. -/
def quote (s : String) : String :=
  "\"" ++ String.ofList (s.toList.flatMap escape) ++ "\""

namespace Value

/-- The number below a bound that is written in decimal digits alone. -/
def natBelow? (bound : Nat) : Value → Option Nat
  | number cs =>
    if cs.all Char.isDigit then
      let n := cs.foldl (fun n c => 10 * n + (c.toNat - 48)) 0
      if n < bound then some n else none
    else none
  | _ => none

def text? : Value → Option String
  | string cs => (unescape? cs).map String.ofList
  | _ => none

/-- The values of a record: the items of an array, or the fields of an object, each name once.
Fields of other names do not count, but their names have to stand for texts. -/
def record? (names : List String) : Value → Option (List Value)
  | array items => if items.length = names.length then some items else none
  | object fields => do
    let named ← fields.mapM fun (k, v) => (unescape? k).map fun k => (String.ofList k, v)
    names.mapM fun name =>
      match named.filter (·.1 = name) with
      | [(_, v)] => some v
      | _ => none
  | _ => none

end Value

end QuadSphere.Json
