import WasmLowering.Json.Value
import WasmLowering.Numeral.Range
import WasmLowering.Numeral.Reading
import WasmLowering.Text.Hex

/-! Reading JSON texts. A text is refused as a whole or read to its end. -/
namespace WasmLowering.Json

open Numeral (Binary64 InRange)

def isBlank (c : Char) : Bool := c = ' ' || c = '\n' || c = '\t' || c = '\r'

def skipBlanks (cs : List Char) : List Char := cs.dropWhile isBlank

/-! ## Strings -/

/-- A piece of a string: a character, or a code unit written by its number. -/
inductive Piece where
  | char (c : Char)
  | unit (n : Nat)
deriving DecidableEq, Repr

def shortEscape? : Char → Option Char
  | '"' => some '"'
  | '\\' => some '\\'
  | '/' => some '/'
  | 'b' => some '\x08'
  | 'f' => some '\x0c'
  | 'n' => some '\n'
  | 'r' => some '\r'
  | 't' => some '\t'
  | _ => none

def pieces : List Char → Option (List Piece × List Char)
  | [] => none
  | '"' :: cs => some ([], cs)
  | '\\' :: 'u' :: a :: b :: c :: d :: cs => do
    let n ← Hex.number? [a, b, c, d]
    let (ps, rest) ← pieces cs
    return (.unit n :: ps, rest)
  | '\\' :: e :: cs => do
    let c ← shortEscape? e
    let (ps, rest) ← pieces cs
    return (.char c :: ps, rest)
  | c :: cs =>
    if c = '\\' ∨ c.toNat < 32 then none
    else do
      let (ps, rest) ← pieces cs
      return (.char c :: ps, rest)

def isHighSurrogate (n : Nat) : Bool := 0xD800 ≤ n && n < 0xDC00

def isLowSurrogate (n : Nat) : Bool := 0xDC00 ≤ n && n < 0xE000

/-- The characters, if no surrogate stands alone. -/
def joinPieces : List Piece → Option (List Char)
  | [] => some []
  | .char c :: ps => (joinPieces ps).map (c :: ·)
  | .unit n :: ps =>
    if isHighSurrogate n then
      match ps with
      | .unit m :: ps' =>
        if isLowSurrogate m then
          (joinPieces ps').map (Char.ofNat (0x10000 + (n - 0xD800) * 0x400 + (m - 0xDC00)) :: ·)
        else none
      | _ => none
    else if isLowSurrogate n then none
    else (joinPieces ps).map (Char.ofNat n :: ·)

/-- The string behind an opening quote; `none` in the first place if it denotes no text. -/
def string (cs : List Char) : Option (Option String × List Char) := do
  let (ps, rest) ← pieces cs
  return ((joinPieces ps).map String.ofList, rest)

/-! ## Numbers -/

def digitValue (c : Char) : Nat := c.toNat - '0'.toNat

def digits (cs : List Char) : List Nat × List Char :=
  ((cs.takeWhile Char.isDigit).map digitValue, cs.dropWhile Char.isDigit)

/-- No zero stands in front of other digits. -/
def wholeDigits (cs : List Char) : Option (List Nat × List Char) :=
  match digits cs with
  | ([], _) => none
  | (0 :: _ :: _, _) => none
  | found => some found

def fractionDigits : List Char → Option (Option (List Nat) × List Char)
  | '.' :: cs =>
    match digits cs with
    | ([], _) => none
    | (ds, rest) => some (some ds, rest)
  | cs => some (none, cs)

def ofDigits (ds : List Nat) : Nat := ds.foldl (fun n d => n * 10 + d) 0

def exponentPart : List Char → Option (Option Int × List Char)
  | c :: cs =>
    if c = 'e' ∨ c = 'E' then
      let (negative, cs) := match cs with
        | '+' :: cs => (false, cs)
        | '-' :: cs => (true, cs)
        | cs => (false, cs)
      match digits cs with
      | ([], _) => none
      | (ds, rest) => some (some (if negative then -(ofDigits ds : Int) else ofDigits ds), rest)
    else some (none, c :: cs)
  | [] => some (none, [])

/-- Integers keep their value while they fit 64 bits, and all other numbers are floats. Zero with
a sign is a float. -/
def number (negative : Bool) (cs : List Char) : Option (Value × List Char) := do
  let (whole, cs) ← wholeDigits cs
  let (fraction, cs) ← fractionDigits cs
  let (exponent, cs) ← exponentPart cs
  let n := ofDigits whole
  let float :=
    match Numeral.readDecimal negative whole (fraction.getD []) (exponent.getD 0) with
    | some x => Value.float x
    | none => .unreadable
  let value :=
    if fraction.isSome || exponent.isSome then float
    else if negative then
      if 0 < n ∧ InRange true 64 (-(n : Int)) then .integer (-(n : Int)) else float
    else if InRange false 64 n then .integer n
    else float
  return (value, cs)

/-! ## Values -/

def keyword (word : List Char) (v : Value) (cs : List Char) : Option (Value × List Char) :=
  if word.isPrefixOf cs then some (v, cs.drop word.length) else none

/-- An object with a key that denotes no text denotes nothing. -/
def consField (key : Option String) (v : Value) (fields : Option (List (String × Value))) :
    Option (List (String × Value)) := do
  return ((← key), v) :: (← fields)

mutual
/-- The value in front, blanks passed over. `fuel` bounds the steps. -/
def value : (fuel : Nat) → List Char → Option (Value × List Char)
  | 0, _ => none
  | fuel + 1, cs =>
    match skipBlanks cs with
    | [] => none
    | c :: cs =>
      if c = '"' then do
        let (s, rest) ← string cs
        return ((s.map Value.string).getD .unreadable, rest)
      else if c = '[' then
        match skipBlanks cs with
        | ']' :: rest => some (.array [], rest)
        | cs => do
          let (vs, rest) ← items fuel cs
          return (.array vs, rest)
      else if c = '\x7b' then
        match skipBlanks cs with
        | '\x7d' :: rest => some (.object [], rest)
        | cs => do
          let (fs, rest) ← fields fuel cs
          return ((fs.map Value.object).getD .unreadable, rest)
      else if c = '-' then number true cs
      else if c.isDigit then number false (c :: cs)
      else (keyword "null".toList .null (c :: cs)).or
        ((keyword "true".toList (.bool true) (c :: cs)).or
          (keyword "false".toList (.bool false) (c :: cs)))

def items : (fuel : Nat) → List Char → Option (List Value × List Char)
  | 0, _ => none
  | fuel + 1, cs => do
    let (v, cs) ← value fuel cs
    match skipBlanks cs with
    | ']' :: rest => return ([v], rest)
    | ',' :: rest => do
      let (vs, rest) ← items fuel rest
      return (v :: vs, rest)
    | _ => none

/-- Fields up to the closing brace; `none` in the first place if a key denotes no text. -/
def fields : (fuel : Nat) → List Char → Option (Option (List (String × Value)) × List Char)
  | 0, _ => none
  | fuel + 1, cs =>
    match skipBlanks cs with
    | '"' :: cs => do
      let (key, cs) ← string cs
      match skipBlanks cs with
      | ':' :: cs => do
        let (v, cs) ← value fuel cs
        match skipBlanks cs with
        | '\x7d' :: rest => return (consField key v (some []), rest)
        | ',' :: rest => do
          let (fs, rest) ← fields fuel rest
          return (consField key v fs, rest)
        | _ => none
      | _ => none
    | _ => none
end

/-- Every step but that into a list or an object takes a character, so the fuel suffices. -/
def parse (text : String) : Option Value := do
  let cs := text.toList
  let (v, rest) ← value (2 * cs.length + 2) cs
  if (skipBlanks rest).isEmpty then return v else none

end WasmLowering.Json
