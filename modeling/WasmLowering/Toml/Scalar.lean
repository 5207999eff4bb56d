import WasmLowering.Numeral.Range
import WasmLowering.Numeral.Shortest
import WasmLowering.Text.Hex
import WasmLowering.Toml.Node

/-! Values of TOML documents without quotes or brackets: booleans, numbers, dates and times. -/
namespace WasmLowering.Toml

open Numeral (InRange)

/-! ## Integers -/

/-- Digits of one base, with an underscore between some of them. -/
def underscored (isDigit : Char → Bool) : List Char → Bool
  | [] => false
  | [d] => isDigit d
  | d :: '_' :: ds => isDigit d && underscored isDigit ds
  | d :: ds => isDigit d && underscored isDigit ds

def isWhole (ds : List Char) : Bool :=
  match ds with
  | '0' :: _ :: _ => false
  | ds => underscored Char.isDigit ds

def unsigned : List Char → List Char
  | '+' :: ds => ds
  | '-' :: ds => ds
  | ds => ds

def magnitude (base : Nat) (ds : List Char) : Nat :=
  (ds.filterMap Hex.value?).foldl (fun n d => n * base + d) 0

def isBased (base : Nat) (ds : List Char) : Bool :=
  underscored (fun d => (Hex.value? d).any (· < base)) ds
    && decide (InRange true 64 (magnitude base ds))

def isInteger : List Char → Bool
  | '0' :: 'x' :: ds => isBased 16 ds
  | '0' :: 'o' :: ds => isBased 8 ds
  | '0' :: 'b' :: ds => isBased 2 ds
  | '-' :: ds => isWhole ds && decide (InRange true 64 (-(magnitude 10 ds : Int)))
  | ds => isWhole (unsigned ds) && decide (InRange true 64 (magnitude 10 (unsigned ds)))

/-! ## Floats -/

/-- The parts of a decimal number, each with the mark in front of it. -/
structure Decimal where
  whole : List Char
  fraction : List Char
  exponent : List Char

namespace Decimal

def ofUnsigned (ds : List Char) : Decimal :=
  let mantissa := ds.takeWhile fun c => c ≠ 'e' && c ≠ 'E'
  let whole := mantissa.takeWhile (· ≠ '.')
  ⟨whole, mantissa.drop whole.length, ds.drop mantissa.length⟩

def isWellFormed (d : Decimal) : Bool :=
  isWhole d.whole && !(d.fraction.isEmpty && d.exponent.isEmpty)
    && (d.fraction.isEmpty || underscored Char.isDigit (d.fraction.drop 1))
    && (d.exponent.isEmpty || underscored Char.isDigit (unsigned (d.exponent.drop 1)))

/-- The power of ten by which the digits are scaled. -/
def scale (d : Decimal) : Int :=
  let e : Int := magnitude 10 (unsigned (d.exponent.drop 1))
  (if d.exponent[1]? = some '-' then -e else e) - (d.fraction.countP Char.isDigit : Nat)

/-- Whether the nearest 64-bit number is finite. The largest one has 309 digits. -/
def isFinite (d : Decimal) : Bool :=
  let n := magnitude 10 (d.whole ++ d.fraction.drop 1)
  let length := (Numeral.digitCount n : Int) + d.scale
  n = 0 || length < 309 || (length = 309 &&
    Numeral.double.nearest (n * Nat.pow 10 d.scale.toNat) (Nat.pow 10 (-d.scale).toNat)
      != Numeral.double.infinity)

end Decimal

/-- A number that is too large is refused, and one that is too small is as good as infinite. -/
def isFloat (word : List Char) : Bool :=
  let ds := unsigned word
  let d := Decimal.ofUnsigned ds
  ds == "inf".toList || ds == "nan".toList
    || (d.isWellFormed && (word.head? == some '-' || d.isFinite))

/-! ## Words -/

def isWordChar (c : Char) : Bool := c.isAlphanum || c = '_' || c = '+' || c = '-' || c = '.'

def word (w : List Char) : Option Node :=
  if w = "true".toList then some (.bool true)
  else if w = "false".toList then some (.bool false)
  else if isInteger w || isFloat w then some .number
  else none

/-! ## Dates and times -/

def expect (c : Char) : List Char → Option (List Char)
  | d :: cs => if d = c then some cs else none
  | [] => none

/-- A number of exactly `width` digits from `lo` up to `hi`. -/
def field (width lo hi : Nat) (cs : List Char) : Option (Nat × List Char) :=
  let ds := cs.take width
  let n := magnitude 10 ds
  if ds.length = width ∧ ds.all Char.isDigit ∧ lo ≤ n ∧ n ≤ hi then some (n, cs.drop width)
  else none

def isLeapYear (y : Nat) : Bool := y % 4 == 0 && (y % 100 != 0 || y % 400 == 0)

def daysOfMonth (y m : Nat) : Nat :=
  if m = 2 then (if isLeapYear y then 29 else 28)
  else if m = 4 ∨ m = 6 ∨ m = 9 ∨ m = 11 then 30
  else 31

def date (cs : List Char) : Option (List Char) := do
  let (y, cs) ← field 4 0 9999 cs
  let (m, cs) ← field 2 1 12 (← expect '-' cs)
  let (_, cs) ← field 2 1 (daysOfMonth y m) (← expect '-' cs)
  return cs

/-- A minute may have a leap second. Parts of a second follow a point. -/
def time (cs : List Char) : Option (List Char) := do
  let (_, cs) ← field 2 0 23 cs
  let (_, cs) ← field 2 0 59 (← expect ':' cs)
  let (_, cs) ← field 2 0 60 (← expect ':' cs)
  match cs with
  | '.' :: d :: rest => return if d.isDigit then rest.dropWhile Char.isDigit else cs
  | _ => return cs

def offset (cs : List Char) : Option (List Char) := do
  match cs with
  | 'Z' :: cs => return cs
  | 'z' :: cs => return cs
  | sign :: cs =>
    if sign = '+' ∨ sign = '-' then
      let (_, cs) ← field 2 0 23 cs
      let (_, cs) ← field 2 0 59 (← expect ':' cs)
      return cs
    else none
  | [] => none

def isTimeMark (c : Char) : Bool := c = 'T' || c = 't' || c = ' '

/-- Passes a date, a time, or a date with a time and maybe an offset. -/
def moment (cs : List Char) : Option (List Char) :=
  match date cs with
  | none => time cs
  | some rest =>
    match rest with
    | mark :: cs =>
      if isTimeMark mark then
        match time cs with
        | some cs => some ((offset cs).getD cs)
        | none => some rest
      else some rest
    | [] => some []

/-- What stands in front, by the longest of the forms that fit. -/
def scalar (cs : List Char) : Option (Node × List Char) :=
  match moment cs with
  | some rest => some (.moment, rest)
  | none => do return (← word (cs.takeWhile isWordChar), cs.dropWhile isWordChar)

end WasmLowering.Toml
