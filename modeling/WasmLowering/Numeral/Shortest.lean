import WasmLowering.Numeral.Binary

/-! The shortest decimal that reads back as a given binary number, and of the shortest ones the
nearest. -/
namespace WasmLowering.Numeral

structure Decimal where
  digits : Nat
  exponent : Int
deriving DecidableEq, Repr

inductive Tie where
  | even
  | up
deriving DecidableEq, Repr

/-- How many decimal digits `n` has; zero has none. -/
def digitCount (n : Nat) : Nat := if n = 0 then 0 else (Nat.toDigits 10 n).length

/-- The largest `k` with `10 ^ k ≤ num / den`, for positive arguments. -/
def floorLog10 (num den : Nat) : Int :=
  if den ≤ num then (digitCount (num / den) : Int) - 1
  else -(digitCount ((den + num - 1) / num - 1) : Int)

/-- A number with the interval around it that rounds to it, in quarters of its unit. -/
structure Neighbourhood where
  quarters : Nat
  below : Nat
  above : Nat
  closed : Bool
  /-- Exponent of two of a quarter. -/
  exponent : Int

/-- The gap below a power of two is half the gap above, but for the smallest one. -/
def neighbourhood (F : Format) (m : Nat) (e : Int) : Neighbourhood where
  quarters := 4 * m
  below := if m = 1 <<< F.fractionBits ∧ F.least < e then 1 else 2
  above := 2
  closed := m % 2 == 0
  exponent := e - 2

namespace Neighbourhood

variable (v : Neighbourhood)

/-- `10 ^ k` and one quarter, both in a unit small enough for both to be whole. -/
def gridUnit (k : Int) : Nat := Nat.pow 10 k.toNat <<< (-v.exponent).toNat

def quarterUnit (k : Int) : Nat := Nat.pow 10 (-k).toNat <<< v.exponent.toNat

def contains (d : Nat) (k : Int) : Bool :=
  let x := d * v.gridUnit k
  let lo := (v.quarters - v.below) * v.quarterUnit k
  let hi := (v.quarters + v.above) * v.quarterUnit k
  if v.closed then lo ≤ x && x ≤ hi else lo < x && x < hi

/-- The multiple of `10 ^ k` to be written for the number, if one of its two neighbours will do. -/
def onGrid (tie : Tie) (k : Int) : Option Nat :=
  let x := v.quarters * v.quarterUnit k
  let d := x / v.gridUnit k
  match v.contains d k, v.contains (d + 1) k with
  | true, true =>
    let middle := (2 * d + 1) * v.gridUnit k
    let takeUpper := middle < 2 * x || (2 * x == middle && (tie == .up || d % 2 == 1))
    some (if takeUpper then d + 1 else d)
  | true, false => some d
  | false, true => some (d + 1)
  | false, false => none

/-- Goes to finer grids until one serves; `finer` bounds the steps. -/
def firstGrid (tie : Tie) : (finer : Nat) → (k : Int) → Decimal
  | 0, k => ⟨v.quarters * v.quarterUnit k / v.gridUnit k, k⟩
  | finer + 1, k =>
    match v.onGrid tie k with
    | some d => ⟨d, k⟩
    | none => firstGrid tie finer (k - 1)

end Neighbourhood

def Decimal.trim (d : Decimal) : Decimal :=
  if h : d.digits ≠ 0 ∧ d.digits % 10 = 0 then
    Decimal.trim ⟨d.digits / 10, d.exponent + 1⟩
  else d
termination_by d.digits
decreasing_by omega

/-- The decimal written for the positive number `m * 2 ^ e` of format `F`. Seventeen digits tell
all numbers of 64 bits apart. -/
def shortest (F : Format) (tie : Tie) (m : Nat) (e : Int) : Decimal :=
  let lead := floorLog10 (m <<< e.toNat) (1 <<< (-e).toNat)
  ((neighbourhood F m e).firstGrid tie 17 lead).trim

end WasmLowering.Numeral
