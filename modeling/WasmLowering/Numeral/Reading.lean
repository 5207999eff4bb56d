import WasmLowering.Numeral.Binary

/-! Decimal texts as 64-bit numbers. The digits that fit a 64-bit significand are kept; it is
rounded once, and its product or quotient with the power of ten is rounded again. -/
namespace WasmLowering.Numeral

namespace Format

variable (F : Format)

def mul (x y : Nat) : Nat :=
  match F.decode x, F.decode y with
  | .finite _ m e, .finite _ n d => F.nearest ((m * n) <<< (e + d).toNat) (1 <<< (-(e + d)).toNat)
  | _, _ => F.infinity

/-- Quotient of the magnitudes of two finite words, the second not zero. -/
def div (x y : Nat) : Nat :=
  match F.decode x, F.decode y with
  | .finite _ m e, .finite _ n d => F.nearest (m <<< (e - d).toNat) (n <<< (d - e).toNat)
  | _, _ => F.infinity

end Format

/-- A significand of at most 64 bits with its power of ten. -/
structure Scaled where
  significand : Nat
  exponent : Int
deriving DecidableEq, Repr

namespace Scaled

def fits (n : Nat) : Bool := n < UInt64.size

/-- Digits before the point: those from the first one that does not fit on only count. -/
def whole : (ds : List Nat) → (significand : Nat) → Scaled
  | [], n => ⟨n, 0⟩
  | d :: ds, n => if fits (n * 10 + d) then whole ds (n * 10 + d) else ⟨n, ds.length + 1⟩

/-- Digits behind the point: those from the first one that does not fit on are dropped. -/
def fraction : List Nat → Scaled → Scaled
  | [], s => s
  | d :: ds, s =>
    if fits (s.significand * 10 + d) then
      fraction ds ⟨s.significand * 10 + d, s.exponent - 1⟩
    else s

/-- The largest power of ten among the 64-bit numbers. -/
def maxPower : Int := 308

def powerOfTen (k : Nat) : Nat := double.nearest (Nat.pow 10 k) 1

/-- The magnitude as a word, if it is finite. A power below the smallest is applied in two steps;
what two steps do not reach is zero. -/
def magnitude? (s : Scaled) : Option Nat :=
  let w := double.nearest s.significand 1
  if s.significand = 0 then some 0
  else if maxPower < s.exponent then none
  else if 0 ≤ s.exponent then
    let r := double.mul w (powerOfTen s.exponent.toNat)
    if r = double.infinity then none else some r
  else if -maxPower ≤ s.exponent then some (double.div w (powerOfTen (-s.exponent).toNat))
  else if -(2 * maxPower) ≤ s.exponent then
    let r := double.div w (powerOfTen maxPower.toNat)
    some (double.div r (powerOfTen (-s.exponent - maxPower).toNat))
  else some 0

end Scaled

/-- The number written with the given digits, if it is finite. -/
def readDecimal (negative : Bool) (whole fraction : List Nat) (exponent : Int) : Option Binary64 :=
  let s := Scaled.fraction fraction (Scaled.whole whole 0)
  (Scaled.magnitude? { s with exponent := s.exponent + exponent }).map fun w =>
    ⟨UInt64.ofNat (double.withSign negative w)⟩

end WasmLowering.Numeral
