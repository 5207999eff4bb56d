import WasmLowering.Numeral.Shortest

/-! Texts of floating numbers: a layout settles what the digits leave open. -/
namespace WasmLowering.Numeral

structure Layout where
  tie : Tie
  /-- Decimal exponents of the leading digit, from the first up to below the second, that are
  written without an exponent; `none` means all. -/
  positional : Option (Int × Int)
  /-- Whether a whole number keeps `.0`. -/
  keepsPoint : Bool

/-- Never an exponent, and no point in a whole number. -/
def plain : Layout := ⟨.up, none, false⟩

/-- Always a point or an exponent. -/
def pointed : Layout := ⟨.even, some (-5, 16), true⟩

namespace Layout

variable (L : Layout)

def zeros (n : Nat) : String := String.ofList (List.replicate n '0')

def wholeTail : String := if L.keepsPoint then ".0" else ""

def isPositional (lead : Int) : Bool :=
  match L.positional with
  | none => true
  | some (lo, hi) => lo ≤ lead && lead < hi

/-- Digits with a point after the first `n` of them. -/
def pointAfter (n : Nat) (ds : List Char) : String :=
  String.ofList (ds.take n) ++ "." ++ String.ofList (ds.drop n)

def decimal (d : Decimal) : String :=
  let ds := Nat.toDigits 10 d.digits
  let lead : Int := d.exponent + ds.length - 1
  if L.isPositional lead then
    if 0 ≤ d.exponent then String.ofList ds ++ zeros d.exponent.toNat ++ L.wholeTail
    else if 0 ≤ lead then pointAfter (lead + 1).toNat ds
    else "0." ++ zeros (-lead - 1).toNat ++ String.ofList ds
  else
    (if ds.length = 1 then String.ofList ds else pointAfter 1 ds)
      ++ (if lead < 0 then "e-" else "e+") ++ toString lead.natAbs

def datum (F : Format) : Datum → String
  | .nan => "NaN"
  | .infinite negative => if negative then "-inf" else "inf"
  | .finite negative m e =>
    (if negative then "-" else "") ++
      if m = 0 then "0" ++ L.wholeTail else L.decimal (shortest F L.tie m e)

end Layout

def Binary32.text (L : Layout) (x : Binary32) : String := L.datum single x.datum

def Binary64.text (L : Layout) (x : Binary64) : String := L.datum double x.datum

end WasmLowering.Numeral
