/-! Bytes as pairs of hexadecimal digits. -/
namespace WasmLowering.Hex

def lower : List Char := "0123456789abcdef".toList

def upper : List Char := "0123456789ABCDEF".toList

def byte (digits : List Char) (b : UInt8) : List Char :=
  [digits.getD (b.toNat / 16) '0', digits.getD (b.toNat % 16) '0']

def text (digits : List Char) (bs : List UInt8) : String :=
  String.ofList (bs.flatMap (byte digits))

def value? (c : Char) : Option Nat :=
  if '0' ≤ c ∧ c ≤ '9' then some (c.toNat - '0'.toNat)
  else if 'a' ≤ c ∧ c ≤ 'f' then some (c.toNat - 'a'.toNat + 10)
  else if 'A' ≤ c ∧ c ≤ 'F' then some (c.toNat - 'A'.toNat + 10)
  else none

/-- The number that digits denote, the highest first. -/
def number? (ds : List Char) : Option Nat :=
  ds.foldlM (fun n d => do return n * 16 + (← value? d)) 0

end WasmLowering.Hex
