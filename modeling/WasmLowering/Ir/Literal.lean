import WasmLowering.Numeral.Layout
import WasmLowering.Numeral.Range

/-! Literals of constant instructions. -/
namespace WasmLowering

open Numeral (Binary32 Binary64 InRange)

structure DeclId where
  index : UInt32
deriving DecidableEq, Hashable, Inhabited, Repr

def DeclId.text (d : DeclId) : String := "decl" ++ toString d.index

inductive Literal where
  | void
  | int (value : Int64)
  | uInt (value : UInt64)
  | float (value : Binary64)
  | bool (value : Bool)
  | function (target : DeclId)
deriving DecidableEq, Inhabited, Repr

namespace Literal

/-- The mathematical value of an integer or a boolean. -/
def integer? : Literal → Option Int
  | int v => some v.toInt
  | uInt v => some v.toNat
  | bool v => some (if v then 1 else 0)
  | _ => none

def integerIn? (l : Literal) (signed : Bool) (bits : Nat) : Option Int :=
  l.integer?.filter fun v => decide (InRange signed bits v)

def float? : Literal → Option Binary64
  | float v => some v
  | _ => none

/-- A float rounded to the 32-bit format. -/
def single? (l : Literal) : Option Binary32 := l.float?.map Binary64.narrow

def function? : Literal → Option DeclId
  | function d => some d
  | _ => none

def text : Literal → String
  | void => "\x7b\x7d"
  | int v => toString v
  | uInt v => toString v
  | float v => v.text Numeral.plain
  | bool v => toString v
  | function d => "@" ++ d.text

end Literal

end WasmLowering
