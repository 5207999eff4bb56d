import WasmLowering.Ir.Ty

/-! Value types of the target. -/
namespace WasmLowering

inductive ValType where
  | i32 | i64 | f32 | f64
deriving DecidableEq, Inhabited, Repr

namespace ValType

def byte : ValType → UInt8
  | i32 => 0x7F
  | i64 => 0x7E
  | f32 => 0x7D
  | f64 => 0x7C

def ofByte? : UInt8 → Option ValType
  | 0x7F => some i32
  | 0x7E => some i64
  | 0x7D => some f32
  | 0x7C => some f64
  | _ => none

theorem ofByte?_byte (t : ValType) : ofByte? t.byte = some t := by cases t <;> rfl

def text : ValType → String
  | i32 => "I32"
  | i64 => "I64"
  | f32 => "F32"
  | f64 => "F64"

end ValType

def Ty.valType? : Ty → Option ValType
  | int _ 32 => some .i32
  | int _ 64 => some .i64
  | float 32 => some .f32
  | float 64 => some .f64
  | _ => none

end WasmLowering
