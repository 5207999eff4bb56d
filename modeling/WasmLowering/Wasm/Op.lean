import WasmLowering.Ir.Literal
import WasmLowering.Wasm.Leb
import WasmLowering.Wasm.ValType

/-! Operations of a function body, their bytes and their text. -/
namespace WasmLowering

open Numeral (Binary32 Binary64)

inductive Op where
  | localGet (slot : Nat)
  | localSet (slot : Nat)
  | i32Const (value : Int32)
  | i64Const (value : Int64)
  | f32Const (value : Binary32)
  | f64Const (value : Binary64)
  | add (ty : ValType)
  /-- A call whose function index the linker has still to insert. -/
  | callReloc (target : DeclId)
  | call (index : Nat)
  | endMark
deriving DecidableEq, Inhabited, Repr

namespace Op

def addOpcode : ValType → UInt8
  | .i32 => 0x6A
  | .i64 => 0x7C
  | .f32 => 0x92
  | .f64 => 0xA0

def opcode : Op → UInt8
  | localGet _ => 0x20
  | localSet _ => 0x21
  | i32Const _ => 0x41
  | i64Const _ => 0x42
  | f32Const _ => 0x43
  | f64Const _ => 0x44
  | add t => addOpcode t
  | callReloc _ | call _ => 0x10
  | .endMark => 0x0B

def littleEndian : (width : Nat) → Nat → List UInt8
  | 0, _ => []
  | w + 1, n => UInt8.ofNat (n % 256) :: littleEndian w (n / 256)

def immediate : Op → List UInt8
  | localGet n | localSet n | call n => Leb.unsigned n
  | i32Const v => Leb.signed v.toInt
  | i64Const v => Leb.signed v.toInt
  | f32Const v => littleEndian 4 v.bits.toNat
  | f64Const v => littleEndian 8 v.bits.toNat
  | add _ | callReloc _ | .endMark => []

def bytes (o : Op) : List UInt8 := o.opcode :: o.immediate

def text : Op → String
  | localGet n => "local.get " ++ toString n
  | localSet n => "local.set " ++ toString n
  | i32Const v => "i32.const " ++ toString v
  | i64Const v => "i64.const " ++ toString v
  | f32Const v => "f32.const " ++ v.text Numeral.plain
  | f64Const v => "f64.const " ++ v.text Numeral.plain
  | add .i32 => "i32.add"
  | add .i64 => "i64.add"
  | add .f32 => "f32.add"
  | add .f64 => "f64.add"
  | callReloc d => "call <reloc -> " ++ d.text ++ ">"
  | call n => "call " ++ toString n
  | .endMark => "end"

end Op

end WasmLowering
