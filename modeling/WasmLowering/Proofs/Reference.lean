import WasmLowering.Codegen.Constant

/-!
# Lowering without a state

What each instruction of a main block becomes can be read off the block itself: no frame, no
counter and no buffer is carried from one instruction to the next.
-/

namespace WasmLowering

open Numeral (Binary32 Binary64)

inductive Scalar where
  | i32 (value : Int32)
  | i64 (value : Int64)
  | f32 (value : Binary32)
  | f64 (value : Binary64)
deriving DecidableEq, Inhabited, Repr

namespace Scalar

def zero : ValType → Scalar
  | .i32 => i32 0
  | .i64 => i64 0
  | .f32 => f32 ⟨0⟩
  | .f64 => f64 ⟨0⟩

def op : Scalar → Op
  | i32 v => .i32Const v
  | i64 v => .i64Const v
  | f32 v => .f32Const v
  | f64 v => .f64Const v

end Scalar

/-- What a literal denotes at a type; an integer is taken modulo the width. -/
def Literal.scalar? (l : Literal) (ty : Ty) : Option Scalar :=
  match ty.valType? with
  | some .i32 => l.integer?.map fun v => .i32 (Int32.ofInt v)
  | some .i64 => l.integer?.map fun v => .i64 (Int64.ofInt v)
  | some .f32 => l.single?.map .f32
  | some .f64 => l.float?.map .f64
  | none => none

namespace InstKind

def takesSlot : InstKind → Bool
  | alloc | arg _ => true
  | _ => false

end InstKind

namespace Body

variable (b : Body)

def takesSlot (i : InstId) : Bool := (b.get? i).any fun inst => inst.kind.takesSlot

/-- The number of arguments and stack slots that stand before `i` in the main block. -/
def slotOf (i : InstId) : Nat := (b.code.takeWhile (· != i)).countP b.takesSlot

/-- The operations that push an operand. The result of any other instruction is on the stack, or
there is none. -/
def pushOps (i : InstId) : List Op :=
  match b.get? i with
  | none => []
  | some inst =>
    match inst.kind with
    | .constant l => ((l.scalar? inst.ty).map Scalar.op).toList
    | .alloc | .arg _ => [.localGet (b.slotOf i)]
    | _ => []

def loweredInst (inst : Inst) : List Op :=
  match inst.kind with
  | .load ptr => b.pushOps ptr
  | .store ptr value => b.pushOps value ++ [.localSet (b.slotOf ptr)]
  | .add lhs rhs => b.pushOps lhs ++ b.pushOps rhs ++ (inst.ty.valType?.map Op.add).toList
  | .call callee args => args.flatMap b.pushOps ++ ((b.callee? callee).map Op.callReloc).toList
  | .ret operand => b.pushOps operand
  | _ => []

def lowered (i : InstId) : List Op := ((b.get? i).map b.loweredInst).getD []

def loweredAll : List Op := b.code.flatMap b.lowered

theorem lowered_eq {b : Body} {i : InstId} {inst : Inst} (h : b.get? i = some inst) :
    b.lowered i = b.loweredInst inst := by
  rw [lowered, h]; rfl

end Body

end WasmLowering
