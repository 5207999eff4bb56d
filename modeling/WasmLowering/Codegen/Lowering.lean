import Std.Data.HashMap
import WasmLowering.Codegen.Constant

/-! Lowering of the instructions of a main block. The result of a load, an addition or a call stays
on the stack; arguments and stack slots are read again, and literals written again, at each use. -/
namespace WasmLowering

structure Frame where
  /-- The next free slot; arguments come before stack slots. -/
  slots : Nat
  values : Std.HashMap InstId Operand

namespace Frame

def empty : Frame := ⟨0, ∅⟩

/-- Arguments and stack slots take the next free slot. -/
def takeSlot (f : Frame) : Emission Operand := do
  let _ ← .require (counter (f.slots + 1))
  pure (.slot f.slots)

/-- Notes the value of a lowered instruction, and the slot if it took one. -/
def define (f : Frame) (i : InstId) (v : Operand) : Except Violation Frame :=
  if f.values.contains i then .error (.loweredTwice i)
  else
    let slots := match v with
      | .slot _ => f.slots + 1
      | _ => f.slots
    .ok ⟨slots, f.values.insert i v⟩

end Frame

structure Scope where
  fn : String
  body : Body

namespace Scope

variable (s : Scope)

/-- An operand is a literal of the arena or an instruction lowered before. -/
def resolve (f : Frame) (i : InstId) : Except Violation Operand :=
  match s.body.get? i with
  | none => .error (.undefinedOperand i s.fn)
  | some inst =>
    if inst.kind.isConstant then .ok (.literal i)
    else match f.values[i]? with
      | some v => .ok v
      | none => .error (.undefinedOperand i s.fn)

/-- Pushes a value unless it is on the stack. -/
def push (v : Operand) : Emission Unit :=
  match v with
  | .onStack | .block _ => pure ()
  | .slot n => .op (.localGet n)
  | .literal i => do (← .require (s.body.inst i)).emitConstant

def pushOperand (f : Frame) (i : InstId) : Emission Unit := do
  s.push (← .require (s.resolve f i))

def pushOperands (f : Frame) : List InstId → Emission Unit
  | [] => pure ()
  | i :: is => do
    s.pushOperand f i
    pushOperands f is

/-- The value is pushed before the target is seen to be no slot. -/
def lowerStore (f : Frame) (ptr value : InstId) : Emission Operand := do
  let target ← .require (s.resolve f ptr)
  let v ← .require (s.resolve f value)
  s.push v
  match target with
  | .slot n =>
    .op (.localSet n)
    pure .onStack
  | other => .broken (.storeTarget other s.fn)

def lowerAdd (f : Frame) (inst : Inst) (lhs rhs : InstId) : Emission Operand := do
  let l ← .require (s.resolve f lhs)
  let r ← .require (s.resolve f rhs)
  s.push l
  s.push r
  match inst.ty.valType? with
  | some t =>
    .op (.add t)
    pure .onStack
  | none => .fail ⟨inst.span, .addType inst.ty⟩

def lowerCall (f : Frame) (inst : Inst) (callee : InstId) (args : List InstId) :
    Emission Operand := do
  let _ ← .require (s.resolve f callee)
  match s.body.callee? callee with
  | some target =>
    s.pushOperands f args
    .op (.callReloc target)
    pure .onStack
  | none =>
    let through ← .require (s.body.inst callee)
    .fail ⟨inst.span, .indirectCall through.kind.tag⟩

def lower (f : Frame) (inst : Inst) : Emission Operand :=
  match inst.kind with
  | .arg index =>
    if index.toNat = f.slots then f.takeSlot
    else .broken (.argumentOrder index s.fn)
  | .alloc => f.takeSlot
  | .load ptr => do
    s.pushOperand f ptr
    pure .onStack
  | .store ptr value => s.lowerStore f ptr value
  | .add lhs rhs => s.lowerAdd f inst lhs rhs
  | .call callee args => s.lowerCall f inst callee args
  | .ret operand => do
    s.pushOperand f operand
    pure .onStack
  | .retVoid | .dbgStmt _ _ => pure .onStack
  | other => .fail ⟨inst.span, .unimplemented other.tag⟩

def loweringEvent (i : InstId) (inst : Inst) : Event :=
  .plain .trace ("lowering " ++ i.text ++ " = " ++ inst.kind.tag ++ " : " ++ inst.ty.text)

def step (f : Frame) (i : InstId) : Emission Frame := do
  let inst ← .require (s.body.inst i)
  .event (loweringEvent i inst)
  let v ← s.lower f inst
  .require (f.define i v)

def lowerAll (f : Frame) : List InstId → Emission Frame
  | [] => pure f
  | i :: is => do
    let f' ← s.step f i
    lowerAll f' is

end Scope

end WasmLowering
