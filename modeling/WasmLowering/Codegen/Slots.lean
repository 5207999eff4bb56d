import WasmLowering.Codegen.Outcome
import WasmLowering.Wasm.Leb
import WasmLowering.Wasm.ValType

/-! The locals table: one entry for each stack slot, in the order of the main block. -/
namespace WasmLowering

/-- How many arguments a block has, and the types of its stack slots. -/
structure Slots where
  args : Nat
  locals : List ValType
deriving DecidableEq, Inhabited, Repr

def Inst.slotType (inst : Inst) : Except Failure ValType :=
  match inst.ty.pointee? with
  | none => .error ⟨inst.span, .localType inst.ty⟩
  | some elem =>
    match elem.valType? with
    | none => .error ⟨inst.span, .localType elem⟩
    | some t => .ok t

namespace Slots

def withLocal (t : ValType) (s : Slots) : Slots := { s with locals := t :: s.locals }

/-- The number of stack slots in 32 bits, as the table states it. -/
def localCount (s : Slots) : Nat := s.locals.length % UInt32.size

def total (s : Slots) : Nat := s.args + s.localCount

/-- The slots of instructions behind `args` arguments. -/
def ofRest (b : Body) (args : Nat) : List InstId → Except Stop Slots
  | [] => .ok ⟨args, []⟩
  | i :: is => do
    let inst ← (b.inst i).mapError .broken
    match inst.kind with
    | .alloc =>
      let t ← inst.slotType.mapError .failed
      return (← ofRest b args is).withLocal t
    | .arg _ => ofRest b (← (counter (args + 1)).mapError .broken) is
    | _ => ofRest b args is

def ofBlock (b : Body) (is : List InstId) : Except Stop Slots := ofRest b 0 is

/-- A lowered block of `fn` has taken the slots that were counted for it. -/
def checkDense (s : Slots) (fn : String) (taken : Nat) : Except Violation Unit := do
  let total ← counter s.total
  if taken = total then .ok () else .error (.sparseSlots fn)

def table (s : Slots) : List UInt8 :=
  Leb.unsigned s.localCount ++ s.locals.flatMap fun t => Leb.unsigned 1 ++ [t.byte]

end Slots

end WasmLowering
