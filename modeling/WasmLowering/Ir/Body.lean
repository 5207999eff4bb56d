import WasmLowering.Ir.Inst

/-! Bodies: an arena of instructions and the order in which the main block runs. -/
namespace WasmLowering

/-- Operands refer to constants of the arena or to instructions that stand earlier in `code`. -/
structure Body where
  insts : Array Inst
  code : List InstId
deriving BEq, Inhabited, Repr

namespace Body

def empty : Body := ⟨#[], []⟩

def get? (b : Body) (i : InstId) : Option Inst := b.insts[i.index.toNat]?

def literal? (b : Body) (i : InstId) : Option Literal := do (← b.get? i).kind.literal?

def callee? (b : Body) (i : InstId) : Option DeclId := do (← b.literal? i).function?

end Body

end WasmLowering
