import WasmLowering.Ir.Body

/-! Bodies in the course of being put together. Each step adds one instruction to the arena; all but
constants also go to the end of the main block. -/
namespace WasmLowering.Body

inductive Step where
  | constant (ty : Ty) (value : Literal)
  | push (ty : Ty) (kind : InstKind) (span : Span)
  | arg (ty : Ty) (index : UInt32)
  /-- A slot for one value of type `elem`. -/
  | alloc (elem : Ty)
deriving BEq, Inhabited, Repr

namespace Step

def inst : Step → Inst
  | constant ty value => ⟨ty, .constant value, .synthetic⟩
  | push ty kind span => ⟨ty, kind, span⟩
  | arg ty index => ⟨ty, .arg index, .synthetic⟩
  | alloc elem => ⟨.ptr elem, .alloc, .synthetic⟩

def isScheduled : Step → Bool
  | constant _ _ => false
  | _ => true

end Step

structure Draft where
  insts : Array Inst
  code : Array InstId
deriving BEq, Inhabited, Repr

namespace Draft

def empty : Draft := ⟨#[], #[]⟩

def nextId (d : Draft) : InstId := ⟨UInt32.ofNat d.insts.size⟩

def add : Draft → Step → Draft
  | ⟨insts, code⟩, s =>
    let code := if s.isScheduled then code.push ⟨UInt32.ofNat insts.size⟩ else code
    ⟨insts.push s.inst, code⟩

def finish (d : Draft) : Body := ⟨d.insts, d.code.toList⟩

end Draft

def ofSteps (steps : List Step) : Body := (steps.foldl Draft.add .empty).finish

end WasmLowering.Body
