import WasmLowering.Codegen.Lowering
import WasmLowering.Codegen.Slots
import WasmLowering.Wasm.TypeEntry

/-! Generation of one function. A context goes through the type entry and the body once; what a
step wrote before it stopped stays in its buffers. -/
namespace WasmLowering

/-- The bytes of one function, ready for the linker. -/
structure FunctionCode where
  decl : DeclId
  name : String
  typeEntry : List UInt8
  /-- Size, locals table, operations and the end marker. -/
  body : List UInt8
  /-- The calls whose function index is still missing. -/
  relocs : List Reloc
deriving DecidableEq, Inhabited, Repr

/-- Bytes of the size in front of a body, and of a function index that the linker inserts. -/
def paddedWidth : Nat := 5

def Leb.overwrite (slot : List UInt8) (n : Nat) : Except Violation (List UInt8) :=
  if slot.length = paddedWidth then .ok (Leb.padded paddedWidth n)
  else .error (.paddedWidth slot.length)

/-- The calls among operations that start at `pos`; the index belongs right behind the opcode. -/
def relocsFrom (pos : Nat) : List Op → List Reloc
  | [] => []
  | .callReloc target :: os =>
    ⟨UInt32.ofNat (pos + 1), target⟩ :: relocsFrom (pos + (Op.callReloc target).bytes.length) os
  | o :: os => relocsFrom (pos + o.bytes.length) os

structure Context where
  id : DeclId
  decl : Decl
  typeEntry : List UInt8
  code : List UInt8
  relocs : List Reloc
  /-- The last failure; it stays once there is one. -/
  failure? : Option Failure
  events : List Event

namespace Context

def new (id : DeclId) (decl : Decl) : Context := ⟨id, decl, [], [], [], none, []⟩

def finish (c : Context) : FunctionCode := ⟨c.id, c.decl.name, c.typeEntry, c.code, c.relocs⟩

/-- Ends a step, keeping a record of a failure. -/
def stop (c : Context) (s : Stop) : Context × Except Stop Unit :=
  match s with
  | .failed f => ({ c with failure? := some f }, .error s)
  | .broken _ => (c, .error s)

def fail (c : Context) (cause : Cause) : Context × Except Stop Unit :=
  c.stop (.failed ⟨c.decl.span, cause⟩)

def generateType (c : Context) : Context × Except Stop Unit :=
  match c.decl.signature? with
  | none => c.fail (.nonFunctionType c.decl.name c.decl.ty)
  | some s =>
    let c' := { c with typeEntry := c.typeEntry ++ s.entry.1 }
    match s.entry.2 with
    | none => (c', .ok ())
    | some cause => c'.fail cause

/-- A function type promises as many parameters as the block has arguments. -/
def slots (c : Context) (body : Body) : Except Stop Slots := do
  let slots ← Slots.ofBlock body body.code
  match c.decl.signature? with
  | some s =>
    if slots.args = s.params.length then return slots
    else throw (.broken (.argumentCount c.decl.name s.params.length slots.args))
  | none => return slots

def generatedEvent (c : Context) (size : Nat) (slots : Slots) : Event :=
  .plain .debug ("generated wasm for '" ++ c.decl.name ++ "': " ++ toString size ++ " bytes, "
    ++ toString slots.localCount ++ " locals, " ++ toString c.relocs.length ++ " relocations")

/-- Writes the size over its slot. The bytes that the linker inserts count as well. -/
def writeSize (c : Context) (slots : Slots) : Context × Except Stop Unit :=
  let size := c.code.length - paddedWidth + c.relocs.length * paddedWidth
  if size < UInt32.size then
    ({ c with
        code := Leb.padded paddedWidth size ++ c.code.drop paddedWidth
        events := c.events ++ [c.generatedEvent size slots] }, .ok ())
  else c.fail (.oversizedBody c.decl.name size)

def generateBlock (c : Context) (body : Body) (slots : Slots) : Context × Except Stop Unit :=
  let e := (Scope.mk c.decl.name body).lowerAll .empty body.code
  let c := { c with
    code := c.code ++ e.ops.flatMap Op.bytes
    relocs := c.relocs ++ relocsFrom c.code.length e.ops
    events := c.events ++ e.events }
  match e.result with
  | .error s => c.stop s
  | .ok frame =>
    let c := { c with code := c.code ++ Op.endMark.bytes }
    match slots.checkDense c.decl.name frame.slots with
    | .error v => c.stop (.broken v)
    | .ok () => c.writeSize slots

/-- Writes the body into the empty code buffer. -/
def generateBody (c : Context) : Context × Except Stop Unit :=
  if c.code ≠ [] then c.stop (.broken (.contextReused c.decl.name))
  else match c.decl.body? with
  | none => c.fail (.missingBody c.decl.name)
  | some body =>
    let c := { c with code := List.replicate paddedWidth 0 }
    match c.slots body with
    | .error s => c.stop s
    | .ok slots => { c with code := c.code ++ slots.table }.generateBlock body slots

def generate (c : Context) : Context × Except Stop Unit :=
  match c.generateType with
  | (c, .ok ()) => c.generateBody
  | stopped => stopped

end Context

/-- The code of one declaration; a failure discards what was written for it. -/
def generateFunction (id : DeclId) (decl : Decl) : Except Stop FunctionCode :=
  match (Context.new id decl).generate with
  | (c, .ok ()) => .ok c.finish
  | (_, .error s) => .error s

def generationEvents (id : DeclId) (decl : Decl) : List Event :=
  (Context.new id decl).generate.1.events

end WasmLowering
