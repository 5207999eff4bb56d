import WasmLowering.Codegen.Context
import WasmLowering.Diagnostic

/-! Generation of all functions of a table. -/
namespace WasmLowering

inductive Policy where
  | skip | abort
deriving DecidableEq, Inhabited, Repr

structure ModuleCode where
  functions : List FunctionCode
  diagnostics : List Diagnostic
deriving DecidableEq, Inhabited, Repr

namespace ModuleCode

def hasErrors (m : ModuleCode) : Bool := !m.diagnostics.isEmpty

/-- The bodies one after the other; function indices of calls are still missing. -/
def codeSection (m : ModuleCode) : List UInt8 := m.functions.flatMap FunctionCode.body

end ModuleCode

def Body.callSpan? (b : Body) (target : DeclId) : Option Span :=
  b.code.findSome? fun i =>
    match b.get? i with
    | some inst =>
      match inst.kind with
      | .call callee _ => if b.callee? callee = some target then some inst.span else none
      | _ => none
    | none => none

/-- Every call has to name a declaration of the table. -/
def FunctionCode.checkCallees (code : FunctionCode) (t : DeclTable) (d : Decl) :
    Except Failure Unit :=
  match code.relocs.find? fun r => (t.get? r.target).isNone with
  | none => .ok ()
  | some r =>
    let span? := d.body?.bind fun b => b.callSpan? r.target
    .error ⟨span?.getD d.span, .unknownCallee r.target⟩

def DeclTable.generate (t : DeclTable) (i : DeclId) (d : Decl) : Except Stop FunctionCode := do
  let code ← generateFunction i d
  (code.checkCallees t d).mapError .failed
  return code

structure Run where
  table : DeclTable
  code : ModuleCode
  events : List Event

namespace Run

def start (t : DeclTable) : Run := ⟨t, ⟨[], []⟩, []⟩

def publish (r : Run) (code : FunctionCode) : Run :=
  { r with
    table := r.table.addRelocs code.decl code.relocs
    code := { r.code with functions := r.code.functions ++ [code] } }

def report (r : Run) (d : Decl) (f : Failure) : Run :=
  let diagnostic := { f.diagnostic with source? := some d.name }
  { r with code := { r.code with diagnostics := r.code.diagnostics ++ [diagnostic] } }

def log (r : Run) (es : List Event) : Run := { r with events := r.events ++ es }

def skipEvent (d : Decl) (f : Failure) : Event :=
  .plain .warn ("skipping '" ++ d.name ++ "': " ++ f.summary)

def endEvent (r : Run) : Event :=
  .plain .debug ("generated " ++ toString r.code.functions.length ++ " functions, "
    ++ toString (r.code.diagnostics.countP Diagnostic.isError) ++ " failed")

/-- Declarations without a body are passed over. -/
def visit (policy : Policy) (r : Run) (i : DeclId) : Run × Except Stop Unit :=
  match r.table.get? i with
  | none => (r, .ok ())
  | some d =>
    if d.body?.isNone then (r, .ok ())
    else
      let logged := r.log (generationEvents i d)
      match r.table.generate i d with
      | .ok code => (logged.publish code, .ok ())
      | .error (.broken v) => (logged, .error (.broken v))
      | .error (.failed f) =>
        match policy with
        | .skip => ((logged.report d f).log [skipEvent d f], .ok ())
        | .abort => (logged.report d f, .error (.failed f))

def visitAll (policy : Policy) (r : Run) : List DeclId → Run × Except Stop Unit
  | [] => (r.log [r.endEvent], .ok ())
  | i :: is =>
    match r.visit policy i with
    | (r', .ok ()) => visitAll policy r' is
    | stopped => stopped

end Run

def DeclTable.run (t : DeclTable) (policy : Policy) : Run × Except Stop Unit :=
  (Run.start t).visitAll policy t.ids

end WasmLowering
