import WasmLowering.Command.Environment
import WasmLowering.Json.Module

/-! The command: read a module, generate its functions, write them out. Nothing is written unless
the run is completed. -/
namespace WasmLowering

structure Job where
  input : String
  /-- Standard output if there is none. -/
  output? : Option String
  /-- Wins over the configured format. -/
  format? : Option OutputFormat
deriving DecidableEq, Inhabited, Repr

structure Summary where
  generated : Nat
  failed : Nat
deriving DecidableEq, Inhabited, Repr

def Summary.text (s : Summary) : String :=
  "GenerateSummary \x7b generated: " ++ toString s.generated ++ ", failed: " ++ toString s.failed
    ++ " \x7d"

/-- Why a command has no summary. -/
inductive CommandStop where
  | failed (e : CommandError)
  | broken (v : Violation)
deriving BEq, Inhabited, Repr

structure Outcome (α : Type) where
  events : List Event
  written? : Option (List UInt8)
  result : Except CommandStop α
deriving Inhabited, Repr

namespace Job

def loadedEvent (job : Job) (m : Module) : Event :=
  .plain .info ("Loaded " ++ toString m.decls.length ++ " declarations from " ++ job.input)

def finishedEvent (s : Summary) : Event :=
  ⟨.debug, "code generation finished", [("summary", s.text)]⟩

def readModule (job : Job) (env : Environment) : Except CommandError Module := do
  let source ← (env.readText job.input).mapError .io
  (Module.ofText source).mapError fun m => .compilation (.source m)

def writeError? (job : Job) (env : Environment) : Option IoError :=
  job.output?.bind env.writeError?

def stopOf : Stop → CommandStop
  | .failed f => .failed (.compilation (.codegen f))
  | .broken v => .broken v

def write (job : Job) (env : Environment) (config : Config) (events : List Event)
    (code : ModuleCode) (t : DeclTable) : Outcome Summary :=
  match code.render t (job.format?.getD config.format) with
  | .error f => ⟨events, none, .error (.failed (.compilation (.body f)))⟩
  | .ok bytes =>
    match job.writeError? env with
    | some e => ⟨events, none, .error (.failed (.io e))⟩
    | none =>
      let summary : Summary := ⟨code.functions.length, code.diagnostics.length⟩
      ⟨events ++ [finishedEvent summary], some bytes, .ok summary⟩

def generate (job : Job) (env : Environment) (config : Config) : Outcome Summary :=
  match job.readModule env with
  | .error e => ⟨[], none, .error (.failed e)⟩
  | .ok m =>
    let (r, result) := m.table.run config.policy
    let events := job.loadedEvent m :: r.events
    match result with
    | .error s => ⟨events, none, .error (stopOf s)⟩
    | .ok () => job.write env config events r.code r.table

end Job

end WasmLowering
