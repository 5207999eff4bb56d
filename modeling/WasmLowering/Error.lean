import WasmLowering.Diagnostic
import WasmLowering.Json.Shape
import WasmLowering.Wasm.Reader

/-! The errors of all stages of the compiler. -/
namespace WasmLowering

inductive Error where
  | codegen (f : Failure)
  | outOfMemory (reason : String)
  /-- Bytes that are no function body. -/
  | body (f : Fault)
  /-- A text that is no module. -/
  | source (m : Json.Mismatch)
  | other (reason : String)
deriving BEq, Inhabited, Repr

namespace Error

def text : Error → String
  | codegen f => f.summary
  | outOfMemory reason => "Out of memory: " ++ reason
  | body f => "Generic error: " ++ f.message
  | source m => "Generic error: " ++ m.message
  | other reason => "Generic error: " ++ reason

def failure? : Error → Option Failure
  | codegen f => some f
  | _ => none

def diagnostic : Error → Diagnostic
  | codegen f => f.diagnostic
  | e => .error e.text

/-- A reservation of more memory than can be addressed. -/
def capacityOverflow : Error :=
  .outOfMemory
    "memory allocation failed because the computed capacity exceeded the collection's maximum"

end Error

end WasmLowering
