/-! Log records. -/
namespace WasmLowering

inductive Level where
  | trace | debug | info | warn | error
deriving DecidableEq, Inhabited, Repr

namespace Level

def label : Level → String
  | trace => "TRACE"
  | debug => "DEBUG"
  | info => "INFO"
  | warn => "WARN"
  | error => "ERROR"

def rank : Level → Nat
  | trace => 0
  | debug => 1
  | info => 2
  | warn => 3
  | error => 4

end Level

structure Event where
  level : Level
  message : String
  /-- Further fields, which only some readers of a log keep. -/
  fields : List (String × String)
deriving DecidableEq, Inhabited, Repr

namespace Event

def plain (level : Level) (message : String) : Event := ⟨level, message, []⟩

def text (e : Event) : String :=
  e.message ++ String.join (e.fields.map fun (name, value) => " " ++ name ++ "=" ++ value)

def passes (threshold : Level) (e : Event) : Bool := threshold.rank ≤ e.level.rank

end Event

end WasmLowering
