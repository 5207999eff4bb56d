import WasmLowering.Codegen.Outcome

/-! Diagnostics: failures as they are shown and collected. -/
namespace WasmLowering

inductive Severity where
  | info | warning | error
deriving DecidableEq, Inhabited, Repr

def Severity.label : Severity → String
  | info => "INFO"
  | warning => "WARNING"
  | error => "ERROR"

structure Diagnostic where
  severity : Severity
  message : String
  span? : Option Span
  /-- The function or stage that it comes from. -/
  source? : Option String
  code? : Option String
deriving DecidableEq, Inhabited, Repr

namespace Diagnostic

def error (message : String) : Diagnostic := ⟨.error, message, none, none, none⟩

def lines (d : Diagnostic) : List String :=
  let code := match d.code? with
    | some code => " (" ++ code ++ ")"
    | none => ""
  let header := "[" ++ d.source?.getD "codegen" ++ "] " ++ d.severity.label ++ ": "
    ++ d.message ++ code
  header :: (d.span?.map fun s => "   at " ++ s.text).toList

def text (d : Diagnostic) : String :=
  d.message ++ match d.code? with
    | some code => " [" ++ code ++ "]"
    | none => ""

/-- What a reader is told about a function that was left out. -/
def report (d : Diagnostic) : String :=
  "cannot generate '" ++ d.source?.getD "<module>" ++ "': " ++ d.message ++ " (at "
    ++ ((d.span?.map Span.text).getD "unknown location") ++ ")"

def reportHelp : String :=
  "the function was left out of the output; other functions are unaffected"

def reportCode : String := "stackgen::codegen"

def isError (d : Diagnostic) : Bool := d.severity == .error

end Diagnostic

def Failure.diagnostic (f : Failure) : Diagnostic :=
  ⟨.error, f.message, some f.span, none, some "codegen"⟩

def Failure.summary (f : Failure) : String := "Codegen failure at " ++ f.text

end WasmLowering
