import WasmLowering.Codegen.Render
import WasmLowering.Toml.Reader

/-! Settings of the command, and the configuration file that gives them. -/
namespace WasmLowering

namespace Policy

def name : Policy → String
  | skip => "skip"
  | abort => "abort"

def all : List Policy := [skip, abort]

def ofName? (s : String) : Option Policy := all.find? fun p => p.name == s

end Policy

namespace OutputFormat

def name : OutputFormat → String
  | binary => "binary"
  | hex => "hex"
  | listing => "listing"

def all : List OutputFormat := [binary, hex, listing]

def ofName? (s : String) : Option OutputFormat := all.find? fun f => f.name == s

end OutputFormat

structure Config where
  policy : Policy
  format : OutputFormat
deriving DecidableEq, Inhabited, Repr

namespace Config

open Toml (Node)

def standard : Config := ⟨.skip, .binary⟩

/-- A name, or a table with the name as its only key and nothing behind it. -/
def choice {α : Type} (ofName? : String → Option α) : Node → Option α
  | .string s => ofName? s
  | .table _ [(k, v)] =>
    match v with
    | .table _ [] | .array [] | .tables [] => ofName? k
    | _ => none
  | _ => none

/-- A section with one setting: a table with a key for it, or a list with the setting in front. What
is left out keeps its standard value, and other keys are passed over; a date counts as a table of
other keys. -/
def setting {α : Type} (k : String) (ofName? : String → Option α) (standard : α) :
    Node → Option α
  | .table _ fs =>
    match Toml.Fields.find? k fs with
    | none => some standard
    | some v => choice ofName? v
  | .array [] | .tables [] | .moment => some standard
  | .array (v :: _) | .tables (v :: _) => choice ofName? v
  | _ => none

def sectionOf {α : Type} (name k : String) (ofName? : String → Option α) (standard : α)
    (fs : Toml.Fields) : Option α :=
  match Toml.Fields.find? name fs with
  | none => some standard
  | some v => setting k ofName? standard v

def ofNode : Node → Option Config
  | .table _ fs => do
    return ⟨← sectionOf "codegen" "failure_policy" Policy.ofName? standard.policy fs,
      ← sectionOf "output" "format" OutputFormat.ofName? standard.format fs⟩
  | _ => none

/-- The settings that a configuration file gives, if it is well-formed. -/
def ofText? (text : String) : Option Config := do ofNode (← Toml.parse text)

end Config

end WasmLowering
