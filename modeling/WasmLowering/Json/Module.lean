import WasmLowering.Json.Ir

/-! Modules: lists of declarations, and their text. -/
namespace WasmLowering

open Json (Value Mismatch Member)

/-- A literal that names a function gives its place in the list. -/
structure Module where
  decls : List Decl
deriving BEq, Inhabited, Repr

namespace Module

/-- How deep arrays and objects may nest in the parts of a text that are read. -/
def maxDepth : Nat := 127

def toJson (m : Module) : Value := .object [("decls", .array (m.decls.map Decl.toJson))]

def fields (room : Nat) : List (Member Module) :=
  [.required "decls" (Value.readList room (Decl.ofJson (room - 1)))
     fun x s => { s with decls := x }]

def ofJson (room : Nat) : Value → Except Mismatch Module :=
  Value.readRecord room "struct IrModule" (fields (room - 1)) ⟨[]⟩

def text (m : Module) : String := m.toJson.text

/-- A text with a part that denotes nothing or nests too deep is malformed, whatever else is wrong
with it; such a part is only let through where nothing reads it. -/
def ofText (source : String) : Except Mismatch Module :=
  match Json.parse source with
  | none => .error .malformed
  | some v =>
    match ofJson maxDepth v with
    | .ok m => .ok m
    | .error e => .error (if v.readable ∧ v.depth ≤ maxDepth then e else .malformed)

def table (m : Module) : DeclTable := .ofList m.decls

end Module

end WasmLowering
