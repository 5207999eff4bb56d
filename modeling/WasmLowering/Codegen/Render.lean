import WasmLowering.Codegen.Run
import WasmLowering.Wasm.Reader

/-! Written forms of generated code. -/
namespace WasmLowering

inductive OutputFormat where
  /-- The bodies as they are. -/
  | binary
  /-- A line for each function, with its bytes in hexadecimal. -/
  | hex
  /-- The operations of each function, read back from its bytes. -/
  | listing
deriving DecidableEq, Inhabited, Repr

namespace FunctionCode

/-- A call is shown with the name of its target, if the table has one. -/
def relocText (t : DeclTable) (r : Reloc) : String :=
  toString r.offset ++ "->" ++ ((t.get? r.target).map Decl.name).getD r.target.text

def hexLine (t : DeclTable) (f : FunctionCode) : String :=
  f.name ++ ": type=" ++ Hex.text Hex.lower f.typeEntry
    ++ " body=" ++ Hex.text Hex.lower f.body
    ++ " relocs=[" ++ String.intercalate "," (f.relocs.map (relocText t)) ++ "]\n"

def decode (f : FunctionCode) : Except Fault DecodedBody := DecodedBody.read f.body f.relocs

def listing (f : FunctionCode) : Except Fault String := do
  let d ← f.decode
  return f.name ++ ":\n" ++ String.join (d.listing.map fun line => "  " ++ line ++ "\n")

end FunctionCode

namespace ModuleCode

def listing (m : ModuleCode) : Except Fault String := do
  return String.join (← m.functions.mapM FunctionCode.listing)

def render (m : ModuleCode) (t : DeclTable) : OutputFormat → Except Fault (List UInt8)
  | .binary => .ok m.codeSection
  | .hex => .ok (String.join (m.functions.map (FunctionCode.hexLine t))).toUTF8.toList
  | .listing => do return (← m.listing).toUTF8.toList

end ModuleCode

end WasmLowering
