import WasmLowering.Codegen.Outcome
import WasmLowering.Wasm.Leb
import WasmLowering.Wasm.ValType

/-! Function type entries: a tag, the parameters, the results. -/
namespace WasmLowering.Signature

/-- The parameters up to the first one without a value type. -/
def paramBytes : List Ty → List UInt8 × Option Cause
  | [] => ([], none)
  | p :: ps =>
    match p.valType? with
    | none => ([], some (.argumentType p))
    | some t => (t.byte :: (paramBytes ps).1, (paramBytes ps).2)

def resultBytes (ret : Ty) : List UInt8 × Option Cause :=
  if ret.isVoid then (Leb.unsigned 0, none)
  else match ret.valType? with
    | none => ([], some (.returnType ret))
    | some t => (Leb.unsigned 1 ++ [t.byte], none)

/-- The number of parameters in 32 bits, as an entry states it. -/
def paramCount (s : Signature) : Nat := s.params.length % UInt32.size

/-- The bytes written, and what stopped the writing. -/
def entry (s : Signature) : List UInt8 × Option Cause :=
  let head := 0x60 :: Leb.unsigned s.paramCount
  match paramBytes s.params with
  | (bs, some c) => (head ++ bs, some c)
  | (bs, none) => (head ++ bs ++ (resultBytes s.ret).1, (resultBytes s.ret).2)

end WasmLowering.Signature
