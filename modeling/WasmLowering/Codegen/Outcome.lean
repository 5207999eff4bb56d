import WasmLowering.Ir.Decl

/-! How generation ends when it yields no code: with a located failure, or at a broken invariant of
the IR. -/
namespace WasmLowering

inductive Cause where
  | argumentType (ty : Ty)
  | returnType (ty : Ty)
  | localType (ty : Ty)
  | constantType (ty : Ty)
  | constantRange (value : Literal) (ty : Ty)
  | addType (ty : Ty)
  | nonFunctionType (name : String) (ty : Ty)
  | missingBody (name : String)
  | unimplemented (tag : String)
  | indirectCall (tag : String)
  | unknownCallee (target : DeclId)
  | oversizedBody (name : String) (size : Nat)
  /-- Reported in the words of another stage. -/
  | other (message : String)
deriving BEq, Inhabited, Repr

def Cause.message : Cause → String
  | argumentType ty => "unsupported type '" ++ ty.text ++ "' for wasm argument"
  | returnType ty => "unsupported type '" ++ ty.text ++ "' for wasm return type"
  | localType ty => "unsupported type '" ++ ty.text ++ "' for wasm local"
  | constantType ty => "unsupported type '" ++ ty.text ++ "' for wasm constant"
  | constantRange value ty => "constant " ++ value.text ++ " does not fit type '" ++ ty.text ++ "'"
  | addType ty => "TODO: implement wasm add for type '" ++ ty.text ++ "'"
  | nonFunctionType name ty => "'" ++ name ++ "' has non-function type '" ++ ty.text ++ "'"
  | missingBody name => "function '" ++ name ++ "' has no body to generate"
  | unimplemented tag => "TODO: implement wasm lowering for instruction '" ++ tag ++ "'"
  | indirectCall tag => "TODO: implement wasm indirect call through '" ++ tag ++ "'"
  | unknownCallee target => "call to unknown declaration " ++ target.text
  | oversizedBody name size =>
    "body of '" ++ name ++ "' is too large (" ++ toString size ++ " bytes)"
  | other message => message

structure Failure where
  span : Span
  cause : Cause
deriving BEq, Inhabited, Repr

def Failure.message (f : Failure) : String := f.cause.message

def Failure.text (f : Failure) : String := f.span.text ++ ": " ++ f.message

/-- How later instructions get the value of an instruction. -/
inductive Operand where
  /-- Nothing has to be pushed: there is no value, or the stack holds it. -/
  | onStack
  | slot (n : Nat)
  | literal (i : InstId)
  /-- A label of control flow, which has no value. -/
  | block (label : UInt32)
deriving DecidableEq, Inhabited, Repr

def Operand.text : Operand → String
  | onStack => "None"
  | slot n => "Local(" ++ toString n ++ ")"
  | literal i => "Constant(InstId(" ++ toString i.index ++ "))"
  | block label => "BlockIdx(" ++ toString label ++ ")"

/-- What the producer of the IR has promised and not kept. -/
inductive Violation where
  | undefinedOperand (i : InstId) (fn : String)
  | notALiteral (tag : String)
  | storeTarget (v : Operand) (fn : String)
  | argumentOrder (index : UInt32) (fn : String)
  | argumentCount (fn : String) (declared found : Nat)
  | loweredTwice (i : InstId)
  | sparseSlots (fn : String)
  | counterOverflow
  | contextReused (fn : String)
  | indexOutOfRange (index size : Nat)
  | paddedWidth (found : Nat)
deriving DecidableEq, Inhabited, Repr

def Violation.message : Violation → String
  | undefinedOperand i fn =>
    "IR invariant violated: " ++ i.text ++ " used before its definition in '" ++ fn ++ "'"
  | notALiteral tag => "`" ++ tag ++ "` instruction is not a literal"
  | storeTarget v fn =>
    "IR invariant violated: store through " ++ v.text ++ " in '" ++ fn ++ "' is not a local slot"
  | argumentOrder index fn =>
    "IR invariant violated: argument " ++ toString index ++ " of '" ++ fn
      ++ "' reached out of declaration order"
  | argumentCount fn declared found =>
    "IR invariant violated: '" ++ fn ++ "' declares " ++ toString declared
      ++ " parameters but its body has " ++ toString found ++ " arg instructions"
  | loweredTwice i => "IR invariant violated: " ++ i.text ++ " lowered twice"
  | counterOverflow => "attempt to add with overflow"
  | sparseSlots fn => "IR invariant violated: local index space of '" ++ fn ++ "' is not dense"
  | contextReused fn =>
    "IR invariant violated: code buffer of '" ++ fn ++ "' reused for a second generation"
  | indexOutOfRange index size =>
    "index out of bounds: the len is " ++ toString size ++ " but the index is " ++ toString index
  | paddedWidth found =>
    "assertion `left == right` failed: padded u32 slot must be 5 bytes\n  left: "
      ++ toString found ++ "\n right: 5"

inductive Stop where
  | failed (f : Failure)
  | broken (v : Violation)
deriving BEq, Inhabited, Repr

/-- The counters of slots have 32 bits. -/
def counter (n : Nat) : Except Violation Nat :=
  if n < UInt32.size then .ok n else .error .counterOverflow

def Body.inst (b : Body) (i : InstId) : Except Violation Inst :=
  match b.get? i with
  | some inst => .ok inst
  | none => .error (.indexOutOfRange i.index.toNat b.insts.size)

def DeclTable.decl (t : DeclTable) (i : DeclId) : Except Violation Decl :=
  match t.get? i with
  | some d => .ok d
  | none => .error (.indexOutOfRange i.index.toNat t.size)

def DeclTable.relocs (t : DeclTable) (i : DeclId) : Except Violation (List Reloc) :=
  match t.relocs? i with
  | some rs => .ok rs
  | none => .error (.indexOutOfRange i.index.toNat t.size)

end WasmLowering
