import WasmLowering.Ir.Decl
import WasmLowering.Json.Shape

/-! The JSON form of types, literals, instructions, bodies and declarations. -/
namespace WasmLowering

open Json (Value Mismatch Member)

def Json.Value.tagged (name : String) (v : Value) : Value := .object [(name, v)]

def Json.Value.nat (n : Nat) : Value := .integer n

/-! ## Spans and ids -/

namespace Span

def toJson (s : Span) : Value :=
  .object [("file", .nat s.file.toNat), ("lo", .nat s.lo.toNat), ("hi", .nat s.hi.toNat)]

def fields : List (Member Span) :=
  [.required "file" Value.readUInt64 fun x s => { s with file := x },
   .required "lo" Value.readUInt32 fun x s => { s with lo := x },
   .required "hi" Value.readUInt32 fun x s => { s with hi := x }]

def ofJson (room : Nat) : Value → Except Mismatch Span :=
  Value.readRecord room "struct Span" fields .synthetic

end Span

namespace DeclId

def toJson (d : DeclId) : Value := .nat d.index.toNat

def ofJson (v : Value) : Except Mismatch DeclId := v.readUInt32.map DeclId.mk

end DeclId

namespace InstId

def toJson (i : InstId) : Value := .nat i.index.toNat

def ofJson (v : Value) : Except Mismatch InstId := v.readUInt32.map InstId.mk

def listToJson (is : List InstId) : Value := .array (is.map toJson)

def listOfJson (room : Nat) : Value → Except Mismatch (List InstId) := Value.readList room ofJson

end InstId

/-! ## Types -/

namespace Ty

mutual
def toJson : Ty → Value
  | void => .string "void"
  | noReturn => .string "no_return"
  | bool => .string "bool"
  | int signed bits =>
    .tagged "int" (.object [("signed", .bool signed), ("bits", .nat bits.toNat)])
  | float bits => .tagged "float" (.object [("bits", .nat bits.toNat)])
  | ptr t => .tagged "ptr" t.toJson
  | array t n => .tagged "array" (.array [t.toJson, .nat n.toNat])
  | struct name fs =>
    .tagged "struct" (.object [("name", .string name), ("fields", .array (listToJson fs))])
  | fn ps r =>
    .tagged "fn" (.object [("params", .array (listToJson ps)), ("ret", r.toJson)])

def listToJson : List Ty → List Value
  | [] => []
  | t :: ts => t.toJson :: listToJson ts
end

def variants : List String :=
  ["void", "no_return", "bool", "int", "float", "ptr", "array", "struct", "fn"]

def intFields : List (Member (Bool × UInt16)) :=
  [.required "signed" Value.readBool fun x s => (x, s.2),
   .required "bits" Value.readUInt16 fun x s => (s.1, x)]

def floatFields : List (Member UInt16) :=
  [.required "bits" Value.readUInt16 fun x _ => x]

def arrayFields (elem : Value → Except Mismatch Ty) : List (Member (Ty × UInt64)) :=
  [.required "elem" elem fun x s => (x, s.2),
   .required "length" Value.readUInt64 fun x s => (s.1, x)]

def structFields (types : Value → Except Mismatch (List Ty)) : List (Member (String × List Ty)) :=
  [.required "name" Value.readString fun x s => (x, s.2),
   .required "fields" types fun x s => (s.1, x)]

def signatureFields (types : Value → Except Mismatch (List Ty)) (ret : Value → Except Mismatch Ty) :
    List (Member Signature) :=
  [.required "params" types fun x s => { s with params := x },
   .required "ret" ret fun x s => { s with ret := x }]

/-- A function type's parameters and result; `inner k` reads a type `k` levels further in. -/
def readSignature (room : Nat) (inner : Nat → Value → Except Mismatch Ty) :
    Value → Except Mismatch Signature :=
  Value.readRecord room "struct FnTy"
    (signatureFields (Value.readList (room - 1) (inner 2)) (inner 1)) ⟨[], .void⟩

/-- The type that a variant stands for; `inner k` reads a type `k` levels further in. -/
def ofVariant (room : Nat) (inner : Nat → Value → Except Mismatch Ty) (name : String)
    (content : Option Value) : Except Mismatch Ty :=
  match name with
  | "void" => Json.unitVariant void content
  | "no_return" => Json.unitVariant noReturn content
  | "bool" => Json.unitVariant bool content
  | "int" => do
    let v ← Json.contentOf "struct variant" content
    let (signed, bits) ← v.readRecord (room - 1) "struct variant Ty::Int" intFields (false, 0)
    return int signed bits
  | "float" => do
    let v ← Json.contentOf "struct variant" content
    return float (← v.readRecord (room - 1) "struct variant Ty::Float" floatFields 0)
  | "ptr" => do
    let v ← Json.contentOf "newtype variant" content
    return ptr (← inner 1 v)
  | "array" => do
    let v ← Json.contentOf "tuple variant" content
    let (t, n) ←
      v.readItems (room - 1) "tuple variant Ty::Array" (arrayFields (inner 2)) (void, 0)
    return array t n
  | "struct" => do
    let v ← Json.contentOf "struct variant" content
    let (name, ts) ←
      v.readRecord (room - 1) "struct variant Ty::Struct"
        (structFields (Value.readList (room - 2) (inner 3))) ("", [])
    return struct name ts
  | "fn" => do
    let v ← Json.contentOf "newtype variant" content
    return ofSignature (← readSignature (room - 1) (fun k => inner (k + 1)) v)
  | _ => .error .malformed

def ofJson (room : Nat) : Value → Except Mismatch Ty :=
  Value.readVariant room variants <| ofVariant room fun k =>
    if _h : k = 0 ∨ room < k then fun _ => .error .malformed else ofJson (room - k)
termination_by room
decreasing_by omega

end Ty

def Signature.toJson (s : Signature) : Value :=
  .object [("params", .array (Ty.listToJson s.params)), ("ret", s.ret.toJson)]

def Signature.ofJson (room : Nat) : Value → Except Mismatch Signature :=
  Ty.readSignature room fun k =>
    if room < k then fun _ => .error .malformed else Ty.ofJson (room - k)

/-! ## Literals -/

namespace Literal

def toJson : Literal → Value
  | void => .string "void"
  | int v => .tagged "int" (.integer v.toInt)
  | uInt v => .tagged "u_int" (.nat v.toNat)
  | float v => .tagged "float" (.float v)
  | bool v => .tagged "bool" (.bool v)
  | function d => .tagged "function" d.toJson

def variants : List String := ["void", "int", "u_int", "float", "bool", "function"]

def ofVariant (name : String) (content : Option Value) : Except Mismatch Literal :=
  match name with
  | "void" => Json.unitVariant void content
  | "int" => do return int (← (← Json.contentOf "newtype variant" content).readInt64)
  | "u_int" => do return uInt (← (← Json.contentOf "newtype variant" content).readUInt64)
  | "float" => do return float (← (← Json.contentOf "newtype variant" content).readFloat)
  | "bool" => do return bool (← (← Json.contentOf "newtype variant" content).readBool)
  | "function" => do
    return function (← DeclId.ofJson (← Json.contentOf "newtype variant" content))
  | _ => .error .malformed

def ofJson (room : Nat) : Value → Except Mismatch Literal :=
  Value.readVariant room variants ofVariant

end Literal

/-! ## Instructions -/

namespace Comparison

def name : Comparison → String
  | eq => "eq"
  | ne => "ne"
  | lt => "lt"
  | le => "le"
  | gt => "gt"
  | ge => "ge"

def all : List Comparison := [eq, ne, lt, le, gt, ge]

def toJson (c : Comparison) : Value := .string c.name

def ofJson (room : Nat) : Value → Except Mismatch Comparison :=
  Value.readVariant room (all.map name) fun n content =>
    match all.find? fun c => c.name == n with
    | some c => Json.unitVariant c content
    | none => .error .malformed

end Comparison

namespace InstKind

def toJson : InstKind → Value
  | constant l => .tagged "constant" l.toJson
  | arg index => .tagged "arg" (.object [("index", .nat index.toNat)])
  | alloc => .string "alloc"
  | load ptr => .tagged "load" (.object [("ptr", ptr.toJson)])
  | store ptr value =>
    .tagged "store" (.object [("ptr", ptr.toJson), ("value", value.toJson)])
  | add lhs rhs => .tagged "add" (.object [("lhs", lhs.toJson), ("rhs", rhs.toJson)])
  | sub lhs rhs => .tagged "sub" (.object [("lhs", lhs.toJson), ("rhs", rhs.toJson)])
  | mul lhs rhs => .tagged "mul" (.object [("lhs", lhs.toJson), ("rhs", rhs.toJson)])
  | cmp op lhs rhs =>
    .tagged "cmp" (.object [("op", op.toJson), ("lhs", lhs.toJson), ("rhs", rhs.toJson)])
  | call callee args =>
    .tagged "call" (.object [("callee", callee.toJson), ("args", InstId.listToJson args)])
  | ret operand => .tagged "ret" (.object [("operand", operand.toJson)])
  | retVoid => .string "ret_void"
  | dbgStmt line column =>
    .tagged "dbg_stmt" (.object [("line", .nat line.toNat), ("column", .nat column.toNat)])
  | block body => .tagged "block" (.object [("body", InstId.listToJson body)])
  | br target operand =>
    .tagged "br" (.object [("block", target.toJson), ("operand", operand.toJson)])
  | condBr condition thenBody elseBody =>
    .tagged "cond_br" (.object [("condition", condition.toJson),
      ("then_body", InstId.listToJson thenBody), ("else_body", InstId.listToJson elseBody)])
  | unreach => .string "unreach"
  | bitCast operand => .tagged "bit_cast" (.object [("operand", operand.toJson)])
  | intCast operand => .tagged "int_cast" (.object [("operand", operand.toJson)])

def variants : List String :=
  ["constant", "arg", "alloc", "load", "store", "add", "sub", "mul", "cmp", "call", "ret",
   "ret_void", "dbg_stmt", "block", "br", "cond_br", "unreach", "bit_cast", "int_cast"]

def one {α : Type} (name : String) (read : Value → Except Mismatch α) : List (Member α) :=
  [.required name read fun x _ => x]

def two {α β : Type} (a : String) (readA : Value → Except Mismatch α)
    (b : String) (readB : Value → Except Mismatch β) : List (Member (α × β)) :=
  [.required a readA fun x s => (x, s.2), .required b readB fun x s => (s.1, x)]

def three {α β γ : Type} (a : String) (readA : Value → Except Mismatch α)
    (b : String) (readB : Value → Except Mismatch β)
    (c : String) (readC : Value → Except Mismatch γ) : List (Member (α × β × γ)) :=
  [.required a readA fun x s => (x, s.2.1, s.2.2), .required b readB fun x s => (s.1, x, s.2.2),
   .required c readC fun x s => (s.1, s.2.1, x)]

def readContent {σ : Type} (room : Nat) (variant : String) (fields : List (Member σ)) (start : σ)
    (content : Option Value) : Except Mismatch σ := do
  (← Json.contentOf "struct variant" content).readRecord room
    ("struct variant InstKind::" ++ variant) fields start

def operands (room : Nat) (variant a b : String) (content : Option Value) :
    Except Mismatch (InstId × InstId) :=
  readContent room variant (two a InstId.ofJson b InstId.ofJson) (⟨0⟩, ⟨0⟩) content

def operand (room : Nat) (variant name : String) (content : Option Value) :
    Except Mismatch InstId :=
  readContent room variant (one name InstId.ofJson) ⟨0⟩ content

/-- `room` counts from inside the object of the variant. -/
def ofVariant (room : Nat) (name : String) (content : Option Value) : Except Mismatch InstKind :=
  match name with
  | "constant" => do
    return constant (← Literal.ofJson room (← Json.contentOf "newtype variant" content))
  | "arg" => do return arg (← readContent room "Arg" (one "index" Value.readUInt32) 0 content)
  | "alloc" => Json.unitVariant alloc content
  | "load" => do return load (← operand room "Load" "ptr" content)
  | "store" => do
    let (ptr, value) ← operands room "Store" "ptr" "value" content
    return store ptr value
  | "add" => do
    let (lhs, rhs) ← operands room "Add" "lhs" "rhs" content
    return add lhs rhs
  | "sub" => do
    let (lhs, rhs) ← operands room "Sub" "lhs" "rhs" content
    return sub lhs rhs
  | "mul" => do
    let (lhs, rhs) ← operands room "Mul" "lhs" "rhs" content
    return mul lhs rhs
  | "cmp" => do
    let (op, lhs, rhs) ← readContent room "Cmp"
      (three "op" (Comparison.ofJson (room - 1)) "lhs" InstId.ofJson "rhs" InstId.ofJson)
      (.eq, ⟨0⟩, ⟨0⟩) content
    return cmp op lhs rhs
  | "call" => do
    let (callee, args) ← readContent room "Call"
      (two "callee" InstId.ofJson "args" (InstId.listOfJson (room - 1))) (⟨0⟩, []) content
    return call callee args
  | "ret" => do return ret (← operand room "Ret" "operand" content)
  | "ret_void" => Json.unitVariant retVoid content
  | "dbg_stmt" => do
    let (line, column) ← readContent room "DbgStmt"
      (two "line" Value.readUInt32 "column" Value.readUInt32) (0, 0) content
    return dbgStmt line column
  | "block" => do
    return block (← readContent room "Block" (one "body" (InstId.listOfJson (room - 1))) [] content)
  | "br" => do
    let (target, operand) ← operands room "Br" "block" "operand" content
    return br target operand
  | "cond_br" => do
    let (condition, thenBody, elseBody) ← readContent room "CondBr"
      (three "condition" InstId.ofJson "then_body" (InstId.listOfJson (room - 1))
        "else_body" (InstId.listOfJson (room - 1))) (⟨0⟩, [], []) content
    return condBr condition thenBody elseBody
  | "unreach" => Json.unitVariant unreach content
  | "bit_cast" => do return bitCast (← operand room "BitCast" "operand" content)
  | "int_cast" => do return intCast (← operand room "IntCast" "operand" content)
  | _ => .error .malformed

def ofJson (room : Nat) : Value → Except Mismatch InstKind :=
  Value.readVariant room variants (ofVariant (room - 1))

end InstKind

namespace Inst

def toJson (i : Inst) : Value :=
  .object [("ty", i.ty.toJson), ("kind", i.kind.toJson), ("span", i.span.toJson)]

def fields (room : Nat) : List (Member Inst) :=
  [.required "ty" (Ty.ofJson room) fun x s => { s with ty := x },
   .required "kind" (InstKind.ofJson room) fun x s => { s with kind := x },
   .defaulted "span" (Span.ofJson room) fun x s => { s with span := x }]

def ofJson (room : Nat) : Value → Except Mismatch Inst :=
  Value.readRecord room "struct Inst" (fields (room - 1)) ⟨.void, .retVoid, .synthetic⟩

end Inst

/-! ## Bodies and declarations -/

namespace Body

def toJson (b : Body) : Value :=
  .object [("insts", .array (b.insts.toList.map Inst.toJson)), ("code", InstId.listToJson b.code)]

def fields (room : Nat) : List (Member Body) :=
  [.required "insts" (Value.readList room (Inst.ofJson (room - 1)))
     fun x s => { s with insts := x.toArray },
   .required "code" (InstId.listOfJson room) fun x s => { s with code := x }]

def ofJson (room : Nat) : Value → Except Mismatch Body :=
  Value.readRecord room "struct Body" (fields (room - 1)) .empty

def optionOfJson (room : Nat) : Value → Except Mismatch (Option Body)
  | .null => .ok none
  | v => (ofJson room v).map some

end Body

namespace Decl

def toJson (d : Decl) : Value :=
  .object [("name", .string d.name), ("ty", d.ty.toJson), ("span", d.span.toJson),
    ("body", (d.body?.map Body.toJson).getD .null)]

def fields (room : Nat) : List (Member Decl) :=
  [.required "name" Value.readString fun x s => { s with name := x },
   .required "ty" (Ty.ofJson room) fun x s => { s with ty := x },
   .defaulted "span" (Span.ofJson room) fun x s => { s with span := x },
   .defaulted "body" (Body.optionOfJson room) fun x s => { s with body? := x }]

def ofJson (room : Nat) : Value → Except Mismatch Decl :=
  Value.readRecord room "struct Decl" (fields (room - 1)) ⟨"", .void, .synthetic, none⟩

end Decl

end WasmLowering
