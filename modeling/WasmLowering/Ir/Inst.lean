import WasmLowering.Ir.Literal
import WasmLowering.Ir.Span
import WasmLowering.Ir.Ty

/-! Instructions. -/
namespace WasmLowering

structure InstId where
  index : UInt32
deriving DecidableEq, Hashable, Inhabited, Repr

def InstId.text (i : InstId) : String := "%" ++ toString i.index

inductive Comparison where
  | eq | ne | lt | le | gt | ge
deriving DecidableEq, Inhabited, Repr

inductive InstKind where
  /-- A literal; it is re-read where it is used and is not part of the main order. -/
  | constant (value : Literal)
  | arg (index : UInt32)
  /-- A stack slot; the type of the instruction points to the type of the slot. -/
  | alloc
  | load (ptr : InstId)
  | store (ptr value : InstId)
  | add (lhs rhs : InstId)
  | sub (lhs rhs : InstId)
  | mul (lhs rhs : InstId)
  | cmp (op : Comparison) (lhs rhs : InstId)
  | call (callee : InstId) (args : List InstId)
  | ret (operand : InstId)
  | retVoid
  | dbgStmt (line column : UInt32)
  | block (body : List InstId)
  | br (block operand : InstId)
  | condBr (condition : InstId) (thenBody elseBody : List InstId)
  | unreach
  | bitCast (operand : InstId)
  | intCast (operand : InstId)
deriving DecidableEq, Inhabited, Repr

def Comparison.tag : Comparison → String
  | eq => "cmp_eq"
  | ne => "cmp_neq"
  | lt => "cmp_lt"
  | le => "cmp_lte"
  | gt => "cmp_gt"
  | ge => "cmp_gte"

namespace InstKind

def tag : InstKind → String
  | constant _ => "constant"
  | arg _ => "arg"
  | alloc => "alloc"
  | load _ => "load"
  | store _ _ => "store"
  | add _ _ => "add"
  | sub _ _ => "sub"
  | mul _ _ => "mul"
  | cmp op _ _ => op.tag
  | call _ _ => "call"
  | ret _ => "ret"
  | retVoid => "retvoid"
  | dbgStmt _ _ => "dbg_stmt"
  | block _ => "block"
  | br _ _ => "br"
  | condBr _ _ _ => "condbr"
  | unreach => "unreach"
  | bitCast _ => "bitcast"
  | intCast _ => "intcast"

def literal? : InstKind → Option Literal
  | constant l => some l
  | _ => none

def isConstant (k : InstKind) : Bool := k.literal?.isSome

end InstKind

structure Inst where
  ty : Ty
  kind : InstKind
  span : Span
deriving BEq, Inhabited, Repr

end WasmLowering
