import WasmLowering.Codegen.Emission

/-! Literals as operations. -/
namespace WasmLowering

/-- The operations that push a literal of type `ty`. An unsigned integer is pushed as the signed
one with the same bits. -/
def Literal.ops (l : Literal) (ty : Ty) : Except Cause (List Op) :=
  match ty with
  | .void => .ok []
  | _ =>
    match ty.valType? with
    | none => .error (.constantType ty)
    | some t =>
      let op? := match t with
        | .i32 => (l.integerIn? ty.isSignedInt 32).map fun v => Op.i32Const (Int32.ofInt v)
        | .i64 => (l.integerIn? ty.isSignedInt 64).map fun v => Op.i64Const (Int64.ofInt v)
        | .f32 => l.single?.map Op.f32Const
        | .f64 => l.float?.map Op.f64Const
      match op? with
      | some o => .ok [o]
      | none => .error (.constantRange l ty)

def Inst.emitConstant (inst : Inst) : Emission Unit :=
  match inst.kind.literal? with
  | none => .broken (.notALiteral inst.kind.tag)
  | some l =>
    match l.ops inst.ty with
    | .ok os => ⟨os, [], .ok ()⟩
    | .error c => .fail ⟨inst.span, c⟩

end WasmLowering
