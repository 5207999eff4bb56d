import WasmLowering.Proofs.Generation
import WasmLowering.Wasm.Reader

/-!
# What blocks and operations do

Two meanings side by side. A block gives values to its instructions and contents to its stack slots;
the operations work on a stack and on numbered locals. Additions and callees are parameters of both.
-/

namespace WasmLowering

variable {σ : Type}

/-- The additions, and the callees: how many arguments each takes, and what it returns and does to a
state. -/
structure World (σ : Type) where
  add : ValType → Scalar → Scalar → Scalar
  arity : DeclId → Nat
  call : DeclId → List Scalar → σ → Option Scalar × σ

/-! ## Blocks -/

structure Store (σ : Type) where
  values : InstId → Option Scalar
  /-- The contents of the stack slots. -/
  cells : InstId → Option Scalar
  state : σ

namespace Store

def start (s : σ) : Store σ := ⟨fun _ => none, fun _ => none, s⟩

def define (st : Store σ) (i : InstId) (v : Scalar) : Store σ :=
  { st with values := fun j => if j = i then some v else st.values j }

def write (st : Store σ) (i : InstId) (v : Scalar) : Store σ :=
  { st with cells := fun j => if j = i then some v else st.cells j }

end Store

/-- An instruction lets the block go on, or returns from it. -/
inductive Flow (σ : Type) where
  | next (st : Store σ)
  | returned (r : Option Scalar) (s : σ)

namespace Body

variable (b : Body) (w : World σ) (params : List Scalar)

/-- A literal denotes itself; any other operand is the value of an instruction run before. -/
def operand (st : Store σ) (i : InstId) : Option Scalar := do
  let inst ← b.get? i
  match inst.kind with
  | .constant l => l.scalar? inst.ty
  | _ => st.values i

def stepInst (st : Store σ) (i : InstId) (inst : Inst) : Option (Flow σ) :=
  match inst.kind with
  | .arg index => do return .next (st.define i (← params[index.toNat]?))
  | .alloc => do return .next (st.write i (Scalar.zero (← b.slotType? i)))
  | .load ptr => do return .next (st.define i (← st.cells ptr))
  | .store ptr value => do
    let v ← b.operand st value
    let _ ← st.cells ptr
    return .next (st.write ptr v)
  | .add lhs rhs => do
    let t ← inst.ty.valType?
    return .next (st.define i (w.add t (← b.operand st lhs) (← b.operand st rhs)))
  | .call callee args => do
    let target ← b.callee? callee
    let (r, s) := w.call target (← args.mapM (b.operand st)) st.state
    let st := { st with state := s }
    return .next (match r with
      | some v => st.define i v
      | none => st)
  | .ret operand => do return .returned (some (← b.operand st operand)) st.state
  | .retVoid => some (.returned none st.state)
  | .dbgStmt _ _ => some (.next st)
  | _ => none

def step (st : Store σ) (i : InstId) : Option (Flow σ) := do
  b.stepInst w params st i (← b.get? i)

def run (st : Store σ) : List InstId → Option (Option Scalar × σ)
  | [] => none
  | i :: is => do
    match ← b.step w params st i with
    | .next st' => run st' is
    | .returned r s => return (r, s)

/-- What the block returns, and the state that its calls leave. -/
def eval (s : σ) : Option (Option Scalar × σ) := b.run w params (.start s) b.code

end Body

/-- The callees take as many arguments as the block passes, and return a value where the call has a
type with values. -/
def World.Fits (w : World σ) (b : Body) : Prop :=
  ∀ i ∈ b.code, ∀ inst callee args target, b.get? i = some inst → inst.kind = .call callee args →
    b.callee? callee = some target → w.arity target = args.length ∧
      ∀ vs s, vs.length = args.length → (w.call target vs s).1.isSome = !inst.ty.isVoid

/-! ## Operations -/

/-- A stack, its top first, the locals of a function and the state of its callees. -/
structure Machine (σ : Type) where
  stack : List Scalar
  locals : List Scalar
  state : σ

namespace Machine

def push (m : Machine σ) (v : Scalar) : Machine σ := { m with stack := v :: m.stack }

/-- The machine is stuck where a local or an entry of the stack is missing. -/
def step (w : World σ) (m : Machine σ) : Op → Option (Machine σ)
  | .localGet n => do return m.push (← m.locals[n]?)
  | .localSet n =>
    match m.stack with
    | v :: rest =>
      if n < m.locals.length then
        some { m with stack := rest, locals := m.locals.set n v }
      else none
    | [] => none
  | .i32Const v => some (m.push (.i32 v))
  | .i64Const v => some (m.push (.i64 v))
  | .f32Const v => some (m.push (.f32 v))
  | .f64Const v => some (m.push (.f64 v))
  | .add t =>
    match m.stack with
    | r :: l :: rest => some { m with stack := w.add t l r :: rest }
    | _ => none
  | .callReloc target =>
    if w.arity target ≤ m.stack.length then
      let (r, s) := w.call target (m.stack.take (w.arity target)).reverse m.state
      some { m with stack := r.toList ++ m.stack.drop (w.arity target), state := s }
    else none
  | .call _ | .endMark => none

/-- Runs operations up to the end marker. -/
def run (w : World σ) (m : Machine σ) : List Op → Option (Machine σ)
  | [] => none
  | .endMark :: _ => some m
  | o :: os => do run w (← m.step w o) os

end Machine

/-- The locals behind the parameters when a function starts. -/
def DecodedBody.zeros (d : DecodedBody) : List Scalar :=
  d.locals.flatMap fun (n, t) => List.replicate n (Scalar.zero t)

end WasmLowering
