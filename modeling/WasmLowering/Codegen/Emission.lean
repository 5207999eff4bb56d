import WasmLowering.Codegen.Outcome
import WasmLowering.Event
import WasmLowering.Wasm.Op

/-! Computations that write operations and log records as they go. What was written before a stop
stays written. -/
namespace WasmLowering

structure Emission (α : Type) where
  ops : List Op
  events : List Event
  result : Except Stop α

namespace Emission

variable {α β : Type}

def bind (m : Emission α) (f : α → Emission β) : Emission β :=
  match m.result with
  | .ok a =>
    let rest := f a
    ⟨m.ops ++ rest.ops, m.events ++ rest.events, rest.result⟩
  | .error s => ⟨m.ops, m.events, .error s⟩

instance : Monad Emission where
  pure a := ⟨[], [], .ok a⟩
  bind := bind

def op (o : Op) : Emission Unit := ⟨[o], [], .ok ()⟩

def event (e : Event) : Emission Unit := ⟨[], [e], .ok ()⟩

def fail (f : Failure) : Emission α := ⟨[], [], .error (.failed f)⟩

def broken (v : Violation) : Emission α := ⟨[], [], .error (.broken v)⟩

def require : Except Violation α → Emission α
  | .ok a => pure a
  | .error v => broken v

theorem ext {m n : Emission α} (ho : m.ops = n.ops) (he : m.events = n.events)
    (hr : m.result = n.result) : m = n := by
  cases m; cases n; simp_all

theorem bind_def (m : Emission α) (f : α → Emission β) : (m >>= f) = m.bind f := rfl

theorem bind_of_ok {m : Emission α} {a : α} (f : α → Emission β) (h : m.result = .ok a) :
    (m >>= f) = ⟨m.ops ++ (f a).ops, m.events ++ (f a).events, (f a).result⟩ := by
  simp [bind_def, bind, h]

theorem bind_of_error {m : Emission α} {s : Stop} (f : α → Emission β) (h : m.result = .error s) :
    (m >>= f) = ⟨m.ops, m.events, .error s⟩ := by
  simp [bind_def, bind, h]

theorem bind_pure_self (m : Emission α) : m.bind (fun a => pure a) = m := by
  cases m with
  | mk ops events result => cases result <;> simp [bind, pure]

theorem pure_bind_self (a : α) (f : α → Emission β) : bind (pure a) f = f a := by
  simp [bind, pure]

theorem bind_bind {γ : Type} (m : Emission α) (f : α → Emission β) (g : β → Emission γ) :
    bind (bind m f) g = bind m (fun a => bind (f a) g) := by
  cases m with
  | mk ops events result =>
    cases result with
    | error s => rfl
    | ok a =>
      simp only [bind]
      cases (f a).result <;> simp [List.append_assoc]

instance : LawfulMonad Emission :=
  LawfulMonad.mk' _ (fun m => bind_pure_self m) pure_bind_self bind_bind

end Emission

end WasmLowering
