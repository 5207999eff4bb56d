import WasmLowering.Codegen.Constant

/-!
# What an emission yields

A computation that runs to its end is known by the operations it wrote and by its result; a sequence
of steps comes apart into its steps.
-/

namespace WasmLowering.Emission

variable {α β : Type}

/-- The computation writes exactly `os` and ends with `a`. -/
def Yields (m : Emission α) (os : List Op) (a : α) : Prop := m.ops = os ∧ m.result = .ok a

@[simp] theorem yields_pure {a b : α} {os : List Op} :
    (pure a : Emission α).Yields os b ↔ os = [] ∧ b = a := by
  simp [Yields, pure, eq_comm]

@[simp] theorem yields_op {o : Op} {os : List Op} {u : Unit} :
    (op o).Yields os u ↔ os = [o] := by
  simp [Yields, op, eq_comm]

@[simp] theorem yields_event {e : Event} {os : List Op} {u : Unit} :
    (event e).Yields os u ↔ os = [] := by
  simp [Yields, event, eq_comm]

@[simp] theorem not_yields_fail {f : Failure} {os : List Op} {a : α} :
    ¬(fail f : Emission α).Yields os a := by
  simp [Yields, fail]

@[simp] theorem not_yields_broken {v : Violation} {os : List Op} {a : α} :
    ¬(broken v : Emission α).Yields os a := by
  simp [Yields, broken]

@[simp] theorem yields_require {x : Except Violation α} {os : List Op} {a : α} :
    (require x).Yields os a ↔ os = [] ∧ x = .ok a := by
  cases x <;> simp [require, eq_comm]

@[simp] theorem yields_bind {m : Emission α} {f : α → Emission β} {os : List Op} {b : β} :
    (m >>= f).Yields os b ↔ ∃ os₁ a os₂, m.Yields os₁ a ∧ (f a).Yields os₂ b ∧ os = os₁ ++ os₂ := by
  constructor
  · rintro ⟨rfl, hr⟩
    cases hm : m.result with
    | error s => rw [bind_of_error f hm] at hr; cases hr
    | ok a =>
        rw [bind_of_ok f hm] at hr ⊢
        exact ⟨m.ops, a, (f a).ops, ⟨rfl, hm⟩, ⟨rfl, hr⟩, rfl⟩
  · rintro ⟨_, a, _, ⟨rfl, hm⟩, ⟨rfl, hr⟩, rfl⟩
    rw [bind_of_ok f hm]
    exact ⟨rfl, hr⟩

theorem yields_require_bind {x : Except Violation α} {f : α → Emission β} {os : List Op} {b : β} :
    (require x >>= f).Yields os b ↔ ∃ a, x = .ok a ∧ (f a).Yields os b := by
  simp [and_assoc]

theorem yields_op_pure {o : Op} {a b : α} {os : List Op} :
    (op o >>= fun _ => (pure a : Emission α)).Yields os b ↔ os = [o] ∧ b = a := by
  simp only [yields_bind, yields_op, yields_pure]
  constructor
  · rintro ⟨_, _, _, rfl, ⟨rfl, rfl⟩, rfl⟩
    exact ⟨rfl, rfl⟩
  · rintro ⟨rfl, rfl⟩
    exact ⟨[o], (), [], rfl, ⟨rfl, rfl⟩, rfl⟩

end WasmLowering.Emission

namespace WasmLowering

theorem Inst.emitConstant_yields {inst : Inst} {os : List Op} {u : Unit} :
    inst.emitConstant.Yields os u ↔
      ∃ l, inst.kind.literal? = some l ∧ l.ops inst.ty = .ok os := by
  unfold Inst.emitConstant
  split
  · next hl => simp [hl]
  · next l hl =>
    split
    · next he => simp [Emission.Yields, hl, he]
    · next he => simp [hl, he]

end WasmLowering
