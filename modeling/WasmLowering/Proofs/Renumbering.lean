import WasmLowering.Proofs.Lockstep

/-!
# Ids are only names

The ids of an arena say which instruction is meant and nothing else: what is generated does not
change when the instructions get other ids.
-/

namespace WasmLowering

variable {σ : InstId → InstId}

/-- All ids of the block and of the operands that are lowered lie in the arena. -/
structure Body.Closed (b : Body) : Prop where
  code : ∀ i ∈ b.code, (b.get? i).isSome
  operands : ∀ i ∈ b.code, ∀ inst ∈ b.get? i, ∀ o ∈ inst.kind.references, (b.get? o).isSome

/-- The instructions of `b` stand in `b'` as well, under the ids that `σ` gives them. There may be
others that the block does not refer to. -/
structure Body.Renumbers (σ : InstId → InstId) (b b' : Body) : Prop where
  injective : ∀ i j, (b.get? i).isSome → (b.get? j).isSome → σ i = σ j → i = j
  insts : ∀ i inst, b.get? i = some inst → b'.get? (σ i) = some (inst.rename σ)
  code : b'.code = b.code.map σ

theorem Body.Renumbers.matches {b b' : Body} (h : b.Renumbers σ b') :
    b.Matches (fun i => (b.get? i).isSome) σ b' where
  injective := h.injective
  inst i hi := by
    obtain ⟨inst, hg⟩ := Option.isSome_iff_exists.mp hi
    rw [Body.inst_eq_ok.mpr hg, Body.inst_eq_ok.mpr (h.insts i inst hg)]
    rfl

theorem alike_generateFunction (id : DeclId) {d : Decl} {b b' : Body} (hb : d.body? = some b)
    (hc : b.Closed) (hr : b.Renumbers σ b') :
    Alike σ Eq (generateFunction id d) (generateFunction id { d with body? := some b' }) := by
  rw [generateFunction_eq, generateFunction_eq]
  refine Decl.alike_generate id hb ?slots ?block
  case slots =>
    rw [hr.code]
    exact Slots.alike_ofBlock hr.matches hc.code
  case block =>
    rw [hr.code]
    have h := Scope.alike_lowerAll d.name hr.matches Frame.matches_empty hc.code hc.operands
    exact ⟨h.ops, h.result.mono fun _ _ hf => hf.slots⟩

/-- New ids change nothing in what is generated or reported; a violation is the same one, with the
new ids in it. -/
theorem generateFunction_renumber {id : DeclId} {d : Decl} {b b' : Body} (hb : d.body? = some b)
    (hc : b.Closed) (hr : b.Renumbers σ b') :
    (∀ fc, generateFunction id { d with body? := some b' } = .ok fc ↔
      generateFunction id d = .ok fc) ∧
    (∀ f, generateFunction id { d with body? := some b' } = .error (.failed f) ↔
      generateFunction id d = .error (.failed f)) ∧
    ∀ v', generateFunction id { d with body? := some b' } = .error (.broken v') ↔
      ∃ v, generateFunction id d = .error (.broken v) ∧ v' = v.rename σ := by
  have h := alike_generateFunction id hb hc hr
  generalize generateFunction id d = x at h ⊢
  generalize generateFunction id { d with body? := some b' } = x' at h ⊢
  cases h with
  | ok h => exact ⟨fun fc => by rw [h], by simp, by simp⟩
  | failed f => exact ⟨by simp, fun _ => Iff.rfl, by simp⟩
  | broken v => exact ⟨by simp, by simp, by simp [eq_comm]⟩

/-- The instructions of `Body.settle` from the last to the first, behind one that nothing refers
to. -/
def Body.settleBackwards : Body where
  insts := #[
    ⟨.void, .unreach, .synthetic⟩,
    ⟨.noReturn, .ret ⟨2⟩, .synthetic⟩,
    ⟨.int true 32, .call ⟨3⟩ [⟨4⟩, ⟨9⟩], .synthetic⟩,
    ⟨.fn [.int true 32, .int true 32] (.int true 32), .constant (.function ⟨7⟩), .synthetic⟩,
    ⟨.int true 32, .add ⟨6⟩ ⟨5⟩, .synthetic⟩,
    ⟨.int true 32, .constant (.int 2), .synthetic⟩,
    ⟨.int true 32, .load ⟨8⟩, .synthetic⟩,
    ⟨.void, .store ⟨8⟩ ⟨9⟩, .synthetic⟩,
    ⟨.ptr (.int true 32), .alloc, .synthetic⟩,
    ⟨.int true 32, .arg 0, .synthetic⟩]
  code := [⟨9⟩, ⟨8⟩, ⟨7⟩, ⟨6⟩, ⟨4⟩, ⟨2⟩, ⟨1⟩]

theorem Body.closed_settle : Body.settle.Closed := ⟨by decide, by decide⟩

theorem Body.renumbers_settle :
    Body.settle.Renumbers (fun i => ⟨9 - i.index⟩) .settleBackwards where
  injective i j _ _ h := by
    obtain ⟨i⟩ := i
    obtain ⟨j⟩ := j
    simpa using h
  insts i inst h := by
    obtain ⟨n⟩ := i
    have hn : n.toNat < 9 := (Array.getElem?_eq_some_iff.mp h).1
    obtain ⟨k, rfl⟩ : ∃ k : Fin 9, n = UInt32.ofNat k := ⟨⟨n.toNat, hn⟩, by simp⟩
    have hk : settleBackwards.get? ⟨9 - UInt32.ofNat k⟩
        = (settle.get? ⟨UInt32.ofNat k⟩).map (Inst.rename fun i => ⟨9 - i.index⟩) := by
      match k with
      | 0 | 1 | 2 | 3 | 4 | 5 | 6 | 7 | 8 => rfl
    exact hk.trans (congrArg (Option.map _) h)
  code := by decide

theorem generateFunction_renumber_settle :
    Body.settle.Closed ∧ Body.settle.Renumbers (fun i => ⟨9 - i.index⟩) .settleBackwards ∧
      ∃ fc, generateFunction ⟨0⟩ .settle = .ok fc ∧
        generateFunction ⟨0⟩ { Decl.settle with body? := some .settleBackwards } = .ok fc := by
  have hc := Body.closed_settle
  have hr := Body.renumbers_settle
  obtain ⟨fc, hg⟩ := exists_generates_settle ⟨0⟩
  have ho := generateFunction_eq_ok_iff.mpr ⟨_, _, _, hg⟩
  exact ⟨hc, hr, fc, ho, ((generateFunction_renumber rfl hc hr).1 fc).mpr ho⟩

end WasmLowering
