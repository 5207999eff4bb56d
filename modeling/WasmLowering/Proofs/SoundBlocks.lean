import WasmLowering.Proofs.FirstFailure

/-!
# Blocks whose entries are there

Where every entry of a block is an instruction of the arena and stands there once, the invariants
that are left to be broken are those about operands and arguments. If lowering then stops for want
of a lowering, it stops at an instruction of that kind.
-/

namespace WasmLowering

/-- Every entry of the block is there, and stands there once. The entries can be counted. -/
structure Body.Sound (b : Body) : Prop where
  short : b.code.length < UInt32.size
  present : ∀ i ∈ b.code, (b.get? i).isSome
  distinct : b.code.Nodup

/-! ## Invariants that are left to be broken -/

/-- The invariants about what operands refer to and how arguments are numbered. -/
def Violation.OfUse : Violation → Prop
  | undefinedOperand _ _ | storeTarget _ _ | argumentOrder _ _ | argumentCount _ _ _ => True
  | _ => False

/-- If the computation breaks an invariant, it is one about operands or arguments. -/
def BlamesUse {α : Type} (x : Except Stop α) : Prop := ∀ v, x = .error (.broken v) → v.OfUse

theorem Intact.blamesUse {α : Type} {x : Except Stop α} (h : Intact x) : BlamesUse x :=
  fun v hv => absurd hv (h v)

theorem blamesUse_broken {α : Type} {v : Violation} (h : v.OfUse) :
    BlamesUse (α := α) (.error (.broken v)) := by
  rintro _ hv
  cases hv
  exact h

theorem BlamesUse.bind {α β : Type} {x : Except Stop α} {g : α → Except Stop β}
    (hx : BlamesUse x) (hg : ∀ a, x = .ok a → BlamesUse (g a)) : BlamesUse (x >>= g) := by
  cases x with
  | ok a => exact hg a rfl
  | error s =>
      intro v hv
      cases hv
      exact hx v rfl

namespace Emission

variable {α β : Type} {m : Emission α} {g : α → Emission β}

theorem blamesUse_bind (hm : BlamesUse m.result)
    (hg : ∀ a, m.result = .ok a → BlamesUse (g a).result) : BlamesUse (m >>= g).result := by
  rw [result_bind]
  exact hm.bind hg

theorem blamesUse_pure_bind {a : α} (hm : m.result = .ok a) (hg : BlamesUse (g a).result) :
    BlamesUse (m >>= g).result := by
  rw [result_bind, hm]
  exact hg

end Emission

namespace Scope

variable {s : Scope} {f : Frame} {before after : List InstId} {i : InstId} {inst : Inst}

theorem resolve_cases (s : Scope) (f : Frame) (i : InstId) :
    (∃ v, s.resolve f i = .ok v) ∨ s.resolve f i = .error (.undefinedOperand i s.fn) := by
  unfold resolve
  cases s.body.get? i with
  | none => exact .inr rfl
  | some inst =>
      dsimp only
      split
      · exact .inl ⟨_, rfl⟩
      · cases f.values[i]? with
        | some v => exact .inl ⟨v, rfl⟩
        | none => exact .inr rfl

theorem blamesUse_resolve_bind {α : Type} {g : Operand → Emission α}
    (hg : ∀ v, s.resolve f i = .ok v → BlamesUse (g v).result) :
    BlamesUse (Emission.require (s.resolve f i) >>= g).result := by
  rcases s.resolve_cases f i with ⟨v, hv⟩ | hv
  · rw [hv]
    exact hg v hv
  · rw [hv]
    exact blamesUse_broken trivial

theorem blamesUse_pushOperand (hf : f.Mirrors s.body before after) (i : InstId) :
    BlamesUse (s.pushOperand f i).result :=
  blamesUse_resolve_bind fun _ hv => (intact_push hf hv).blamesUse

theorem blamesUse_pushOperands (hf : f.Mirrors s.body before after) (is : List InstId) :
    BlamesUse (s.pushOperands f is).result := by
  induction is with
  | nil => exact (intact_ok ()).blamesUse
  | cons i is ih => exact Emission.blamesUse_bind (blamesUse_pushOperand hf i) fun _ _ => ih

theorem blamesUse_lowerStore (hf : f.Mirrors s.body before after) (ptr value : InstId) :
    BlamesUse (s.lowerStore f ptr value).result := by
  refine blamesUse_resolve_bind fun target _ => ?_
  refine blamesUse_resolve_bind fun v hv => ?_
  refine Emission.blamesUse_bind (intact_push hf hv).blamesUse fun _ _ => ?_
  cases target with
  | slot n => exact (intact_ok _).blamesUse
  | onStack => exact blamesUse_broken trivial
  | literal i => exact blamesUse_broken trivial
  | block label => exact blamesUse_broken trivial

theorem blamesUse_lowerAdd (hf : f.Mirrors s.body before after) (lhs rhs : InstId) :
    BlamesUse (s.lowerAdd f inst lhs rhs).result := by
  refine blamesUse_resolve_bind fun l hl => ?_
  refine blamesUse_resolve_bind fun r hr => ?_
  refine Emission.blamesUse_bind (intact_push hf hl).blamesUse fun _ _ => ?_
  refine Emission.blamesUse_bind (intact_push hf hr).blamesUse fun _ _ => ?_
  cases inst.ty.valType? with
  | some t => exact (intact_ok _).blamesUse
  | none => exact (intact_failed _).blamesUse

theorem blamesUse_lowerCall (hf : f.Mirrors s.body before after) (callee : InstId)
    (args : List InstId) : BlamesUse (s.lowerCall f inst callee args).result := by
  refine blamesUse_resolve_bind fun v hv => ?_
  cases s.body.callee? callee with
  | some target =>
      exact Emission.blamesUse_bind (blamesUse_pushOperands hf args) fun _ _ =>
        (intact_ok _).blamesUse
  | none =>
      -- the callee has been resolved, so there is an instruction to be named
      obtain ⟨⟨through, ht, -⟩, -⟩ := (resolve_eq_ok hf).mp hv
      rw [Body.inst_eq_ok.mpr ht]
      exact (intact_failed _).blamesUse

theorem intact_takeSlot_of_short (hb : s.body.code.length < UInt32.size)
    (hf : f.Mirrors s.body before (i :: after)) : Intact f.takeSlot.result := by
  have hn : before.length + 1 < UInt32.size := by
    rw [hf.code, List.length_append, List.length_cons] at hb
    omega
  exact intact_takeSlot hf (Nat.lt_of_le_of_lt (Nat.succ_le_succ List.countP_le_length) hn)

/-- The operands of an instruction may refer to anything. -/
theorem blamesUse_lower (hb : s.body.code.length < UInt32.size)
    (hf : f.Mirrors s.body before (i :: after)) (inst : Inst) :
    BlamesUse (s.lower f inst).result := by
  unfold lower
  cases inst.kind with
  | arg index =>
      dsimp only
      split
      · exact (intact_takeSlot_of_short hb hf).blamesUse
      · exact blamesUse_broken trivial
  | alloc => exact (intact_takeSlot_of_short hb hf).blamesUse
  | load ptr =>
      exact Emission.blamesUse_bind (blamesUse_pushOperand hf ptr) fun _ _ => (intact_ok _).blamesUse
  | store ptr value => exact blamesUse_lowerStore hf ptr value
  | add lhs rhs => exact blamesUse_lowerAdd hf lhs rhs
  | call callee args => exact blamesUse_lowerCall hf callee args
  | ret operand =>
      exact Emission.blamesUse_bind (blamesUse_pushOperand hf operand) fun _ _ =>
        (intact_ok _).blamesUse
  | retVoid => exact (intact_ok _).blamesUse
  | dbgStmt line column => exact (intact_ok _).blamesUse
  | _ => exact (intact_failed _).blamesUse

/-- The instruction is there, and it was not lowered before. -/
theorem blamesUse_step (hb : s.body.Sound) (hf : f.Mirrors s.body before (i :: after)) :
    BlamesUse (s.step f i).result := by
  obtain ⟨inst, hi⟩ := Option.isSome_iff_exists.mp (hb.present i (by simp [hf.code]))
  have hm : i ∉ before := Body.notMem_before hb.distinct hf.code
  unfold step
  rw [Body.inst_eq_ok.mpr hi]
  refine Emission.blamesUse_pure_bind rfl ?_
  refine Emission.blamesUse_pure_bind rfl ?_
  refine Emission.blamesUse_bind (blamesUse_lower hb.short hf inst) fun v _ => ?_
  obtain ⟨f', hd⟩ := hf.exists_define hm v
  rw [hd]
  exact (intact_ok f').blamesUse

theorem blamesUse_lowerAll (hb : s.body.Sound) {rest : List InstId}
    (hf : f.Mirrors s.body before rest) : BlamesUse (s.lowerAll f rest).result := by
  induction rest generalizing f before with
  | nil => exact (intact_ok f).blamesUse
  | cons i is ih =>
      refine Emission.blamesUse_bind (blamesUse_step hb hf) fun f' hs => ?_
      exact ih (step_yields hf ⟨rfl, hs⟩).2.2

end Scope

namespace Decl

variable {d : Decl} {b : Body} {slots : Slots}

theorem intact_typed (d : Decl) : Intact d.typed := by
  unfold typed
  cases d.signature? with
  | none => exact intact_failed _
  | some s =>
      dsimp only
      cases s.entry.2 with
      | none => exact intact_ok s
      | some cause => exact intact_failed _

theorem blamesUse_counted (d : Decl) (s : Signature) (hb : b.Sound) :
    BlamesUse (d.counted s b) := by
  refine (Slots.intact_ofBlock hb.present hb.short).blamesUse.bind fun slots _ => ?_
  split
  · exact (intact_ok slots).blamesUse
  · exact blamesUse_broken trivial

/-- A lowered block has taken the slots that were counted for it. -/
theorem blamesUse_lowered (d : Decl) (hb : b.Sound) (hs : Slots.ofBlock b b.code = .ok slots) :
    BlamesUse (d.lowered b slots) := by
  have hl := Scope.blamesUse_lowerAll (s := ⟨d.name, b⟩) hb (Frame.mirrors_empty b)
  refine hl.bind fun frame hf => ?_
  rw [Scope.checkDense_block (s := ⟨d.name, b⟩) hs hf]
  exact (intact_ok _).blamesUse

theorem intact_sized (d : Decl) (id : DeclId) (entry : List UInt8) (slots : Slots)
    (os : List Op) : Intact (d.sized id entry slots os) := by
  simp only [sized]
  split
  · exact intact_ok _
  · exact intact_failed _

theorem blamesUse_generate (id : DeclId) (hb : ∀ b ∈ d.body?, b.Sound) :
    BlamesUse (d.generate id) := by
  refine d.intact_typed.blamesUse.bind fun s _ => ?_
  unfold defined
  cases hd : d.body? with
  | none => exact (intact_failed _).blamesUse
  | some b =>
      refine BlamesUse.bind (intact_ok b).blamesUse fun b' he => ?_
      cases he
      refine (d.blamesUse_counted s (hb b hd)).bind fun slots hs => ?_
      refine (d.blamesUse_lowered (hb b hd) (ofBlock_of_counted hs)).bind fun os _ => ?_
      exact (d.intact_sized id _ slots os).blamesUse

end Decl

/-! ## Instructions without a lowering -/

/-- The kind of instruction that has no lowering. -/
def Cause.tag? : Cause → Option String
  | unimplemented tag => some tag
  | _ => none

theorem Reports.tag?_eq_none {α : Type} {x : Except Stop α} {fs : List Failure} {f : Failure}
    (hx : Reports x fs) (hfs : ∀ f ∈ fs, f.cause.tag? = none) (h : x = .error (.failed f)) :
    f.cause.tag? = none :=
  hfs f (List.mem_of_head? (hx.failed f h))

namespace Body

variable {b : Body} {inst : Inst} {f : Failure} {tag : String}

theorem tag?_literalFailures {i : InstId} (h : f ∈ b.literalFailures i) : f.cause.tag? = none := by
  unfold literalFailures at h
  split at h
  · cases h
  · split at h
    · cases h
    · split at h
      · cases h
      · obtain rfl := List.mem_singleton.mp h
        dsimp only [Literal.refusal]
        split <;> rfl

theorem tag?_calleeFailures {callee : InstId} (h : f ∈ b.calleeFailures inst callee) :
    f.cause.tag? = none := by
  unfold calleeFailures at h
  split at h
  · cases h
  · obtain ⟨through, -, rfl⟩ := List.mem_map.mp h
    rfl

/-- Of all that can fail in an instruction, only its kind is a want of a lowering. -/
theorem eq_unimplemented (h : f ∈ b.loweringFailures inst) (ht : f.cause.tag? = some tag) :
    f = ⟨inst.span, .unimplemented inst.kind.tag⟩ := by
  have hlit : ∀ i, f ∉ b.literalFailures i := by
    intro i hi
    rw [tag?_literalFailures hi] at ht
    cases ht
  unfold loweringFailures at h
  cases hk : inst.kind with
  | load ptr => rw [hk] at h; exact absurd h (hlit ptr)
  | store ptr value => rw [hk] at h; exact absurd h (hlit value)
  | ret operand => rw [hk] at h; exact absurd h (hlit operand)
  | add lhs rhs =>
      simp only [hk, List.mem_append, hlit, false_or] at h
      split at h
      · cases h
      · obtain rfl := List.mem_singleton.mp h
        cases ht
  | call callee args =>
      simp only [hk, List.mem_append, List.mem_flatMap, hlit, and_false, exists_false, or_false] at h
      rw [tag?_calleeFailures h] at ht
      cases ht
  | arg index => simp [hk] at h
  | alloc => simp [hk] at h
  | retVoid => simp [hk] at h
  | dbgStmt line column => simp [hk] at h
  | _ => simpa [hk] using h

end Body

theorem Inst.tag?_slotFailures {inst : Inst} {f : Failure} (h : f ∈ inst.slotFailures) :
    f.cause.tag? = none := by
  unfold slotFailures at h
  split at h
  · split at h
    · obtain rfl := List.mem_singleton.mp h
      rfl
    · split at h
      · cases h
      · obtain rfl := List.mem_singleton.mp h
        rfl
  · cases h

theorem Decl.tag?_typeFailures {d : Decl} {f : Failure} (h : f ∈ d.typeFailures) :
    f.cause.tag? = none := by
  unfold typeFailures at h
  split at h
  · obtain rfl := List.mem_singleton.mp h
    rfl
  · next s _ =>
    obtain ⟨cause, hc, rfl⟩ := List.mem_map.mp h
    unfold Signature.causes at hc
    rcases List.mem_append.mp hc with hc | hc
    · obtain ⟨p, -, rfl⟩ := List.mem_map.mp hc
      rfl
    · split at hc
      · cases hc
      · obtain rfl := List.mem_singleton.mp hc
        rfl

/-- Only the lowering of the block can fail for want of a lowering. -/
theorem Decl.lowerAll_eq_error {id : DeclId} {d : Decl} {f : Failure} {tag : String}
    (h : d.generate id = .error (.failed f)) (ht : f.cause.tag? = some tag) : ∃ b,
      d.body? = some b ∧
        ((Scope.mk d.name b).lowerAll .empty b.code).result = .error (.failed f) := by
  have hne : f.cause.tag? ≠ none := by simp [ht]
  -- all other stages name types or sizes when they fail
  rcases bind_eq_error.mp h with h | ⟨s, -, h⟩
  · exact absurd (d.reports_typed.tag?_eq_none (fun _ => tag?_typeFailures) h) hne
  unfold defined at h
  cases hb : d.body? with
  | none =>
      rw [hb] at h
      cases h
      cases ht
  | some b =>
      rw [hb] at h
      have h : d.generateBody id s b = .error (.failed f) := h
      refine ⟨b, rfl, ?_⟩
      have hslots : ∀ f ∈ (b.code.filterMap b.get?).flatMap Inst.slotFailures,
          f.cause.tag? = none := by
        intro f hf
        obtain ⟨inst, -, hf⟩ := List.mem_flatMap.mp hf
        exact Inst.tag?_slotFailures hf
      rcases bind_eq_error.mp h with h | ⟨slots, -, h⟩
      · exact absurd ((d.reports_counted s b).tag?_eq_none hslots h) hne
      rcases bind_eq_error.mp h with h | ⟨os, -, h⟩
      · rcases bind_eq_error.mp h with h | ⟨frame, -, h⟩
        · exact h
        · cases hd : slots.checkDense d.name frame.slots <;> rw [hd] at h <;> cases h
      · simp only [sized] at h
        split at h <;> cases h
        cases ht

namespace Scope

variable {s : Scope} {f : Frame} {before after rest : List InstId} {i : InstId} {inst : Inst}
  {fl : Failure} {tag : String}

/-- A block that is not lowered to its end stops at one of its instructions. -/
theorem exists_step_eq_error {stop : Stop} (h : (s.lowerAll f rest).result = .error stop) :
    ∃ before i after frame, rest = before ++ i :: after ∧
      (s.lowerAll f before).result = .ok frame ∧ (s.step frame i).result = .error stop := by
  induction rest generalizing f with
  | nil => cases h
  | cons i is ih =>
      rw [lowerAll, Emission.result_bind] at h
      rcases bind_eq_error.mp h with h | ⟨f', hs, h⟩
      · exact ⟨[], i, is, f, rfl, rfl, h⟩
      · obtain ⟨before, j, after, frame, rfl, hb, hj⟩ := ih h
        refine ⟨i :: before, j, after, frame, rfl, ?_, hj⟩
        rw [lowerAll, Emission.result_bind, hs]
        exact hb

/-- An instruction that stops the lowering for want of a lowering is itself of the kind that has
none. -/
theorem eq_unimplemented_of_step (hf : f.Mirrors s.body before after)
    (hi : s.body.get? i = some inst) (h : (s.step f i).result = .error (.failed fl))
    (ht : fl.cause.tag? = some tag) : fl = ⟨inst.span, .unimplemented inst.kind.tag⟩ :=
  Body.eq_unimplemented (List.mem_of_head? ((reports_step hf hi).failed fl h)) ht

end Scope

theorem InstKind.eq_constant_of_tag {k : InstKind} (h : k.tag = "constant") :
    ∃ value, k = .constant value := by
  cases k with
  | constant value => exact ⟨value, rfl⟩
  | cmp op lhs rhs => cases op <;> simp [tag, Comparison.tag] at h
  | _ => simp [tag] at h

end WasmLowering
