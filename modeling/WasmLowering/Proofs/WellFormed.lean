import Mathlib.Tactic.MkIffOfInductiveProp
import WasmLowering.Proofs.SlotOrder

/-!
# Well-formed declarations break no invariant

What the producer of a body promises is a condition on the declaration alone. It makes every check
of an invariant pass, whatever else is wrong with the declaration: generation yields code or fails
at a place of the source.
-/

namespace WasmLowering

/-! ## Promises -/

namespace InstKind

def argument? : InstKind → Option Nat
  | arg index => some index.toNat
  | _ => none

/-- What a store writes to. -/
def target? : InstKind → Option InstId
  | store ptr _ => some ptr
  | _ => none

end InstKind

namespace Body

variable {b : Body} {before after : List InstId} {i : InstId} {inst : Inst}

instance (b : Body) : Decidable b.ArgsFirst := inferInstanceAs (Decidable (List.Pairwise _ _))

/-- What a block promises about its instructions and their operands. -/
@[mk_iff]
structure WellFormed (b : Body) : Prop where
  /-- A block of distinct instructions is no longer than the arena that holds them. -/
  short : b.code.length < UInt32.size
  present : ∀ i ∈ b.code, (b.get? i).isSome
  distinct : b.code.Nodup
  /-- An operand is a literal, or it stands before the instruction. -/
  operands : ∀ before i after, b.code = before ++ i :: after → ∀ inst ∈ b.get? i,
    ∀ o ∈ inst.kind.references, (b.literal? o).isSome ∨ o ∈ before
  /-- The arguments are numbered in the order in which they stand. -/
  order : ∀ before i after, b.code = before ++ i :: after → ∀ inst ∈ b.get? i,
    ∀ n ∈ inst.kind.argument?, n = before.countP b.isArg
  argsFirst : b.ArgsFirst
  targets : ∀ i ∈ b.code, ∀ inst ∈ b.get? i, ∀ ptr ∈ inst.kind.target?,
    b.isArg ptr = true ∨ b.isAlloc ptr = true

instance (b : Body) : Decidable b.WellFormed := decidable_of_iff _ (wellFormed_iff b).symm

/-- What lowering takes for granted of an instruction behind those of `before`. -/
structure Trusts (b : Body) (before : List InstId) (inst : Inst) : Prop where
  operands : ∀ o ∈ inst.kind.references, b.Resolves before o
  order : ∀ index, inst.kind = .arg index → index.toNat = before.countP b.takesSlot
  target : ∀ ptr value, inst.kind = .store ptr value → b.takesSlot ptr = true
  room : inst.kind.takesSlot = true → b.HasRoom before

theorem resolves_iff (hb : ∀ o ∈ before, (b.get? o).isSome) :
    b.Resolves before i ↔ (b.literal? i).isSome ∨ i ∈ before := by
  unfold Resolves literal? InstKind.isConstant
  cases hi : b.get? i with
  | none =>
      have hm : i ∉ before := fun hm => by simpa [hi] using hb i hm
      simp [hm]
  | some inst => cases hl : inst.kind.literal? <;> simp [hl]

namespace WellFormed

theorem countP_lt (h : b.WellFormed) : b.code.countP b.takesSlot < UInt32.size :=
  Nat.lt_of_le_of_lt List.countP_le_length h.short

theorem trusts (h : b.WellFormed) (hc : b.code = before ++ i :: after)
    (hi : b.get? i = some inst) : b.Trusts before inst where
  operands o ho := by
    have hb : ∀ o ∈ before, (b.get? o).isSome := fun o hm => h.present o (by simp [hc, hm])
    exact (resolves_iff hb).mpr (h.operands before i after hc inst hi o ho)
  order index hk := by
    have ha : b.isArg i = true := by simp [isArg_eq hi, hk, InstKind.isArg]
    rw [countP_takesSlot, argsFirst_iff.mp h.argsFirst before i after hc ha]
    exact h.order before i after hc inst hi index.toNat (by simp [hk, InstKind.argument?])
  target ptr value hk := by
    rcases h.targets i (by simp [hc]) inst hi ptr (by simp [hk, InstKind.target?]) with ha | ha
    · exact takesSlot_of_isArg ha
    · exact takesSlot_of_isAlloc ha
  room ht := hasRoom h.countP_lt hc hi ht

end WellFormed

end Body

/-- What the producer of a declaration promises. A function has as many arguments as parameters. -/
@[mk_iff]
structure Decl.WellFormed (d : Decl) : Prop where
  body : ∀ b ∈ d.body?, b.WellFormed
  args : ∀ b ∈ d.body?, ∀ s ∈ d.signature?, b.code.countP b.isArg = s.params.length

instance (d : Decl) : Decidable d.WellFormed := decidable_of_iff _ d.wellFormed_iff.symm

/-! ## Computations that meet no broken invariant -/

def Intact {α : Type} (x : Except Stop α) : Prop := ∀ v, x ≠ .error (.broken v)

theorem intact_ok {α : Type} (a : α) : Intact (.ok a) := nofun

theorem intact_failed {α : Type} (f : Failure) : Intact (α := α) (.error (.failed f)) := nofun

theorem intact_iff {α : Type} {x : Except Stop α} :
    Intact x ↔ (∃ a, x = .ok a) ∨ ∃ f, x = .error (.failed f) := by
  constructor
  · intro h
    cases x with
    | ok a => exact .inl ⟨a, rfl⟩
    | error s =>
        cases s with
        | failed f => exact .inr ⟨f, rfl⟩
        | broken v => exact absurd rfl (h v)
  · rintro (⟨a, rfl⟩ | ⟨f, rfl⟩)
    · exact intact_ok a
    · exact intact_failed f

theorem Intact.error {α β : Type} {s : Stop} (h : Intact (α := α) (.error s)) :
    Intact (α := β) (.error s) :=
  fun v hv => h v (congrArg Except.error (Except.error.inj hv))

theorem Intact.bind {α β : Type} {x : Except Stop α} {f : α → Except Stop β} (hx : Intact x)
    (hf : ∀ a, x = .ok a → Intact (f a)) : Intact (x >>= f) := by
  cases x with
  | ok a => exact hf a rfl
  | error s => exact hx.error

namespace Emission

variable {α β : Type} {m : Emission α} {f : α → Emission β}

theorem result_bind (m : Emission α) (f : α → Emission β) :
    (m >>= f).result = m.result >>= fun a => (f a).result := by
  cases hr : m.result with
  | ok a => rw [bind_of_ok f hr]; rfl
  | error s => rw [bind_of_error f hr]; rfl

theorem intact_bind (hm : Intact m.result) (hf : ∀ a, m.result = .ok a → Intact (f a).result) :
    Intact (m >>= f).result := by
  rw [result_bind]
  exact hm.bind hf

theorem intact_require_bind {x : Except Violation α} {a : α} (hx : x = .ok a)
    (hf : Intact (f a).result) : Intact (require x >>= f).result := by
  subst hx
  exact hf

end Emission

/-! ## Lowering -/

theorem Inst.intact_emitConstant {inst : Inst} {l : Literal} (h : inst.kind.literal? = some l) :
    Intact inst.emitConstant.result := by
  simp only [emitConstant, h]
  cases l.ops inst.ty with
  | ok os => exact intact_ok ()
  | error c => exact intact_failed _

namespace Scope

variable {s : Scope} {f : Frame} {before after : List InstId} {i : InstId} {inst : Inst}

theorem exists_resolve (hf : f.Mirrors s.body before after) (h : s.body.Resolves before i) :
    ∃ v, s.resolve f i = .ok v :=
  ⟨_, (resolve_eq_ok hf).mpr ⟨h, rfl⟩⟩

/-- A value that an operand resolves to is a literal of the arena, a slot or on the stack. -/
theorem intact_push {v : Operand} (hf : f.Mirrors s.body before after)
    (h : s.resolve f i = .ok v) : Intact (s.push v).result := by
  obtain ⟨⟨inst, hi, -⟩, rfl⟩ := (resolve_eq_ok hf).mp h
  split
  · next hl =>
    obtain ⟨l, hl⟩ := Option.isSome_iff_exists.mp hl
    have hk : inst.kind.literal? = some l := by simpa [Body.literal?, hi] using hl
    exact Emission.intact_require_bind (Body.inst_eq_ok.mpr hi) (Inst.intact_emitConstant hk)
  · unfold Body.operandOf
    split
    · exact intact_ok ()
    · exact intact_ok ()

theorem intact_pushOperand (hf : f.Mirrors s.body before after) (h : s.body.Resolves before i) :
    Intact (s.pushOperand f i).result := by
  obtain ⟨v, hv⟩ := exists_resolve hf h
  exact Emission.intact_require_bind hv (intact_push hf hv)

theorem intact_pushOperands (hf : f.Mirrors s.body before after) {is : List InstId}
    (h : ∀ i ∈ is, s.body.Resolves before i) : Intact (s.pushOperands f is).result := by
  induction is with
  | nil => exact intact_ok ()
  | cons i is ih =>
      apply Emission.intact_bind (intact_pushOperand hf (h i (List.mem_cons_self ..)))
      intro _ _
      exact ih fun j hj => h j (List.mem_cons_of_mem _ hj)

theorem intact_lowerStore (hf : f.Mirrors s.body before after) {ptr value : InstId}
    (hp : s.body.Resolves before ptr) (ht : s.body.takesSlot ptr = true)
    (hv : s.body.Resolves before value) : Intact (s.lowerStore f ptr value).result := by
  have hslot : s.resolve f ptr = .ok (.slot (s.body.slotOf ptr)) :=
    (resolve_eq_slot hf).mpr ⟨(Body.resolves_of_takesSlot ht).mp hp, ht, rfl⟩
  obtain ⟨v, hv⟩ := exists_resolve hf hv
  apply Emission.intact_require_bind hslot
  apply Emission.intact_require_bind hv
  apply Emission.intact_bind (intact_push hf hv)
  intro _ _
  exact intact_ok _

theorem intact_lowerAdd (hf : f.Mirrors s.body before after) {lhs rhs : InstId}
    (hl : s.body.Resolves before lhs) (hr : s.body.Resolves before rhs) :
    Intact (s.lowerAdd f inst lhs rhs).result := by
  obtain ⟨l, hl⟩ := exists_resolve hf hl
  obtain ⟨r, hr⟩ := exists_resolve hf hr
  apply Emission.intact_require_bind hl
  apply Emission.intact_require_bind hr
  apply Emission.intact_bind (intact_push hf hl)
  intro _ _
  apply Emission.intact_bind (intact_push hf hr)
  intro _ _
  cases inst.ty.valType? with
  | none => exact intact_failed _
  | some t => exact intact_ok _

theorem intact_lowerCall (hf : f.Mirrors s.body before after) {callee : InstId}
    {args : List InstId} (hc : s.body.Resolves before callee)
    (ha : ∀ i ∈ args, s.body.Resolves before i) :
    Intact (s.lowerCall f inst callee args).result := by
  obtain ⟨v, hv⟩ := exists_resolve hf hc
  obtain ⟨through, ht, -⟩ := hc
  apply Emission.intact_require_bind hv
  cases s.body.callee? callee with
  | none => exact Emission.intact_require_bind (Body.inst_eq_ok.mpr ht) (intact_failed _)
  | some target =>
      apply Emission.intact_bind (intact_pushOperands hf ha)
      intro _ _
      exact intact_ok _

theorem intact_takeSlot (hf : f.Mirrors s.body before after) (h : s.body.HasRoom before) :
    Intact f.takeSlot.result := by
  rw [Body.HasRoom, ← hf.slots] at h
  exact Emission.intact_require_bind (counter_of_lt h) (intact_ok _)

/-- What lowering takes for granted is all that it checks. -/
theorem intact_lower (hf : f.Mirrors s.body before after) (h : s.body.Trusts before inst) :
    Intact (s.lower f inst).result := by
  have ho := h.operands
  unfold lower
  cases hk : inst.kind with
  | arg index =>
      have hx : index.toNat = f.slots := (h.order index hk).trans hf.slots.symm
      simp only [if_pos hx]
      exact intact_takeSlot hf (h.room (by rw [hk]; rfl))
  | alloc => exact intact_takeSlot hf (h.room (by rw [hk]; rfl))
  | load ptr =>
      have hp : s.body.Resolves before ptr := by
        simpa [hk, InstKind.references, InstKind.uses] using ho
      apply Emission.intact_bind (intact_pushOperand hf hp)
      intro _ _
      exact intact_ok _
  | store ptr value =>
      have ho : s.body.Resolves before ptr ∧ s.body.Resolves before value := by
        simpa [hk, InstKind.references, InstKind.uses] using ho
      exact intact_lowerStore hf ho.1 (h.target ptr value hk) ho.2
  | add lhs rhs =>
      have ho : s.body.Resolves before lhs ∧ s.body.Resolves before rhs := by
        simpa [hk, InstKind.references, InstKind.uses] using ho
      exact intact_lowerAdd hf ho.1 ho.2
  | call callee args =>
      have ho : s.body.Resolves before callee ∧ ∀ i ∈ args, s.body.Resolves before i := by
        simpa [hk, InstKind.references] using ho
      exact intact_lowerCall hf ho.1 ho.2
  | ret operand =>
      have hp : s.body.Resolves before operand := by
        simpa [hk, InstKind.references, InstKind.uses] using ho
      apply Emission.intact_bind (intact_pushOperand hf hp)
      intro _ _
      exact intact_ok _
  | retVoid => exact intact_ok _
  | dbgStmt line column => exact intact_ok _
  | _ => exact intact_failed _

/-- An instruction of a well-formed block is lowered, or fails at its own place. -/
theorem intact_step (hw : s.body.WellFormed) (hf : f.Mirrors s.body before (i :: after)) :
    Intact (s.step f i).result := by
  obtain ⟨inst, hi⟩ := Option.isSome_iff_exists.mp (hw.present i (by simp [hf.code]))
  have hm : i ∉ before := Body.notMem_before hw.distinct hf.code
  apply Emission.intact_require_bind (Body.inst_eq_ok.mpr hi)
  apply Emission.intact_bind (intact_ok ())
  intro _ _
  apply Emission.intact_bind (intact_lower hf (hw.trusts hf.code hi))
  intro v _
  obtain ⟨f', hd⟩ := hf.exists_define hm v
  rw [hd]
  exact intact_ok f'

theorem intact_lowerAll (hw : s.body.WellFormed) {rest : List InstId}
    (hf : f.Mirrors s.body before rest) : Intact (s.lowerAll f rest).result := by
  induction rest generalizing f before with
  | nil => exact intact_ok f
  | cons i is ih =>
      apply Emission.intact_bind (intact_step hw hf)
      intro f' hs
      exact ih (step_yields hf ⟨rfl, hs⟩).2.2

/-- The slots that the first instructions of a block take are counted in 32 bits. -/
theorem slots_lt {frame : Frame} (hb : s.body.code.length < UInt32.size)
    (hc : s.body.code = before ++ after)
    (h : (s.lowerAll .empty before).result = .ok frame) : frame.slots < UInt32.size := by
  obtain ⟨-, hf, -⟩ := lowerAll_front_yields hc ⟨rfl, h⟩
  calc frame.slots = before.countP s.body.takesSlot := hf.slots
    _ ≤ before.length := List.countP_le_length
    _ ≤ s.body.code.length := by simp [hc]
    _ < UInt32.size := hb

end Scope

/-! ## Slots -/

namespace Slots

variable {b : Body}

theorem intact_ofRest {n : Nat} {is : List InstId} (h : ∀ i ∈ is, (b.get? i).isSome)
    (hn : n + is.length < UInt32.size) : Intact (ofRest b n is) := by
  induction is generalizing n with
  | nil => exact intact_ok _
  | cons i is ih =>
      obtain ⟨inst, hi⟩ := Option.isSome_iff_exists.mp (h i (List.mem_cons_self ..))
      have ih := fun {n} => @ih n fun j hj => h j (List.mem_cons_of_mem _ hj)
      rw [List.length_cons] at hn
      simp only [ofRest, Body.inst_eq_ok.mpr hi, Except.mapError]
      apply Intact.bind (intact_ok inst)
      intro inst' _
      cases inst'.kind with
      | alloc =>
          simp only
          apply Intact.bind
          · cases inst'.slotType with
            | ok t => exact intact_ok t
            | error f => exact intact_failed f
          · intro t _
            exact (ih (by omega)).bind fun rest _ => intact_ok _
      | arg index =>
          simp only [counter_of_lt (show n + 1 < UInt32.size by omega)]
          exact ih (by omega)
      | _ => exact ih (by omega)

/-- With all instructions there, counting fails at most at a stack slot without a value type. -/
theorem intact_ofBlock {is : List InstId} (h : ∀ i ∈ is, (b.get? i).isSome)
    (hn : is.length < UInt32.size) : Intact (ofBlock b is) :=
  intact_ofRest h (by rwa [Nat.zero_add])

theorem total_lt {slots : Slots} (hb : b.code.length < UInt32.size)
    (h : ofBlock b b.code = .ok slots) : slots.total < UInt32.size := by
  have hn : b.code.countP b.takesSlot < UInt32.size :=
    Nat.lt_of_le_of_lt List.countP_le_length hb
  rwa [total_ofBlock h hn]

end Slots

/-! ## Functions -/

namespace Context

variable {c : Context} {b : Body} {slots : Slots}

theorem intact_fail (c : Context) (cause : Cause) : Intact (c.fail cause).2 :=
  intact_failed _

theorem intact_stop {α : Type} {s : Stop} (h : Intact (α := α) (.error s)) :
    Intact (c.stop s).2 := by
  cases s with
  | failed f => exact intact_failed f
  | broken v => exact absurd rfl (h v)

theorem intact_generateType (c : Context) : Intact c.generateType.2 := by
  unfold generateType
  split
  · exact c.intact_fail _
  · next s _ =>
    cases s.entry.2 with
    | none => exact intact_ok ()
    | some cause => exact intact_fail _ cause

theorem ofBlock_of_slots (h : c.slots b = .ok slots) : Slots.ofBlock b b.code = .ok slots := by
  obtain ⟨slots', ho, hs⟩ := bind_eq_ok.mp h
  split at hs
  · split at hs
    · cases hs; exact ho
    · cases hs
  · cases hs; exact ho

theorem intact_slots (hb : b.WellFormed)
    (ha : ∀ s ∈ c.decl.signature?, b.code.countP b.isArg = s.params.length) :
    Intact (c.slots b) := by
  apply Intact.bind (Slots.intact_ofBlock hb.present hb.short)
  intro slots hs
  cases hd : c.decl.signature? with
  | none => exact intact_ok slots
  | some s =>
      have hn : slots.args = s.params.length := by rw [Slots.args_ofBlock hs, ha s hd]
      simp only [if_pos hn]
      exact intact_ok slots

theorem intact_writeSize (c : Context) (slots : Slots) : Intact (c.writeSize slots).2 := by
  simp only [writeSize]
  split
  · exact intact_ok ()
  · exact c.intact_fail _

/-- A lowered block has taken the slots that were counted for it. -/
theorem intact_generateBlock (hb : b.WellFormed) (hs : Slots.ofBlock b b.code = .ok slots) :
    Intact (c.generateBlock b slots).2 := by
  have hl : Intact ((Scope.mk c.decl.name b).lowerAll .empty b.code).result :=
    Scope.intact_lowerAll hb (Frame.mirrors_empty b)
  unfold generateBlock
  cases hr : ((Scope.mk c.decl.name b).lowerAll .empty b.code).result with
  | error s =>
      rw [hr] at hl
      simp only [hr]
      exact intact_stop hl
  | ok frame =>
      have hd := Scope.checkDense_block (s := ⟨c.decl.name, b⟩) hs hr
      simp only [hr, hd]
      exact intact_writeSize _ slots

theorem intact_generateBody (hd : c.decl.WellFormed) (hc : c.code = []) :
    Intact c.generateBody.2 := by
  unfold generateBody
  rw [if_neg (by simp [hc])]
  split
  · exact c.intact_fail _
  · next b hb =>
    have hs := intact_slots (c := { c with code := List.replicate paddedWidth 0 })
      (hd.body b hb) (hd.args b hb)
    cases he : ({ c with code := List.replicate paddedWidth 0 } : Context).slots b with
    | error s =>
        rw [he] at hs
        simp only [he]
        exact intact_stop hs
    | ok slots =>
        simp only [he]
        exact intact_generateBlock (hd.body b hb) (ofBlock_of_slots he)

/-- Writing the type leaves the code buffer empty. -/
theorem generateType_code (c : Context) :
    c.generateType.1.decl = c.decl ∧ c.generateType.1.code = c.code := by
  unfold generateType
  split
  · exact ⟨rfl, rfl⟩
  · next s _ => cases s.entry.2 <;> exact ⟨rfl, rfl⟩

theorem intact_generate {id : DeclId} {d : Decl} (hd : d.WellFormed) :
    Intact (new id d).generate.2 := by
  have ht := (new id d).intact_generateType
  have hk := (new id d).generateType_code
  unfold generate
  split
  · next c h =>
    rw [h] at hk
    exact intact_generateBody (hk.1 ▸ hd) hk.2
  · exact ht

end Context

theorem intact_generateFunction {id : DeclId} {d : Decl} (hd : d.WellFormed) :
    Intact (generateFunction id d) := by
  have hg : Intact (Context.new id d).generate.2 := Context.intact_generate hd
  unfold generateFunction
  split
  · next c h => exact intact_ok _
  · next c s h =>
    rw [h] at hg
    exact hg.error

/-- The size of generated code is written over a slot of the right width. -/
theorem Generates.overwrite {id : DeclId} {d : Decl} {s : Signature} {b : Body} {slots : Slots}
    {fc : FunctionCode} (hg : Generates id d s b slots fc) :
    Leb.overwrite (List.replicate paddedWidth 0) (b.linkedSize slots)
      = .ok (fc.body.take paddedWidth) := by
  have ht : fc.body.take paddedWidth = Leb.padded paddedWidth (b.linkedSize slots) := by
    rw [hg.code, List.append_assoc]
    exact List.take_left' (Leb.length_padded ..)
  rw [ht, Leb.overwrite, if_pos List.length_replicate]

/-- A well-formed declaration, supported or not, is generated or fails at a place of the source.
No check of an invariant stops it: the size fills its slot, and all counts of slots fit 32 bits. -/
theorem generateFunction_of_wellFormed {id : DeclId} {d : Decl} (h : d.WellFormed) :
    ((∃ fc, generateFunction id d = .ok fc) ∨ ∃ f, generateFunction id d = .error (.failed f)) ∧
      (∀ v, generateFunction id d ≠ .error (.broken v)) ∧
      (∀ fc, generateFunction id d = .ok fc → ∃ n,
        Leb.overwrite (List.replicate paddedWidth 0) n = .ok (fc.body.take paddedWidth)) ∧
      ∀ b, d.body? = some b →
        (∀ before after frame, b.code = before ++ after →
          ((Scope.mk d.name b).lowerAll .empty before).result = .ok frame →
          frame.slots < UInt32.size) ∧
        ∀ slots, Slots.ofBlock b b.code = .ok slots → slots.total < UInt32.size := by
  have hi : Intact (generateFunction id d) := intact_generateFunction h
  refine ⟨intact_iff.mp hi, hi, ?_, ?_⟩
  · intro fc hfc
    obtain ⟨s, b, slots, hg⟩ := generateFunction_eq_ok_iff.mp hfc
    exact ⟨_, hg.overwrite⟩
  · intro b hb
    have hs := (h.body b hb).short
    exact ⟨fun before after frame hc hf => Scope.slots_lt hs hc hf,
      fun slots ho => Slots.total_lt hs ho⟩

/-! ## A function with a product -/

/-- Stores its argument, and returns a product, which has no lowering. -/
def Body.scaled : Body where
  insts := #[
    ⟨.int true 32, .arg 0, .synthetic⟩,
    ⟨.ptr (.int true 32), .alloc, .synthetic⟩,
    ⟨.void, .store ⟨1⟩ ⟨0⟩, .synthetic⟩,
    ⟨.int true 32, .load ⟨1⟩, .synthetic⟩,
    ⟨.int true 32, .constant (.int 3), .synthetic⟩,
    ⟨.int true 32, .mul ⟨3⟩ ⟨4⟩, .synthetic⟩,
    ⟨.noReturn, .ret ⟨5⟩, .synthetic⟩]
  code := [⟨0⟩, ⟨1⟩, ⟨2⟩, ⟨3⟩, ⟨5⟩, ⟨6⟩]

def Decl.scaled : Decl := .function "scaled" ⟨[.int true 32], .int true 32⟩ .scaled

theorem generateFunction_of_wellFormed_scaled :
    Decl.scaled.WellFormed ∧ ∃ f, generateFunction ⟨2⟩ .scaled = .error (.failed f) := by
  have hw : Decl.scaled.WellFormed := by decide
  refine ⟨hw, (generateFunction_of_wellFormed hw).1.resolve_left ?_⟩
  rintro ⟨fc, h⟩
  obtain ⟨s, b, slots, hg⟩ := generateFunction_eq_ok_iff.mp h
  obtain rfl : Body.scaled = b := Option.some.inj hg.body
  have hc : Body.scaled.code = [⟨0⟩, ⟨1⟩, ⟨2⟩, ⟨3⟩] ++ ⟨5⟩ :: [⟨6⟩] := rfl
  obtain ⟨inst, hi, -, hl⟩ := hg.lowerable.lowersAt hc
  cases hi
  exact hl

end WasmLowering
