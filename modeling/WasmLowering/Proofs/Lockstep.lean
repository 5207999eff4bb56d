import WasmLowering.Proofs.Acceptance
import WasmLowering.Proofs.Stages

/-!
# Two runs in step

A body is compared with one that has the same instructions under other ids. Both blocks are lowered
instruction by instruction, and the frames hold the same values under the ids of either arena; so
the same operations are written, and generation ends in the same way.
-/

namespace WasmLowering

/-! ## New ids -/

def InstKind.rename (σ : InstId → InstId) : InstKind → InstKind
  | constant l => constant l
  | arg index => arg index
  | alloc => alloc
  | load ptr => load (σ ptr)
  | store ptr value => store (σ ptr) (σ value)
  | add lhs rhs => add (σ lhs) (σ rhs)
  | sub lhs rhs => sub (σ lhs) (σ rhs)
  | mul lhs rhs => mul (σ lhs) (σ rhs)
  | cmp op lhs rhs => cmp op (σ lhs) (σ rhs)
  | call callee args => call (σ callee) (args.map σ)
  | ret operand => ret (σ operand)
  | retVoid => retVoid
  | dbgStmt line column => dbgStmt line column
  | block body => block (body.map σ)
  | br target operand => br (σ target) (σ operand)
  | condBr condition thenBody elseBody =>
    condBr (σ condition) (thenBody.map σ) (elseBody.map σ)
  | unreach => unreach
  | bitCast operand => bitCast (σ operand)
  | intCast operand => intCast (σ operand)

def Inst.rename (σ : InstId → InstId) (inst : Inst) : Inst :=
  { inst with kind := inst.kind.rename σ }

def Operand.rename (σ : InstId → InstId) : Operand → Operand
  | literal i => literal (σ i)
  | v => v

def Violation.rename (σ : InstId → InstId) : Violation → Violation
  | undefinedOperand i fn => undefinedOperand (σ i) fn
  | storeTarget v fn => storeTarget (v.rename σ) fn
  | loweredTwice i => loweredTwice (σ i)
  | v => v

variable {σ : InstId → InstId} {D : InstId → Prop}

@[simp] theorem InstKind.tag_rename (k : InstKind) : (k.rename σ).tag = k.tag := by
  cases k <;> rfl

@[simp] theorem InstKind.literal?_rename (k : InstKind) : (k.rename σ).literal? = k.literal? := by
  cases k <;> rfl

@[simp] theorem InstKind.isConstant_rename (k : InstKind) :
    (k.rename σ).isConstant = k.isConstant :=
  congrArg Option.isSome k.literal?_rename

@[simp] theorem Inst.kind_rename (inst : Inst) : (inst.rename σ).kind = inst.kind.rename σ := rfl

@[simp] theorem Inst.ty_rename (inst : Inst) : (inst.rename σ).ty = inst.ty := rfl

@[simp] theorem Inst.slotType_rename (inst : Inst) : (inst.rename σ).slotType = inst.slotType := rfl

/-! ## Computations that end alike -/

/-- Both computations end with related values, or with the same failure, or they break the same
invariant, the ids apart. -/
inductive Alike {α β : Type} (σ : InstId → InstId) (R : α → β → Prop) :
    Except Stop α → Except Stop β → Prop
  | ok {a : α} {b : β} : R a b → Alike σ R (.ok a) (.ok b)
  | failed (f : Failure) : Alike σ R (.error (.failed f)) (.error (.failed f))
  | broken (v : Violation) : Alike σ R (.error (.broken v)) (.error (.broken (v.rename σ)))

section

variable {α β α' β' : Type} {R : α → α' → Prop} {Q : β → β' → Prop}

theorem Alike.bind {x : Except Stop α} {x' : Except Stop α'} {g : α → Except Stop β}
    {g' : α' → Except Stop β'} (hx : Alike σ R x x')
    (hg : ∀ a a', R a a' → Alike σ Q (g a) (g' a')) : Alike σ Q (x >>= g) (x' >>= g') := by
  cases hx with
  | ok h => exact hg _ _ h
  | failed f => exact .failed f
  | broken v => exact .broken v

theorem Alike.mono {R R' : α → α' → Prop} {x : Except Stop α} {x' : Except Stop α'}
    (hx : Alike σ R x x') (hr : ∀ a a', R a a' → R' a a') : Alike σ R' x x' := by
  cases hx with
  | ok h => exact .ok (hr _ _ h)
  | failed f => exact .failed f
  | broken v => exact .broken v

theorem alike_counter (n : Nat) :
    Alike σ Eq ((counter n).mapError Stop.broken) ((counter n).mapError .broken) := by
  unfold counter
  split
  · exact .ok rfl
  · exact .broken .counterOverflow

/-- The same operations are written, and both computations end alike. -/
structure Emission.Alike (σ : InstId → InstId) (R : α → α' → Prop) (m : Emission α)
    (m' : Emission α') : Prop where
  ops : m'.ops = m.ops
  result : WasmLowering.Alike σ R m.result m'.result

namespace Emission.Alike

variable {m : Emission α} {m' : Emission α'} {g : α → Emission β} {g' : α' → Emission β'}

theorem pure {a : α} {a' : α'} (h : R a a') :
    Alike σ R (pure a : Emission α) (Pure.pure a') :=
  ⟨rfl, .ok h⟩

theorem bind (hm : Alike σ R m m')
    (hg : ∀ a a', m.result = .ok a → R a a' → Alike σ Q (g a) (g' a')) :
    Alike σ Q (m >>= g) (m' >>= g') := by
  obtain ⟨ops, events, result⟩ := m
  obtain ⟨ops', events', result'⟩ := m'
  obtain ⟨ho, hr⟩ := hm
  dsimp only at ho hr
  subst ho
  cases hr with
  | ok h =>
      obtain ⟨hops, hres⟩ := hg _ _ rfl h
      exact ⟨congrArg (ops' ++ ·) hops, hres⟩
  | failed f => exact ⟨rfl, .failed f⟩
  | broken v => exact ⟨rfl, .broken v⟩

end Emission.Alike

end

/-! ## Frames that hold the same values -/

/-- The ids in `D` mean the same in `b` as their new ids do in `b'`. Only these ids are ever
compared. -/
structure Body.Matches (D : InstId → Prop) (σ : InstId → InstId) (b b' : Body) : Prop where
  injective : ∀ i j, D i → D j → σ i = σ j → i = j
  inst : ∀ i, D i → b'.inst (σ i) = (b.inst i).map (Inst.rename σ)

/-- The values of the ids in `D` are those of their new ids. No literal is among them. -/
structure Frame.Matches (D : InstId → Prop) (σ : InstId → InstId) (f f' : Frame) : Prop where
  slots : f'.slots = f.slots
  values : ∀ i, D i → f'.values[σ i]? = f.values[i]?
  noLiteral : ∀ i j : InstId, f.values[i]? ≠ some (.literal j)

def Operand.Matches (D : InstId → Prop) (σ : InstId → InstId) (v v' : Operand) : Prop :=
  v' = v.rename σ ∧ ∀ i, v = .literal i → D i

/-- What an instruction leaves for later ones: a slot, or nothing. -/
def Operand.Left (v v' : Operand) : Prop := v' = v ∧ ∀ i, v ≠ .literal i

theorem Operand.Left.onStack : Left .onStack .onStack := ⟨rfl, nofun⟩

theorem Operand.Left.slot {n : Nat} : Left (.slot n) (.slot n) := ⟨rfl, nofun⟩

theorem Operand.Left.matches {v v' : Operand} (h : v.Left v') : v.Matches D σ v' := by
  obtain ⟨rfl, hn⟩ := h
  refine ⟨?_, fun i hi => absurd hi (hn i)⟩
  cases v' with
  | literal i => exact absurd rfl (hn i)
  | _ => rfl

namespace Body.Matches

variable {b b' : Body} {i : InstId}

theorem get? (h : b.Matches D σ b') (hi : D i) :
    b'.get? (σ i) = (b.get? i).map (Inst.rename σ) := by
  have hx := h.inst i hi
  unfold Body.inst at hx
  cases hb : b.get? i <;> cases hb' : b'.get? (σ i) <;> simp_all [Except.map]

theorem literal? (h : b.Matches D σ b') (hi : D i) : b'.literal? (σ i) = b.literal? i := by
  unfold Body.literal?
  rw [h.get? hi]
  cases b.get? i with
  | none => rfl
  | some inst => exact inst.kind.literal?_rename

theorem callee? (h : b.Matches D σ b') (hi : D i) : b'.callee? (σ i) = b.callee? i := by
  unfold Body.callee?
  rw [h.literal? hi]

end Body.Matches

theorem Frame.matches_empty : Frame.empty.Matches D σ .empty where
  slots := rfl
  values i _ := by simp [empty]
  noLiteral i j := by simp [empty]

/-! ## Instructions -/

theorem Inst.alike_emitConstant (inst : Inst) : Emission.Alike σ (fun _ _ => True)
    inst.emitConstant (inst.rename σ).emitConstant := by
  unfold emitConstant
  simp only [kind_rename, ty_rename, InstKind.literal?_rename, InstKind.tag_rename]
  split
  · exact ⟨rfl, .broken _⟩
  · split
    · exact ⟨rfl, .ok trivial⟩
    · exact ⟨rfl, .failed _⟩

namespace Scope

variable {fn : String} {b b' : Body} {f f' : Frame} {i : InstId}

theorem alike_inst (hb : b.Matches D σ b') (hi : D i) :
    Emission.Alike σ (fun inst inst' => b.get? i = some inst ∧ inst' = inst.rename σ)
      (.require (b.inst i)) (.require (b'.inst (σ i))) := by
  rw [hb.inst i hi]
  unfold Body.inst
  cases b.get? i with
  | some inst => exact .pure ⟨rfl, rfl⟩
  | none => exact ⟨rfl, .broken _⟩

theorem alike_resolve (hb : b.Matches D σ b') (hf : f.Matches D σ f') (hi : D i) :
    Emission.Alike σ (Operand.Matches D σ) (.require ((Scope.mk fn b).resolve f i))
      (.require ((Scope.mk fn b').resolve f' (σ i))) := by
  unfold resolve
  simp only [hb.get? hi, hf.values i hi]
  cases b.get? i with
  | none => exact ⟨rfl, .broken _⟩
  | some inst =>
      simp only [Option.map_some, Inst.kind_rename, InstKind.isConstant_rename]
      by_cases hc : inst.kind.isConstant = true
      · rw [if_pos hc, if_pos hc]
        exact .pure ⟨rfl, fun j hj => by cases hj; exact hi⟩
      · rw [if_neg hc, if_neg hc]
        cases hv : f.values[i]? with
        | none => exact ⟨rfl, .broken _⟩
        | some v => exact .pure (Operand.Left.matches ⟨rfl, fun j hj => hf.noLiteral i j (hj ▸ hv)⟩)

theorem alike_push {v v' : Operand} (hb : b.Matches D σ b') (hv : v.Matches D σ v') :
    Emission.Alike σ (fun _ _ => True) ((Scope.mk fn b).push v) ((Scope.mk fn b').push v') := by
  obtain ⟨rfl, hv⟩ := hv
  cases v with
  | onStack => exact .pure trivial
  | slot n => exact ⟨rfl, .ok trivial⟩
  | literal i =>
      refine (alike_inst hb (hv i rfl)).bind fun inst inst' _ h => ?_
      obtain ⟨-, rfl⟩ := h
      exact inst.alike_emitConstant
  | block label => exact .pure trivial

theorem alike_pushOperand (hb : b.Matches D σ b') (hf : f.Matches D σ f') (hi : D i) :
    Emission.Alike σ (fun _ _ => True) ((Scope.mk fn b).pushOperand f i)
      ((Scope.mk fn b').pushOperand f' (σ i)) :=
  (alike_resolve hb hf hi).bind fun _ _ _ hv => alike_push hb hv

theorem alike_pushOperands (hb : b.Matches D σ b') (hf : f.Matches D σ f') {is : List InstId}
    (hi : ∀ i ∈ is, D i) : Emission.Alike σ (fun _ _ => True) ((Scope.mk fn b).pushOperands f is)
      ((Scope.mk fn b').pushOperands f' (is.map σ)) := by
  induction is with
  | nil => exact .pure trivial
  | cons i is ih =>
      refine (alike_pushOperand hb hf (hi i List.mem_cons_self)).bind fun _ _ _ _ => ?_
      exact ih fun j hj => hi j (List.mem_cons_of_mem _ hj)

theorem alike_lowerStore (hb : b.Matches D σ b') (hf : f.Matches D σ f') {ptr value : InstId}
    (hp : D ptr) (hv : D value) : Emission.Alike σ Operand.Left
      ((Scope.mk fn b).lowerStore f ptr value)
      ((Scope.mk fn b').lowerStore f' (σ ptr) (σ value)) := by
  refine (alike_resolve hb hf hp).bind fun target target' _ ht => ?_
  refine (alike_resolve hb hf hv).bind fun v v' _ hv => ?_
  refine (alike_push hb hv).bind fun _ _ _ _ => ?_
  obtain ⟨rfl, -⟩ := ht
  cases target with
  | onStack => exact ⟨rfl, .broken _⟩
  | slot n => exact ⟨rfl, .ok .onStack⟩
  | literal i => exact ⟨rfl, .broken _⟩
  | block label => exact ⟨rfl, .broken _⟩

theorem alike_lowerAdd (hb : b.Matches D σ b') (hf : f.Matches D σ f') (inst : Inst)
    {lhs rhs : InstId} (hl : D lhs) (hr : D rhs) : Emission.Alike σ Operand.Left
      ((Scope.mk fn b).lowerAdd f inst lhs rhs)
      ((Scope.mk fn b').lowerAdd f' (inst.rename σ) (σ lhs) (σ rhs)) := by
  refine (alike_resolve hb hf hl).bind fun l l' _ hl => ?_
  refine (alike_resolve hb hf hr).bind fun r r' _ hr => ?_
  refine (alike_push hb hl).bind fun _ _ _ _ => ?_
  refine (alike_push hb hr).bind fun _ _ _ _ => ?_
  rw [inst.ty_rename]
  cases inst.ty.valType? with
  | some t => exact ⟨rfl, .ok .onStack⟩
  | none => exact ⟨rfl, .failed _⟩

theorem alike_lowerCall (hb : b.Matches D σ b') (hf : f.Matches D σ f') (inst : Inst)
    {callee : InstId} {args : List InstId} (hc : D callee) (ha : ∀ i ∈ args, D i) :
    Emission.Alike σ Operand.Left ((Scope.mk fn b).lowerCall f inst callee args)
      ((Scope.mk fn b').lowerCall f' (inst.rename σ) (σ callee) (args.map σ)) := by
  refine (alike_resolve hb hf hc).bind fun _ _ _ _ => ?_
  dsimp only
  rw [hb.callee? hc]
  cases b.callee? callee with
  | some target =>
      refine (alike_pushOperands hb hf ha).bind fun _ _ _ _ => ?_
      exact ⟨rfl, .ok .onStack⟩
  | none =>
      refine (alike_inst hb hc).bind fun through through' _ h => ?_
      obtain ⟨-, rfl⟩ := h
      rw [through.kind_rename, through.kind.tag_rename]
      exact ⟨rfl, .failed _⟩

theorem alike_takeSlot (hf : f.Matches D σ f') :
    Emission.Alike σ Operand.Left f.takeSlot f'.takeSlot := by
  unfold Frame.takeSlot counter
  rw [hf.slots]
  split
  · exact .pure .slot
  · exact ⟨rfl, .broken .counterOverflow⟩

theorem alike_lower (hb : b.Matches D σ b') (hf : f.Matches D σ f') (inst : Inst)
    (ho : ∀ o ∈ inst.kind.references, D o) : Emission.Alike σ Operand.Left
      ((Scope.mk fn b).lower f inst) ((Scope.mk fn b').lower f' (inst.rename σ)) := by
  unfold lower
  rw [inst.kind_rename]
  cases hk : inst.kind with
  | arg index =>
      dsimp only [InstKind.rename]
      rw [hf.slots]
      split
      · exact alike_takeSlot hf
      · exact ⟨rfl, .broken _⟩
  | alloc => exact alike_takeSlot hf
  | load ptr =>
      refine (alike_pushOperand hb hf (ho ptr ?_)).bind fun _ _ _ _ => .pure .onStack
      simp [hk, InstKind.references, InstKind.uses]
  | store ptr value =>
      refine alike_lowerStore hb hf (ho ptr ?_) (ho value ?_)
      all_goals simp [hk, InstKind.references, InstKind.uses]
  | add lhs rhs =>
      refine alike_lowerAdd hb hf inst (ho lhs ?_) (ho rhs ?_)
      all_goals simp [hk, InstKind.references, InstKind.uses]
  | call callee args =>
      refine alike_lowerCall hb hf inst (ho callee ?_) fun i hi => ho i ?_
      · simp [hk, InstKind.references]
      · simp [hk, InstKind.references, hi]
  | ret operand =>
      refine (alike_pushOperand hb hf (ho operand ?_)).bind fun _ _ _ _ => .pure .onStack
      simp [hk, InstKind.references, InstKind.uses]
  | retVoid => exact .pure .onStack
  | dbgStmt line column => exact .pure .onStack
  | _ => exact ⟨rfl, .failed _⟩

end Scope

/-! ## Blocks -/

theorem Frame.alike_define {b b' : Body} {f f' : Frame} {i : InstId} {v v' : Operand}
    (hb : b.Matches D σ b') (hf : f.Matches D σ f') (hi : D i) (hv : v.Left v') :
    Emission.Alike σ (Frame.Matches D σ) (.require (f.define i v))
      (.require (f'.define (σ i) v')) := by
  obtain ⟨rfl, hv⟩ := hv
  unfold define
  rw [Std.HashMap.contains_eq_isSome_getElem?, Std.HashMap.contains_eq_isSome_getElem?,
    hf.values i hi]
  by_cases hc : f.values[i]?.isSome = true
  · rw [if_pos hc, if_pos hc]
    exact ⟨rfl, .broken _⟩
  · rw [if_neg hc, if_neg hc]
    refine .pure ⟨by rw [hf.slots], fun j hj => ?_, fun j k => ?_⟩
    · -- The value goes to no other id, since different ids get different new ids.
      have hij : (σ i == σ j) = (i == j) := by
        rw [Bool.eq_iff_iff, beq_iff_eq, beq_iff_eq]
        exact ⟨hb.injective i j hi hj, congrArg σ⟩
      rw [Std.HashMap.getElem?_insert, Std.HashMap.getElem?_insert, hij, hf.values j hj]
    · rw [Std.HashMap.getElem?_insert]
      split
      · exact fun h => hv k (Option.some.inj h)
      · exact hf.noLiteral j k

namespace Scope

variable {fn : String} {b b' : Body} {f f' : Frame} {i : InstId}

theorem alike_step (hb : b.Matches D σ b') (hf : f.Matches D σ f') (hi : D i)
    (ho : ∀ inst ∈ b.get? i, ∀ o ∈ inst.kind.references, D o) :
    Emission.Alike σ (Frame.Matches D σ) ((Scope.mk fn b).step f i)
      ((Scope.mk fn b').step f' (σ i)) := by
  refine (alike_inst hb hi).bind fun inst inst' _ h => ?_
  obtain ⟨hg, rfl⟩ := h
  -- The records name the ids, so they are no part of the comparison.
  refine Emission.Alike.bind (R := fun _ _ => True) ⟨rfl, .ok trivial⟩ fun _ _ _ _ => ?_
  refine (alike_lower hb hf inst (ho inst hg)).bind fun v v' _ hv => ?_
  exact Frame.alike_define hb hf hi hv

theorem alike_lowerAll (fn : String) (hb : b.Matches D σ b') (hf : f.Matches D σ f')
    {is : List InstId} (hi : ∀ i ∈ is, D i)
    (ho : ∀ i ∈ is, ∀ inst ∈ b.get? i, ∀ o ∈ inst.kind.references, D o) :
    Emission.Alike σ (Frame.Matches D σ) ((Scope.mk fn b).lowerAll f is)
      ((Scope.mk fn b').lowerAll f' (is.map σ)) := by
  induction is generalizing f f' with
  | nil => exact .pure hf
  | cons i is ih =>
      rw [List.forall_mem_cons] at hi ho
      exact (alike_step hb hf hi.1 ho.1).bind fun _ _ _ hf => ih hf hi.2 ho.2

end Scope

theorem Slots.alike_ofRest {b b' : Body} (hb : b.Matches D σ b') {is : List InstId}
    (hi : ∀ i ∈ is, D i) (n : Nat) : Alike σ Eq (ofRest b n is) (ofRest b' n (is.map σ)) := by
  induction is generalizing n with
  | nil => exact .ok rfl
  | cons i is ih =>
      rw [List.forall_mem_cons] at hi
      have ih := ih hi.2
      rw [List.map_cons, ofRest, ofRest, hb.inst i hi.1]
      unfold Body.inst
      cases b.get? i with
      | none => exact .broken _
      | some inst =>
          dsimp only [Except.map, Except.mapError, bind, Except.bind]
          rw [inst.kind_rename, inst.slotType_rename]
          cases inst.kind with
          | alloc =>
              dsimp only [InstKind.rename]
              cases inst.slotType with
              | error f => exact .failed f
              | ok t => exact (ih n).bind fun _ _ h => .ok (congrArg (withLocal t) h)
          | arg index => exact (alike_counter (n + 1)).bind fun _ m h => h ▸ ih m
          | _ => exact ih n

theorem Slots.alike_ofBlock {b b' : Body} (hb : b.Matches D σ b') {is : List InstId}
    (hi : ∀ i ∈ is, D i) : Alike σ Eq (ofBlock b is) (ofBlock b' (is.map σ)) :=
  alike_ofRest hb hi 0

theorem Slots.alike_checkDense (slots : Slots) (fn : String) (taken : Nat) :
    Alike σ Eq ((slots.checkDense fn taken).mapError Stop.broken)
      ((slots.checkDense fn taken).mapError .broken) := by
  unfold checkDense counter
  split
  · dsimp only [bind, Except.bind]
    split
    · exact .ok rfl
    · exact .broken (.sparseSlots fn)
  · exact .broken .counterOverflow

/-! ## Functions -/

namespace Decl

variable {d : Decl} {b b' : Body}

theorem alike_typed (d : Decl) : Alike σ Eq d.typed d.typed := by
  unfold typed
  split
  · exact .failed _
  · split
    · exact .ok rfl
    · exact .failed _

theorem alike_counted (s : Signature)
    (hs : Alike σ Eq (Slots.ofBlock b b.code) (Slots.ofBlock b' b'.code)) :
    Alike σ Eq (d.counted s b) (d.counted s b') := by
  refine hs.bind fun slots _ h => ?_
  subst h
  split
  · exact .ok rfl
  · exact .broken _

theorem alike_lowered (slots : Slots)
    (hl : Emission.Alike σ (fun f f' => f'.slots = f.slots)
      ((Scope.mk d.name b).lowerAll .empty b.code)
      ((Scope.mk d.name b').lowerAll .empty b'.code)) :
    Alike σ Eq (d.lowered b slots) (d.lowered b' slots) := by
  refine hl.result.bind fun f f' hf => ?_
  rw [hf, hl.ops]
  exact (slots.alike_checkDense d.name f.slots).bind fun _ _ _ => .ok rfl

theorem alike_sized (id : DeclId) (entry : List UInt8) (slots : Slots) (os : List Op) :
    Alike σ Eq (d.sized id entry slots os) (d.sized id entry slots os) := by
  unfold sized
  dsimp only
  split
  · exact .ok rfl
  · exact .failed _

/-- It is enough that the slots are counted alike and that the blocks are lowered alike. -/
theorem alike_generate (id : DeclId) (hb : d.body? = some b)
    (hs : Alike σ Eq (Slots.ofBlock b b.code) (Slots.ofBlock b' b'.code))
    (hl : Emission.Alike σ (fun f f' => f'.slots = f.slots)
      ((Scope.mk d.name b).lowerAll .empty b.code)
      ((Scope.mk d.name b').lowerAll .empty b'.code)) :
    Alike σ Eq (d.generate id) (generate { d with body? := some b' } id) := by
  refine d.alike_typed.bind fun s _ h => ?_
  subst h
  rw [show d.defined = .ok b by rw [defined, hb]]
  refine (alike_counted s hs).bind fun slots _ h => ?_
  subst h
  refine (alike_lowered slots hl).bind fun os _ h => ?_
  subst h
  exact alike_sized id s.entry.1 slots os

end Decl

end WasmLowering
