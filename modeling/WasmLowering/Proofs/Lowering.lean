import WasmLowering.Codegen.Lowering
import WasmLowering.Proofs.Emission
import WasmLowering.Proofs.Reference

/-!
# The frame mirrors the lowered part of the block

Between two instructions the frame says no more than which part of the block has been lowered. So
what an instruction is lowered to does not depend on the run that led there, and the operations of
a whole block are those of its instructions one after the other.
-/

namespace WasmLowering

theorem Literal.integer?_of_integerIn? {l : Literal} {signed : Bool} {bits : Nat} {v : Int}
    (h : l.integerIn? signed bits = some v) : l.integer? = some v :=
  (Option.filter_eq_some_iff.mp h).1

/-- The operations of a literal that fits its type push what it denotes. -/
theorem Literal.ops_eq {l : Literal} {ty : Ty} {os : List Op} (h : l.ops ty = .ok os) :
    os = ((l.scalar? ty).map Scalar.op).toList := by
  unfold Literal.ops at h
  split at h
  · cases h; rfl
  · cases ht : ty.valType? with
    | none => simp [ht] at h
    | some t =>
        cases t with
        | i32 =>
            cases hv : l.integerIn? ty.isSignedInt 32 with
            | none => simp [ht, hv] at h
            | some v =>
                simp only [ht, hv, Option.map_some, Except.ok.injEq] at h
                simp [scalar?, ht, integer?_of_integerIn? hv, Scalar.op, ← h]
        | i64 =>
            cases hv : l.integerIn? ty.isSignedInt 64 with
            | none => simp [ht, hv] at h
            | some v =>
                simp only [ht, hv, Option.map_some, Except.ok.injEq] at h
                simp [scalar?, ht, integer?_of_integerIn? hv, Scalar.op, ← h]
        | f32 =>
            cases hv : l.single? with
            | none => simp [ht, hv] at h
            | some v =>
                simp only [ht, hv, Option.map_some, Except.ok.injEq] at h
                simp [scalar?, ht, hv, Scalar.op, ← h]
        | f64 =>
            cases hv : l.float? with
            | none => simp [ht, hv] at h
            | some v =>
                simp only [ht, hv, Option.map_some, Except.ok.injEq] at h
                simp [scalar?, ht, hv, Scalar.op, ← h]

theorem Literal.exists_scalar {l : Literal} {ty : Ty} {os : List Op} (h : l.ops ty = .ok os)
    (hv : ty.isVoid = false) : ∃ v, l.scalar? ty = some v ∧ os = [v.op] := by
  have ho := ops_eq h
  cases hs : l.scalar? ty with
  | some v => exact ⟨v, rfl, by simpa [hs] using ho⟩
  | none =>
      rw [hs] at ho
      unfold Literal.ops at h
      split at h
      · cases hv
      · cases ht : ty.valType? with
        | none => simp [ht] at h
        | some t =>
            simp only [ht] at h
            split at h
            · cases h; cases ho
            · cases h

theorem counter_eq_ok {n m : Nat} : counter n = .ok m ↔ n < UInt32.size ∧ m = n := by
  unfold counter
  split
  · next h => simp [h, eq_comm]
  · next h => simp [h]

theorem counter_of_lt {n : Nat} (h : n < UInt32.size) : counter n = .ok n := if_pos h

namespace Body

variable {b : Body} {before after : List InstId} {i j : InstId}

theorem inst_eq_ok {inst : Inst} : b.inst i = .ok inst ↔ b.get? i = some inst := by
  unfold Body.inst
  cases b.get? i <;> simp

/-! ## Slots -/

theorem slotOf_eq (hc : b.code = before ++ i :: after) (hi : i ∉ before) :
    b.slotOf i = before.countP b.takesSlot := by
  unfold slotOf
  rw [hc, List.takeWhile_append_of_pos]
  · simp
  · intro j hj
    simp only [bne_iff_ne, ne_eq]
    rintro rfl
    exact hi hj

def operandOf (b : Body) (i : InstId) : Operand :=
  if b.takesSlot i then .slot (b.slotOf i) else .onStack

/-! ## What an instruction needs -/

/-- A literal of the arena, or an instruction lowered before. -/
def Resolves (b : Body) (before : List InstId) (i : InstId) : Prop :=
  ∃ inst, b.get? i = some inst ∧ (inst.kind.isConstant = false → i ∈ before)

/-- An operand that can be pushed: a literal has to fit its type. -/
def Pushes (b : Body) (before : List InstId) (i : InstId) : Prop :=
  ∃ inst, b.get? i = some inst ∧
    ((∃ l os, inst.kind = .constant l ∧ l.ops inst.ty = .ok os) ∨
      (inst.kind.isConstant = false ∧ i ∈ before))

/-- Behind the instructions of `before` one more slot can be counted. -/
def HasRoom (b : Body) (before : List InstId) : Prop :=
  before.countP b.takesSlot + 1 < UInt32.size

instance : Decidable (b.HasRoom before) := inferInstanceAs (Decidable (_ < _))

def Lowers (b : Body) (before : List InstId) (inst : Inst) : Prop :=
  match inst.kind with
  | .arg index => index.toNat = before.countP b.takesSlot ∧ b.HasRoom before
  | .alloc => b.HasRoom before
  | .retVoid | .dbgStmt _ _ => True
  | .load ptr => b.Pushes before ptr
  | .store ptr value => ptr ∈ before ∧ b.takesSlot ptr = true ∧ b.Pushes before value
  | .add lhs rhs => b.Pushes before lhs ∧ b.Pushes before rhs ∧ inst.ty.valType?.isSome
  | .call callee args => (b.callee? callee).isSome ∧ ∀ i ∈ args, b.Pushes before i
  | .ret operand => b.Pushes before operand
  | _ => False

def valueOf (b : Body) (before : List InstId) (inst : Inst) : Operand :=
  if inst.kind.takesSlot then .slot (before.countP b.takesSlot) else .onStack

/-- The instruction `i` is new behind `before` and can be lowered there. -/
def LowersAt (b : Body) (before : List InstId) (i : InstId) : Prop :=
  ∃ inst, b.get? i = some inst ∧ i ∉ before ∧ b.Lowers before inst

/-- The instructions can be lowered one after the other behind those of `before`. -/
def LowersAll (b : Body) (before : List InstId) : List InstId → Prop
  | [] => True
  | i :: is => b.LowersAt before i ∧ b.LowersAll (before ++ [i]) is

def Lowerable (b : Body) : Prop := b.LowersAll [] b.code

theorem LowersAll.left {l r : List InstId} (h : b.LowersAll before (l ++ r)) :
    b.LowersAll before l := by
  induction l generalizing before with
  | nil => trivial
  | cons i l ih => exact ⟨h.1, ih h.2⟩

theorem LowersAll.lowersAt {l r : List InstId} (h : b.LowersAll before (l ++ i :: r)) :
    b.LowersAt (before ++ l) i := by
  induction l generalizing before with
  | nil => simpa using h.1
  | cons j l ih => simpa using ih h.2

theorem LowersAll.nodup {is : List InstId} (hb : before.Nodup) (h : b.LowersAll before is) :
    (before ++ is).Nodup := by
  induction is generalizing before with
  | nil => simpa using hb
  | cons i is ih =>
      obtain ⟨⟨inst, _, hi, _⟩, hs⟩ := h
      have hn : (before ++ [i]).Nodup :=
        List.nodup_append.mpr ⟨hb, by simp, by simp; rintro j hj rfl; exact hi hj⟩
      simpa using ih hn hs

/-- Only an argument or a stack slot is counted, and then there is room for it. -/
theorem LowersAt.countP_lt (h : b.LowersAt before i)
    (hb : before.countP b.takesSlot < UInt32.size) :
    (before ++ [i]).countP b.takesSlot < UInt32.size := by
  obtain ⟨inst, hi, -, hl⟩ := h
  have ht : b.takesSlot i = inst.kind.takesSlot := by rw [takesSlot, hi, Option.any_some]
  rw [List.countP_append, List.countP_singleton, ht]
  unfold Lowers at hl
  cases hk : inst.kind with
  | arg index => rw [hk] at hl; exact hl.2
  | alloc => rw [hk] at hl; exact hl
  | _ => exact hb

theorem LowersAll.countP_lt {is : List InstId} (h : b.LowersAll before is)
    (hb : before.countP b.takesSlot < UInt32.size) :
    (before ++ is).countP b.takesSlot < UInt32.size := by
  induction is generalizing before with
  | nil => simpa using hb
  | cons i is ih => simpa using ih h.2 (h.1.countP_lt hb)

theorem LowersAll.countP_front_lt {front : List InstId} (h : b.LowersAll [] front) :
    front.countP b.takesSlot < UInt32.size :=
  h.countP_lt (show 0 < UInt32.size by decide)

theorem Lowerable.countP_lt (h : b.Lowerable) : b.code.countP b.takesSlot < UInt32.size :=
  LowersAll.countP_front_lt h

theorem Lowerable.lowersAt (h : b.Lowerable) (hc : b.code = before ++ i :: after) :
    b.LowersAt before i := by
  unfold Lowerable at h
  rw [hc] at h
  simpa using h.lowersAt

theorem Lowerable.nodup (h : b.Lowerable) : b.code.Nodup := by
  simpa using LowersAll.nodup List.nodup_nil h

end Body

namespace Frame

/-- What the frame holds once the instructions of `before`, the first ones of the block, have been
lowered. -/
structure Mirrors (f : Frame) (b : Body) (before after : List InstId) : Prop where
  code : b.code = before ++ after
  nodup : before.Nodup
  slots : f.slots = before.countP b.takesSlot
  values : ∀ i, f.values[i]? = if i ∈ before then some (b.operandOf i) else none

theorem mirrors_empty (b : Body) : Frame.empty.Mirrors b [] b.code where
  code := rfl
  nodup := List.nodup_nil
  slots := rfl
  values i := by simp [empty]

theorem Mirrors.contains {f : Frame} {b : Body} {before after : List InstId}
    (hf : f.Mirrors b before after) (i : InstId) : f.values.contains i = true ↔ i ∈ before := by
  rw [Std.HashMap.contains_eq_isSome_getElem?, hf.values]
  split <;> simp_all

theorem Mirrors.define {f f' : Frame} {b : Body} {before after : List InstId} {i : InstId}
    {inst : Inst} (hf : f.Mirrors b before (i :: after)) (hi : b.get? i = some inst)
    (h : f.define i (b.valueOf before inst) = .ok f') :
    i ∉ before ∧ f'.Mirrors b (before ++ [i]) after := by
  unfold Frame.define at h
  split at h
  · cases h
  · next hn =>
    have hm : i ∉ before := fun hm => hn ((hf.contains i).mpr hm)
    have hs : b.takesSlot i = inst.kind.takesSlot := by simp [Body.takesSlot, hi]
    have hv : b.valueOf before inst = b.operandOf i := by
      rw [Body.valueOf, Body.operandOf, hs, Body.slotOf_eq hf.code hm]
    cases h
    refine ⟨hm, ?_, ?_, ?_, ?_⟩
    · rw [hf.code, List.append_assoc, List.singleton_append]
    · exact List.nodup_append.mpr ⟨hf.nodup, by simp, by simp; rintro j hj rfl; exact hm hj⟩
    · rw [List.countP_append, List.countP_singleton, hs, Body.valueOf, ← hf.slots]
      cases inst.kind.takesSlot <;> rfl
    · intro j
      rw [Std.HashMap.getElem?_insert, hf.values, hv]
      by_cases hj : i = j
      · subst hj; simp
      · simp [hj, Ne.symm hj]

theorem Mirrors.exists_define {f : Frame} {b : Body} {before after : List InstId} {i : InstId}
    (hf : f.Mirrors b before after) (hi : i ∉ before) (v : Operand) :
    ∃ f', f.define i v = .ok f' := by
  have hn : f.values.contains i = false := by
    rw [← Bool.not_eq_true, hf.contains i]; exact hi
  unfold Frame.define
  rw [if_neg (by simp [hn])]
  exact ⟨_, rfl⟩

end Frame

namespace Scope

variable {s : Scope} {f : Frame} {before after : List InstId}

theorem resolve_eq_ok (hf : f.Mirrors s.body before after) {i : InstId} {v : Operand} :
    s.resolve f i = .ok v ↔ s.body.Resolves before i ∧
      (if (s.body.literal? i).isSome then .literal i else s.body.operandOf i) = v := by
  unfold resolve Body.Resolves Body.literal?
  cases hi : s.body.get? i with
  | none => simp
  | some inst =>
      cases hk : inst.kind.literal? with
      | some l => simp [InstKind.isConstant, hk]
      | none => by_cases hm : i ∈ before <;> simp [InstKind.isConstant, hk, hf.values, hm]

theorem push_literal_yields {i : InstId} {inst : Inst} {l : Literal} {os : List Op} {u : Unit}
    (hi : s.body.get? i = some inst) (hk : inst.kind = .constant l) :
    (s.push (.literal i)).Yields os u ↔ l.ops inst.ty = .ok os := by
  unfold push
  rw [Emission.yields_require_bind]
  simp [Body.inst, hi, Inst.emitConstant_yields, hk, InstKind.literal?]

theorem push_yields (hf : f.Mirrors s.body before after) {i : InstId} {v : Operand} {os : List Op}
    {u : Unit} (hr : s.resolve f i = .ok v) :
    (s.push v).Yields os u ↔ s.body.Pushes before i ∧ os = s.body.pushOps i := by
  obtain ⟨⟨inst, hi, hb⟩, rfl⟩ := (resolve_eq_ok hf).mp hr
  unfold Body.Pushes Body.pushOps
  cases hk : inst.kind with
  | constant l =>
      have hl : s.body.literal? i = some l := by simp [Body.literal?, hi, hk, InstKind.literal?]
      rw [hl, Option.isSome_some, if_pos rfl, push_literal_yields hi hk]
      constructor
      · intro ho
        exact ⟨⟨inst, hi, .inl ⟨l, os, hk, ho⟩⟩, by simpa [hi, hk] using Literal.ops_eq ho⟩
      · rintro ⟨⟨inst', hi', ⟨l', os', hk', ho⟩ | ⟨hk', _⟩⟩, rfl⟩
        · rw [hi] at hi'; cases hi'
          rw [hk] at hk'; cases hk'
          simpa [hi, hk, ← Literal.ops_eq ho] using ho
        · rw [hi] at hi'; cases hi'
          simp [InstKind.isConstant, hk, InstKind.literal?] at hk'
  | _ =>
      have hm : i ∈ before := hb (by simp [InstKind.isConstant, hk, InstKind.literal?])
      simp [hi, hk, Body.literal?, InstKind.isConstant, InstKind.literal?, Body.operandOf,
        Body.takesSlot, InstKind.takesSlot, push, hm]

theorem resolve_of_pushes (hf : f.Mirrors s.body before after) {i : InstId}
    (h : s.body.Pushes before i) : ∃ v, s.resolve f i = .ok v := by
  obtain ⟨inst, hi, ⟨l, os, hk, _⟩ | ⟨hk, hm⟩⟩ := h
  · have hc : inst.kind.isConstant = true := by simp [InstKind.isConstant, hk, InstKind.literal?]
    exact ⟨_, (resolve_eq_ok hf).mpr ⟨⟨inst, hi, by simp [hc]⟩, rfl⟩⟩
  · exact ⟨_, (resolve_eq_ok hf).mpr ⟨⟨inst, hi, fun _ => hm⟩, rfl⟩⟩

theorem pushOperand_yields (hf : f.Mirrors s.body before after) {i : InstId} {os : List Op}
    {u : Unit} :
    (s.pushOperand f i).Yields os u ↔ s.body.Pushes before i ∧ os = s.body.pushOps i := by
  unfold pushOperand
  rw [Emission.yields_require_bind]
  constructor
  · rintro ⟨v, hr, hp⟩
    exact (push_yields hf hr).mp hp
  · intro h
    obtain ⟨v, hr⟩ := resolve_of_pushes hf h.1
    exact ⟨v, hr, (push_yields hf hr).mpr h⟩

theorem pushOperands_yields (hf : f.Mirrors s.body before after) {is : List InstId} {os : List Op}
    {u : Unit} :
    (s.pushOperands f is).Yields os u ↔
      (∀ i ∈ is, s.body.Pushes before i) ∧ os = is.flatMap s.body.pushOps := by
  induction is generalizing os with
  | nil => simp [pushOperands]
  | cons i is ih =>
      simp only [pushOperands, Emission.yields_bind, pushOperand_yields hf, ih]
      constructor
      · rintro ⟨_, _, _, ⟨h, rfl⟩, ⟨hs, rfl⟩, rfl⟩
        exact ⟨by simpa using ⟨h, hs⟩, rfl⟩
      · rintro ⟨h, rfl⟩
        simp only [List.mem_cons, forall_eq_or_imp] at h
        exact ⟨_, (), _, ⟨h.1, rfl⟩, ⟨h.2, rfl⟩, rfl⟩

theorem resolve_eq_slot (hf : f.Mirrors s.body before after) {i : InstId} {n : Nat} :
    s.resolve f i = .ok (.slot n) ↔
      i ∈ before ∧ s.body.takesSlot i = true ∧ s.body.slotOf i = n := by
  rw [resolve_eq_ok hf]
  unfold Body.Resolves Body.literal? Body.operandOf Body.takesSlot
  cases hi : s.body.get? i with
  | none => simp
  | some inst =>
      cases hk : inst.kind <;>
        simp [hk, InstKind.literal?, InstKind.isConstant, InstKind.takesSlot]

/-! ## Instructions -/

variable {inst : Inst} {os : List Op} {v : Operand}

theorem lowerStore_yields (hf : f.Mirrors s.body before after) {ptr value : InstId} :
    (s.lowerStore f ptr value).Yields os v ↔
      (ptr ∈ before ∧ s.body.takesSlot ptr = true ∧ s.body.Pushes before value) ∧
        os = s.body.pushOps value ++ [.localSet (s.body.slotOf ptr)] ∧ v = .onStack := by
  unfold lowerStore
  simp only [Emission.yields_require_bind]
  simp only [Emission.yields_bind]
  constructor
  · rintro ⟨target, ht, w, hw, _, _, _, hp, hs, rfl⟩
    rw [push_yields hf hw] at hp
    cases target with
    | slot n =>
        obtain ⟨rfl, rfl⟩ := Emission.yields_op_pure.mp hs
        obtain ⟨hm, hts, rfl⟩ := (resolve_eq_slot hf).mp ht
        exact ⟨⟨hm, hts, hp.1⟩, by rw [hp.2], rfl⟩
    | onStack => simp at hs
    | literal i => simp at hs
    | block label => simp at hs
  · rintro ⟨⟨hm, ht, hp⟩, rfl, rfl⟩
    obtain ⟨w, hw⟩ := resolve_of_pushes hf hp
    refine ⟨_, (resolve_eq_slot hf).mpr ⟨hm, ht, rfl⟩, w, hw, _, (), _,
      (push_yields hf hw).mpr ⟨hp, rfl⟩, ?_, rfl⟩
    exact Emission.yields_op_pure.mpr ⟨rfl, rfl⟩

theorem lowerAdd_yields (hf : f.Mirrors s.body before after) {lhs rhs : InstId} :
    (s.lowerAdd f inst lhs rhs).Yields os v ↔
      (s.body.Pushes before lhs ∧ s.body.Pushes before rhs ∧ inst.ty.valType?.isSome) ∧
        os = s.body.pushOps lhs ++ s.body.pushOps rhs ++ (inst.ty.valType?.map Op.add).toList ∧
        v = .onStack := by
  unfold lowerAdd
  simp only [Emission.yields_require_bind]
  simp only [Emission.yields_bind]
  constructor
  · rintro ⟨l, hl, r, hr, _, _, _, hpl, ⟨_, _, _, hpr, ha, rfl⟩, rfl⟩
    rw [push_yields hf hl] at hpl
    rw [push_yields hf hr] at hpr
    cases ht : inst.ty.valType? with
    | none => simp [ht] at ha
    | some t =>
        rw [ht] at ha
        obtain ⟨rfl, rfl⟩ := Emission.yields_op_pure.mp ha
        exact ⟨⟨hpl.1, hpr.1, rfl⟩, by simp [hpl.2, hpr.2], rfl⟩
  · rintro ⟨⟨hpl, hpr, ht⟩, rfl, rfl⟩
    obtain ⟨l, hl⟩ := resolve_of_pushes hf hpl
    obtain ⟨r, hr⟩ := resolve_of_pushes hf hpr
    obtain ⟨t, ht⟩ := Option.isSome_iff_exists.mp ht
    refine ⟨l, hl, r, hr, _, (), _, (push_yields hf hl).mpr ⟨hpl, rfl⟩,
      ⟨_, (), [.add t], (push_yields hf hr).mpr ⟨hpr, rfl⟩, ?_, rfl⟩, ?_⟩
    · rw [ht]
      exact Emission.yields_op_pure.mpr ⟨rfl, rfl⟩
    · simp [ht]

theorem resolve_callee (hf : f.Mirrors s.body before after) {i : InstId}
    (h : (s.body.callee? i).isSome) : ∃ v, s.resolve f i = .ok v := by
  obtain ⟨d, hd⟩ := Option.isSome_iff_exists.mp h
  simp only [Body.callee?, Body.literal?, Option.bind_eq_bind, Option.bind_eq_some_iff] at hd
  obtain ⟨l, ⟨inst, hi, hl⟩, _⟩ := hd
  exact ⟨_, (resolve_eq_ok hf).mpr ⟨⟨inst, hi, by simp [InstKind.isConstant, hl]⟩, rfl⟩⟩

theorem lowerCall_yields (hf : f.Mirrors s.body before after) {callee : InstId}
    {args : List InstId} :
    (s.lowerCall f inst callee args).Yields os v ↔
      ((s.body.callee? callee).isSome ∧ ∀ i ∈ args, s.body.Pushes before i) ∧
        os = args.flatMap s.body.pushOps ++ ((s.body.callee? callee).map Op.callReloc).toList ∧
        v = .onStack := by
  unfold lowerCall
  rw [Emission.yields_require_bind]
  constructor
  · rintro ⟨c, hc, h⟩
    cases ht : s.body.callee? callee with
    | none => simp [ht] at h
    | some target =>
        simp only [ht, Emission.yields_bind, pushOperands_yields hf] at h
        obtain ⟨_, _, _, ⟨ha, rfl⟩, hc, rfl⟩ := h
        obtain ⟨rfl, rfl⟩ := Emission.yields_op_pure.mp (Emission.yields_bind.mpr hc)
        exact ⟨⟨rfl, ha⟩, rfl, rfl⟩
  · rintro ⟨⟨ht, ha⟩, rfl, rfl⟩
    obtain ⟨c, hc⟩ := resolve_callee hf ht
    obtain ⟨target, ht⟩ := Option.isSome_iff_exists.mp ht
    refine ⟨c, hc, ?_⟩
    rw [ht]
    refine Emission.yields_bind.mpr ⟨_, (), [.callReloc target], ?_, ?_, rfl⟩
    · exact (pushOperands_yields hf).mpr ⟨ha, rfl⟩
    · exact Emission.yields_op_pure.mpr ⟨rfl, rfl⟩

theorem takeSlot_yields (hf : f.Mirrors s.body before after) :
    f.takeSlot.Yields os v ↔
      s.body.HasRoom before ∧ os = [] ∧ v = .slot (before.countP s.body.takesSlot) := by
  unfold Frame.takeSlot
  rw [Emission.yields_require_bind]
  simp [counter_eq_ok, Body.HasRoom, hf.slots]

/-- An instruction is lowered when its operands are there, to what the block alone says. -/
theorem lower_yields (hf : f.Mirrors s.body before after) :
    (s.lower f inst).Yields os v ↔
      s.body.Lowers before inst ∧ os = s.body.loweredInst inst ∧
        v = s.body.valueOf before inst := by
  unfold lower Body.Lowers Body.loweredInst Body.valueOf
  cases hk : inst.kind with
  | arg index =>
      by_cases hx : index.toNat = f.slots
      · simp [InstKind.takesSlot, takeSlot_yields hf, hx, hf.slots]
      · simp [← hf.slots, hx]
  | alloc => simp [InstKind.takesSlot, takeSlot_yields hf]
  | load ptr =>
      simp only [Emission.yields_bind, pushOperand_yields hf, Emission.yields_pure]
      constructor
      · rintro ⟨_, _, _, ⟨hp, rfl⟩, ⟨rfl, rfl⟩, rfl⟩
        exact ⟨hp, by simp, rfl⟩
      · rintro ⟨hp, rfl, rfl⟩
        exact ⟨_, (), [], ⟨hp, rfl⟩, ⟨rfl, rfl⟩, by simp⟩
  | store ptr value => exact lowerStore_yields hf
  | add lhs rhs => exact lowerAdd_yields hf
  | call callee args => exact lowerCall_yields hf
  | ret operand =>
      simp only [Emission.yields_bind, pushOperand_yields hf, Emission.yields_pure]
      constructor
      · rintro ⟨_, _, _, ⟨hp, rfl⟩, ⟨rfl, rfl⟩, rfl⟩
        exact ⟨hp, by simp, rfl⟩
      · rintro ⟨hp, rfl, rfl⟩
        exact ⟨_, (), [], ⟨hp, rfl⟩, ⟨rfl, rfl⟩, by simp⟩
  | retVoid => simp [InstKind.takesSlot]
  | dbgStmt line column => simp [InstKind.takesSlot]
  | _ => simp

/-! ## Blocks -/

variable {i : InstId} {f' : Frame}

theorem step_yields (hf : f.Mirrors s.body before (i :: after))
    (h : (s.step f i).Yields os f') :
    s.body.LowersAt before i ∧ os = s.body.lowered i ∧ f'.Mirrors s.body (before ++ [i]) after := by
  unfold step at h
  rw [Emission.yields_require_bind] at h
  obtain ⟨inst, hg, h⟩ := h
  simp only [Emission.yields_bind, Emission.yields_event, Emission.yields_require,
    lower_yields hf] at h
  obtain ⟨_, _, _, rfl, ⟨_, _, _, ⟨hl, rfl, rfl⟩, ⟨rfl, hd⟩, rfl⟩, rfl⟩ := h
  have hi := Body.inst_eq_ok.mp hg
  obtain ⟨hm, hf'⟩ := hf.define hi hd
  exact ⟨⟨inst, hi, hm, hl⟩, by simp [Body.lowered_eq hi], hf'⟩

theorem exists_step (hf : f.Mirrors s.body before (i :: after)) (h : s.body.LowersAt before i) :
    ∃ os f', (s.step f i).Yields os f' := by
  obtain ⟨inst, hi, hm, hl⟩ := h
  obtain ⟨f', hd⟩ := hf.exists_define hm (s.body.valueOf before inst)
  refine ⟨s.body.loweredInst inst, f', ?_⟩
  unfold step
  rw [Emission.yields_require_bind]
  refine ⟨inst, by simp [Body.inst, hi], ?_⟩
  refine Emission.yields_bind.mpr ⟨[], (), _, by simp, ?_, rfl⟩
  refine Emission.yields_bind.mpr ⟨s.body.loweredInst inst, s.body.valueOf before inst, [],
    (lower_yields hf).mpr ⟨hl, rfl, rfl⟩, ?_, (List.append_nil _).symm⟩
  simp [hd]

theorem lowerAll_yields {rest : List InstId} (hf : f.Mirrors s.body before (rest ++ after))
    (h : (s.lowerAll f rest).Yields os f') :
    os = rest.flatMap s.body.lowered ∧ f'.Mirrors s.body (before ++ rest) after ∧
      s.body.LowersAll before rest := by
  induction rest generalizing f before os with
  | nil =>
      simp only [lowerAll, Emission.yields_pure] at h
      obtain ⟨rfl, rfl⟩ := h
      exact ⟨rfl, by simpa using hf, trivial⟩
  | cons i is ih =>
      simp only [lowerAll, Emission.yields_bind] at h
      obtain ⟨_, f₁, _, h₁, h₂, rfl⟩ := h
      obtain ⟨hi, rfl, hf₁⟩ := step_yields hf h₁
      obtain ⟨rfl, hf', hr⟩ := ih hf₁ h₂
      exact ⟨rfl, by simpa using hf', hi, hr⟩

/-- Once the first instructions of the block are lowered, the frame mirrors them. -/
theorem lowerAll_front_yields {front : List InstId} (hc : s.body.code = front ++ after)
    (h : (s.lowerAll .empty front).Yields os f') :
    os = front.flatMap s.body.lowered ∧ f'.Mirrors s.body front after ∧
      s.body.LowersAll [] front := by
  have hf := Frame.mirrors_empty s.body
  rw [hc] at hf
  exact lowerAll_yields hf h

theorem exists_lowerAll {rest : List InstId} (hf : f.Mirrors s.body before rest)
    (h : s.body.LowersAll before rest) : ∃ os f', (s.lowerAll f rest).Yields os f' := by
  induction rest generalizing f before with
  | nil => exact ⟨[], f, by simp [lowerAll]⟩
  | cons i is ih =>
      obtain ⟨os₁, f₁, h₁⟩ := exists_step hf h.1
      obtain ⟨_, _, hf₁⟩ := step_yields hf h₁
      obtain ⟨os₂, f₂, h₂⟩ := ih hf₁ h.2
      refine ⟨os₁ ++ os₂, f₂, ?_⟩
      unfold lowerAll
      exact Emission.yields_bind.mpr ⟨os₁, f₁, os₂, h₁, h₂, rfl⟩

end Scope

end WasmLowering
