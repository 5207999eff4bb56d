import Mathlib.Tactic.MkIffOfInductiveProp
import WasmLowering.Proofs.Delivery
import WasmLowering.Proofs.TypeEntry

/-!
# Which functions are generated

Generation yields code exactly for the declarations that meet a list of conditions on the signature,
on the main block as a whole and on each of its instructions. Each condition looks at the
declaration alone, without a frame and without a buffer.
-/

namespace WasmLowering

open Numeral (InRange)

/-! ## Literals -/

namespace Literal

/-- The literal has a value in the range of its type. At `void` there is nothing to push. -/
def Fits (l : Literal) (ty : Ty) : Prop :=
  ty = .void ∨ match ty.valType? with
    | some .i32 => ∃ v, l.integer? = some v ∧ InRange ty.isSignedInt 32 v
    | some .i64 => ∃ v, l.integer? = some v ∧ InRange ty.isSignedInt 64 v
    | some .f32 | some .f64 => ∃ x, l = .float x
    | none => False

theorem exists_integerIn?_iff {l : Literal} {signed : Bool} {bits : Nat} :
    (∃ v, l.integerIn? signed bits = some v) ↔
      ∃ v, l.integer? = some v ∧ InRange signed bits v := by
  simp [integerIn?, Option.filter_eq_some_iff]

theorem exists_float?_iff {l : Literal} : (∃ x, l.float? = some x) ↔ ∃ x, l = .float x := by
  cases l <;> simp [float?]

theorem fits_iff {l : Literal} {ty : Ty} : l.Fits ty ↔ ∃ os, l.ops ty = .ok os := by
  by_cases hv : ty = .void
  · subst hv
    exact ⟨fun _ => ⟨[], rfl⟩, fun _ => .inl rfl⟩
  · unfold Fits Literal.ops
    simp only [hv, false_or]
    cases ht : ty.valType? with
    | none => simp
    | some t =>
        cases t with
        | i32 =>
            refine exists_integerIn?_iff.symm.trans ?_
            cases l.integerIn? ty.isSignedInt 32 <;> simp
        | i64 =>
            refine exists_integerIn?_iff.symm.trans ?_
            cases l.integerIn? ty.isSignedInt 64 <;> simp
        | f32 =>
            refine exists_float?_iff.symm.trans ?_
            cases hf : l.float? <;> simp [single?, hf]
        | f64 =>
            refine exists_float?_iff.symm.trans ?_
            cases l.float? <;> simp

end Literal

/-! ## Instructions -/

namespace InstKind

/-- Arguments, stack slots, loads, stores, additions, calls, both returns and debug marks are
lowered. -/
def isLowered : InstKind → Bool
  | constant _ | sub _ _ | mul _ _ | cmp _ _ _ | block _ | br _ _ | condBr _ _ _ | unreach
  | bitCast _ | intCast _ => false
  | _ => true

/-- All operands of an instruction, the callee among them. -/
def references : InstKind → List InstId
  | call callee args => callee :: args
  | k => k.uses

/-- The operands that an instruction pushes. -/
def pushes : InstKind → List InstId
  | load ptr => [ptr]
  | k => k.takes

end InstKind

namespace Body

variable {b : Body} {before : List InstId} {inst : Inst} {i : InstId}

/-- If the operand is a literal, then it fits its type. -/
def LiteralFits (b : Body) (i : InstId) : Prop :=
  ∀ inst ∈ b.get? i, ∀ l, inst.kind = .constant l → l.Fits inst.ty

/-- What an instruction has to meet behind those of `before`. -/
@[mk_iff]
structure Permits (b : Body) (before : List InstId) (inst : Inst) : Prop where
  kind : inst.kind.isLowered = true
  /-- The index of an argument is the number of slots taken before. -/
  order : ∀ index, inst.kind = .arg index → index.toNat = before.countP b.takesSlot
  operands : ∀ i ∈ inst.kind.references, b.Resolves before i
  target : ∀ ptr value, inst.kind = .store ptr value → b.takesSlot ptr = true
  callee : ∀ callee args, inst.kind = .call callee args → (b.callee? callee).isSome
  sum : ∀ lhs rhs, inst.kind = .add lhs rhs → inst.ty.valType?.isSome
  literals : ∀ i ∈ inst.kind.pushes, b.LiteralFits i

theorem pushes_iff : b.Pushes before i ↔ b.Resolves before i ∧ b.LiteralFits i := by
  unfold Pushes Resolves LiteralFits
  cases hi : b.get? i with
  | none => simp
  | some inst =>
      cases hk : inst.kind with
      | constant l => simp [hk, InstKind.isConstant, InstKind.literal?, Literal.fits_iff]
      | _ => simp [hk, InstKind.isConstant, InstKind.literal?]

theorem resolves_callee (h : (b.callee? i).isSome) : b.Resolves before i := by
  obtain ⟨d, hd⟩ := Option.isSome_iff_exists.mp h
  simp only [callee?, literal?, Option.bind_eq_bind, Option.bind_eq_some_iff] at hd
  obtain ⟨l, ⟨inst, hi, hl⟩, -⟩ := hd
  exact ⟨inst, hi, by simp [InstKind.isConstant, hl]⟩

theorem resolves_of_takesSlot (h : b.takesSlot i = true) :
    b.Resolves before i ↔ i ∈ before := by
  unfold takesSlot at h
  unfold Resolves
  cases hi : b.get? i with
  | none => simp [hi] at h
  | some inst =>
      rw [hi] at h
      cases hk : inst.kind <;>
        simp_all [InstKind.takesSlot, InstKind.isConstant, InstKind.literal?]

/-- An instruction can be lowered exactly when it meets the conditions and there is room for the slot
that it takes. -/
theorem lowers_iff_permits : b.Lowers before inst ↔
    b.Permits before inst ∧ (inst.kind.takesSlot = true → b.HasRoom before) := by
  rw [permits_iff]
  unfold Lowers
  cases hk : inst.kind with
  | store ptr value =>
      simp only [InstKind.isLowered, InstKind.references, InstKind.uses, InstKind.pushes,
        InstKind.takes, pushes_iff]
      constructor
      · rintro ⟨hm, ht, hr, hf⟩
        simpa [ht, hf, InstKind.takesSlot] using ⟨(resolves_of_takesSlot ht).mpr hm, hr⟩
      · rintro ⟨⟨-, -, ho, ht, -, -, hf⟩, -⟩
        have ht := ht ptr value rfl
        exact ⟨(resolves_of_takesSlot ht).mp (ho ptr (by simp)), ht, ho value (by simp),
          hf value (by simp)⟩
  | call callee args =>
      simp only [InstKind.isLowered, InstKind.references, InstKind.pushes, InstKind.takes,
        pushes_iff]
      constructor
      · rintro ⟨hc, ha⟩
        simpa [hc, InstKind.takesSlot] using
          ⟨⟨resolves_callee hc, fun i hi => (ha i hi).1⟩, fun i hi => (ha i hi).2⟩
      · rintro ⟨⟨-, -, ho, -, hc, -, hf⟩, -⟩
        exact ⟨hc callee args rfl, fun i hi => ⟨ho i (by simp [hi]), hf i hi⟩⟩
  | add lhs rhs =>
      simp only [InstKind.isLowered, InstKind.references, InstKind.uses, InstKind.pushes,
        InstKind.takes, pushes_iff]
      constructor
      · rintro ⟨⟨hl, hlf⟩, ⟨hr, hrf⟩, ht⟩
        simpa [ht, InstKind.takesSlot] using ⟨⟨hl, hr⟩, hlf, hrf⟩
      · rintro ⟨⟨-, -, ho, -, -, ht, hf⟩, -⟩
        exact ⟨⟨ho lhs (by simp), hf lhs (by simp)⟩, ⟨ho rhs (by simp), hf rhs (by simp)⟩,
          ht lhs rhs rfl⟩
  | _ =>
      simp [InstKind.isLowered, InstKind.references, InstKind.uses, InstKind.pushes, InstKind.takes,
        InstKind.takesSlot, pushes_iff]

/-! ## Blocks -/

/-- Lowering a block is lowering each of its instructions behind those before it. -/
theorem lowersAll_iff {is : List InstId} (hb : before.Nodup) : b.LowersAll before is ↔
    (before ++ is).Nodup ∧ ∀ l i r, is = l ++ i :: r →
      ∃ inst, b.get? i = some inst ∧ b.Lowers (before ++ l) inst := by
  induction is generalizing before with
  | nil => simpa [LowersAll] using hb
  | cons i is ih =>
      constructor
      · intro h
        refine ⟨h.nodup hb, ?_⟩
        rintro l j r he
        obtain ⟨inst, hj, -, hl⟩ := (he ▸ h).lowersAt
        exact ⟨inst, hj, hl⟩
      · rintro ⟨hn, hl⟩
        obtain ⟨inst, hi, hli⟩ := hl [] i is rfl
        have hn' : (before ++ [i] ++ is).Nodup := by simpa using hn
        have hm : i ∉ before := fun hm => (List.nodup_append.mp hn).2.2 i hm i (by simp) rfl
        refine ⟨⟨inst, hi, hm, by simpa using hli⟩, (ih (List.nodup_append.mp hn').1).mpr ⟨hn', ?_⟩⟩
        rintro l j r rfl
        simpa using hl (i :: l) j r rfl

end Body

theorem Slots.exists_ofRest_iff {b : Body} {n : Nat} {is : List InstId} (hn : n < UInt32.size) :
    (∃ slots, ofRest b n is = .ok slots) ↔ n + is.countP b.isArg < UInt32.size ∧ ∀ i ∈ is,
      (b.get? i).isSome ∧ (b.isAlloc i = true → (b.slotType? i).isSome) := by
  induction is generalizing n with
  | nil => simpa [ofRest] using hn
  | cons i is ih =>
      simp only [List.mem_cons, forall_eq_or_imp, ofRest, bind_eq_ok, mapError_eq_ok,
        Body.inst_eq_ok]
      cases hi : b.get? i with
      | none => simp
      | some inst =>
          rw [Body.isAlloc_eq hi, Body.slotType?_eq hi, List.countP_cons, Body.isArg_eq hi]
          cases hk : inst.kind with
          | alloc =>
              simp only [Option.some.injEq, exists_eq_left', hk, bind_eq_ok, mapError_eq_ok,
                Inst.slotType_eq_ok]
              have ih := ih hn
              constructor
              · rintro ⟨slots, t, ht, rest, hr, -⟩
                obtain ⟨hc, hall⟩ := ih.mp ⟨rest, hr⟩
                exact ⟨hc, ⟨rfl, fun _ => by simp [ht]⟩, hall⟩
              · rintro ⟨hc, ⟨-, ht⟩, hall⟩
                obtain ⟨t, ht⟩ := Option.isSome_iff_exists.mp (ht rfl)
                obtain ⟨rest, hr⟩ := ih.mpr ⟨hc, hall⟩
                exact ⟨_, t, ht, rest, hr, rfl⟩
          | arg index =>
              simp only [Option.some.injEq, exists_eq_left', hk, bind_eq_ok, mapError_eq_ok,
                counter_eq_ok]
              constructor
              · rintro ⟨slots, _, ⟨hc, rfl⟩, hr⟩
                obtain ⟨hc, hall⟩ := (ih hc).mp ⟨slots, hr⟩
                refine ⟨?_, ⟨rfl, by simp [InstKind.isAlloc]⟩, hall⟩
                simp only [InstKind.isArg, if_true]
                omega
              · rintro ⟨hc, -, hall⟩
                simp only [InstKind.isArg, if_true] at hc
                have hn' : n + 1 < UInt32.size := by omega
                obtain ⟨slots, hr⟩ := (ih hn').mpr ⟨by omega, hall⟩
                exact ⟨slots, _, ⟨hn', rfl⟩, hr⟩
          | _ => simp [hk, ih hn, InstKind.isAlloc, InstKind.isArg]

/-- The slots of a block are counted when all its instructions are there, every stack slot has a type
with values and the number of its arguments has 32 bits. -/
theorem Slots.exists_ofBlock_iff {b : Body} {is : List InstId} :
    (∃ slots, ofBlock b is = .ok slots) ↔ is.countP b.isArg < UInt32.size ∧ ∀ i ∈ is,
      (b.get? i).isSome ∧ (b.isAlloc i = true → (b.slotType? i).isSome) := by
  simpa [ofBlock] using @exists_ofRest_iff b 0 is (by decide)

/-! ## Sizes -/

namespace Body

variable {b : Body} {i : InstId}

def isCall (b : Body) (i : InstId) : Bool :=
  (b.get? i).any fun inst => inst.kind matches .call _ _

/-- What stands behind the size of a body once its calls are linked: a count of the stack slots and
two bytes for each, the operations, the end marker, and an index for each call. -/
def sizeBehindPrefix (b : Body) : Nat :=
  (Leb.unsigned (b.code.countP b.isAlloc)).length + 2 * b.code.countP b.isAlloc
    + (b.loweredAll.flatMap Op.bytes).length + 1 + 5 * b.code.countP b.isCall

theorem isPending_of_mem_pushOps {o : Op} (ho : o ∈ b.pushOps i) : o.isPending = false := by
  unfold pushOps at ho
  split at ho
  · cases ho
  · split at ho
    · obtain ⟨v, -, rfl⟩ : ∃ v, _ = some v ∧ Scalar.op v = o := by simpa using ho
      cases v <;> rfl
    · obtain rfl := List.mem_singleton.mp ho
      rfl
    · obtain rfl := List.mem_singleton.mp ho
      rfl
    · cases ho

theorem countP_isPending_flatMap_pushOps (b : Body) (is : List InstId) :
    (is.flatMap b.pushOps).countP Op.isPending = 0 := by
  rw [List.countP_eq_zero]
  intro o ho
  obtain ⟨i, -, ho⟩ := List.mem_flatMap.mp ho
  simp [isPending_of_mem_pushOps ho]

theorem countP_isPending_pushOps (b : Body) (i : InstId) :
    (b.pushOps i).countP Op.isPending = 0 := by
  simpa using b.countP_isPending_flatMap_pushOps [i]

/-- Of the operations of an instruction only that of a call waits for its index. -/
theorem countP_isPending_lowered {before : List InstId} (h : b.LowersAt before i) :
    (b.lowered i).countP Op.isPending = if b.isCall i then 1 else 0 := by
  obtain ⟨inst, hi, -, hl⟩ := h
  rw [lowered_eq hi]
  unfold Lowers at hl
  unfold loweredInst isCall
  cases hk : inst.kind with
  | call callee args =>
      rw [hk] at hl
      obtain ⟨target, ht⟩ := Option.isSome_iff_exists.mp hl.1
      simp [hi, hk, ht, List.countP_append, countP_isPending_flatMap_pushOps, Op.isPending]
  | add lhs rhs =>
      cases ht : inst.ty.valType? <;>
        simp [hi, hk, List.countP_append, countP_isPending_pushOps, Op.isPending]
  | _ => simp [hi, hk, List.countP_append, countP_isPending_pushOps, Op.isPending]

theorem LowersAll.countP_isPending {before is : List InstId} (h : b.LowersAll before is) :
    (is.flatMap b.lowered).countP Op.isPending = is.countP b.isCall := by
  induction is generalizing before with
  | nil => rfl
  | cons i is ih =>
      simp [List.countP_append, List.countP_cons, countP_isPending_lowered h.1, ih h.2,
        Nat.add_comm]

theorem Lowerable.countP_isPending (h : b.Lowerable) :
    b.loweredAll.countP Op.isPending = b.code.countP b.isCall :=
  LowersAll.countP_isPending h

end Body

theorem length_relocsFrom (pos : Nat) (os : List Op) :
    (relocsFrom pos os).length = os.countP Op.isPending := by
  induction os generalizing pos with
  | nil => rfl
  | cons o os ih => cases o <;> simp [relocsFrom, ih, Op.isPending, List.countP_cons]

theorem Slots.length_table (slots : Slots) : slots.table.length
    = (Leb.unsigned slots.localCount).length + 2 * slots.locals.length := by
  have hone : (Leb.unsigned 1).length = 1 := by rw [Leb.unsigned]; rfl
  simp [table, List.length_flatMap, hone, List.map_const', Nat.mul_comm]

theorem Body.linkedSize_eq {b : Body} {slots : Slots} (hs : Slots.ofBlock b b.code = .ok slots)
    (hl : b.Lowerable) : b.linkedSize slots = b.sizeBehindPrefix := by
  have hm := Slots.length_locals_ofBlock hs
  have hn := Slots.localCount_ofBlock hs hl.countP_lt
  have hc := Lowerable.countP_isPending hl
  unfold linkedSize sizeBehindPrefix blockRelocs blockBytes paddedWidth
  rw [length_relocsFrom, slots.length_table, hn, hm, hc]
  simp [Op.bytes, Op.immediate]
  omega

/-! ## Functions -/

/-- What the main block of a function of `arity` parameters has to meet. -/
structure Body.Acceptable (b : Body) (arity : Nat) : Prop where
  present : ∀ i ∈ b.code, (b.get? i).isSome
  distinct : b.code.Nodup
  args : b.code.countP b.isArg = arity
  allocs : ∀ i ∈ b.code, b.isAlloc i = true → (b.slotType? i).isSome
  instructions : ∀ before i after inst, b.code = before ++ i :: after → b.get? i = some inst →
    b.Permits before inst
  size : b.sizeBehindPrefix < UInt32.size

theorem Body.hasRoom {b : Body} {before after : List InstId} {i : InstId} {inst : Inst}
    (hn : b.code.countP b.takesSlot < UInt32.size) (hc : b.code = before ++ i :: after)
    (hi : b.get? i = some inst) (ht : inst.kind.takesSlot = true) : b.HasRoom before := by
  have hti : b.takesSlot i = true := by rw [takesSlot, hi, Option.any_some, ht]
  rw [hc, List.countP_append, List.countP_cons_of_pos hti] at hn
  unfold HasRoom
  omega

theorem Body.lowerable_iff {b : Body} :
    b.Lowerable ↔ b.code.Nodup ∧ b.code.countP b.takesSlot < UInt32.size ∧
      ∀ before i after, b.code = before ++ i :: after →
        ∃ inst, b.get? i = some inst ∧ b.Permits before inst := by
  have hall : b.Lowerable ↔ b.code.Nodup ∧ ∀ l i r, b.code = l ++ i :: r →
      ∃ inst, b.get? i = some inst ∧ b.Lowers l inst := lowersAll_iff List.nodup_nil
  constructor
  · intro h
    obtain ⟨hn, hl⟩ := hall.mp h
    refine ⟨hn, h.countP_lt, fun before i after hc => ?_⟩
    obtain ⟨inst, hi, hl⟩ := hl before i after hc
    exact ⟨inst, hi, (lowers_iff_permits.mp hl).1⟩
  · rintro ⟨hn, hr, hl⟩
    refine hall.mpr ⟨hn, fun before i after hc => ?_⟩
    obtain ⟨inst, hi, hp⟩ := hl before i after hc
    exact ⟨inst, hi, lowers_iff_permits.mpr ⟨hp, Body.hasRoom hr hc hi⟩⟩

/-- Generation yields code exactly for a function type with an entry and a body whose block is
acceptable. The slots of the block are counted in 32 bits, which only a block of all `2 ^ 32` ids can
exceed. -/
theorem exists_generateFunction_iff {id : DeclId} {d : Decl} :
    (∃ fc, generateFunction id d = .ok fc) ↔ ∃ s b, d.signature? = some s ∧ s.Mapped ∧
      d.body? = some b ∧ b.Acceptable s.params.length ∧ b.code.countP b.takesSlot < UInt32.size := by
  constructor
  · rintro ⟨fc, h⟩
    obtain ⟨s, b, slots, hg⟩ := generateFunction_eq_ok_iff.mp h
    obtain ⟨-, hslots⟩ := Slots.exists_ofBlock_iff.mp ⟨slots, hg.counted⟩
    obtain ⟨hn, hr, hlow⟩ := Body.lowerable_iff.mp hg.lowerable
    refine ⟨s, b, hg.signature, Signature.entry_snd_eq_none_iff.mp hg.typed, hg.body, ?_, hr⟩
    refine ⟨fun i hi => (hslots i hi).1, hn, ?_, fun i hi => (hslots i hi).2, ?_, ?_⟩
    · rw [← Slots.args_ofBlock hg.counted, hg.args]
    · intro before i after inst hc hi
      obtain ⟨inst', hi', hp⟩ := hlow before i after hc
      rw [hi] at hi'
      exact Option.some.inj hi' ▸ hp
    · rw [← Body.linkedSize_eq hg.counted hg.lowerable]
      exact hg.size
  · rintro ⟨s, b, hs, hm, hb, ha, hr⟩
    have hargs : b.code.countP b.isArg < UInt32.size :=
      Nat.lt_of_le_of_lt (b.countP_isArg_le b.code) hr
    obtain ⟨slots, hslots⟩ := Slots.exists_ofBlock_iff.mpr ⟨hargs, fun i hi =>
      ⟨ha.present i hi, ha.allocs i hi⟩⟩
    have hlow : b.Lowerable := by
      refine Body.lowerable_iff.mpr ⟨ha.distinct, hr, ?_⟩
      intro before i after hc
      obtain ⟨inst, hi⟩ := Option.isSome_iff_exists.mp (ha.present i (by simp [hc]))
      exact ⟨inst, hi, ha.instructions before i after inst hc hi⟩
    refine ⟨_, generateFunction_eq_ok_iff.mpr ⟨s, b, slots, hs,
      Signature.entry_snd_eq_none_iff.mpr hm, hb, hslots, ?_, hlow, ?_, rfl⟩⟩
    · rw [Slots.args_ofBlock hslots, ha.args]
    · rw [Body.linkedSize_eq hslots hlow]
      exact ha.size

end WasmLowering
