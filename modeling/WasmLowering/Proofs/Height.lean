import WasmLowering.Proofs.Delivery
import WasmLowering.Proofs.Splits
import WasmLowering.Proofs.TypeEntry

/-!
# The height of the stack

An operation needs what it takes on the stack. Behind a generated function exactly its results are
left when all instructions together take as many results as are left for them, and none of them
takes more than the instructions before it have left.
-/

namespace WasmLowering

/-! ## Operations -/

/-- How many entries an operation takes from the stack and how many it leaves there; nothing is
known of a callee that is given by its index only. -/
def Op.effect? (sig : DeclId → Signature) : Op → Option (Nat × Nat)
  | .localGet _ | .i32Const _ | .i64Const _ | .f32Const _ | .f64Const _ => some (0, 1)
  | .localSet _ => some (1, 0)
  | .add _ => some (2, 1)
  | .callReloc target => some ((sig target).params.length, (sig target).resultCount)
  | .call _ => none
  | .endMark => some (0, 0)

/-- The height of the stack behind the operations, unless one of them takes more than there is. -/
def stackHeight (sig : DeclId → Signature) (height : Nat) : List Op → Option Nat
  | [] => some height
  | o :: os => do
    let (takes, leaves) ← o.effect? sig
    if takes ≤ height then stackHeight sig (height - takes + leaves) os else none

/-! ## Blocks -/

namespace Body

variable (b : Body)

/-- How many results an instruction takes from the stack. -/
def taken (i : InstId) : Nat := (b.takes i).countP b.hasResult

/-- How many results an instruction adds to the stack; a load through a result adds none. -/
def left (i : InstId) : Nat :=
  if b.isLoad i then (b.uses i).countP (fun o => !b.hasResult o) else (b.produced i).length

/-- The results that were left before suffice for every instruction, and in the end all of them have
been taken. -/
structure Balanced : Prop where
  enough : ∀ before i after, b.code = before ++ i :: after →
    (before.map b.taken).sum + b.taken i ≤ (before.map b.left).sum
  even : (b.code.map b.taken).sum = (b.code.map b.left).sum

/-- The block returns once, at its end, with a value if there is one to return. -/
def ReturnsOnce (s : Signature) : Prop :=
  ∃ front last inst, b.code = front ++ [last] ∧ (∀ i ∈ front, b.isReturn i = false) ∧
    b.get? last = some inst ∧
    if s.ret.isVoid then inst.kind = .retVoid else ∃ operand, inst.kind = .ret operand

/-- If the instruction is a call, then its callee has as many parameters as it is given arguments,
and a result if the call has. -/
def CallFits (sig : DeclId → Signature) (i : InstId) : Prop :=
  ∀ inst callee args target, b.get? i = some inst → inst.kind = .call callee args →
    b.callee? callee = some target →
    (sig target).params.length = args.length ∧ (sig target).ret.isVoid = inst.ty.isVoid

end Body

namespace Body

variable {b : Body} (sig : DeclId → Signature) {pre : List InstId} {i : InstId}

/-! ## Operands -/

theorem exists_push (hp : b.Pushes pre i) (hk : b.IsOperand i) (hr : b.hasResult i = false) :
    ∃ o, b.pushOps i = [o] ∧ o.effect? sig = some (0, 1) := by
  rcases hk with hl | ht | h
  · obtain ⟨v, -, ho⟩ := symbol_of_isLiteral hl hp
    exact ⟨v.op, ho, by cases v <;> rfl⟩
  · exact ⟨_, (symbol_of_takesSlot ht).2, rfl⟩
  · rw [hr] at h
    cases h

/-- All operands are pushed, except the results, which are there already. -/
theorem stackHeight_pushOps (n : Nat) (is : List InstId) (os : List Op)
    (hp : ∀ o ∈ is, b.Pushes pre o) (hk : ∀ o ∈ is, b.IsOperand o) :
    stackHeight sig n (is.flatMap b.pushOps ++ os)
      = stackHeight sig (n + is.countP fun o => !b.hasResult o) os := by
  induction is generalizing n with
  | nil => rfl
  | cons i is ih =>
      obtain ⟨hpi, hps⟩ := List.forall_mem_cons.mp hp
      obtain ⟨hki, hks⟩ := List.forall_mem_cons.mp hk
      have hrec := fun n => ih n hps hks
      cases hr : b.hasResult i with
      | true => simp [pushOps_of_hasResult hr, hr, hrec]
      | false =>
          obtain ⟨o, ho, he⟩ := exists_push sig hpi hki hr
          simp [ho, stackHeight, he, hrec, hr, Nat.add_assoc, Nat.add_comm 1]

theorem length_eq_countP_hasResult (is : List InstId) :
    is.length = is.countP b.hasResult + is.countP fun o => !b.hasResult o := by
  simpa using List.length_eq_countP_add_countP (l := is) b.hasResult

/-- An operation that takes all operands takes the results among them, which have to be there, and
the others, which have just been pushed. -/
theorem stackHeight_operands (n : Nat) (is : List InstId) (o : Op) (os : List Op) {k : Nat}
    (hp : ∀ o ∈ is, b.Pushes pre o) (hk : ∀ o ∈ is, b.IsOperand o)
    (he : o.effect? sig = some (is.length, k)) :
    stackHeight sig n (is.flatMap b.pushOps ++ o :: os) = if is.countP b.hasResult ≤ n
      then stackHeight sig (n - is.countP b.hasResult + k) os else none := by
  have hlen := b.length_eq_countP_hasResult is
  rw [stackHeight_pushOps sig n is _ hp hk]
  simp only [stackHeight, he, Option.bind_eq_bind, Option.bind_some]
  by_cases hn : is.countP b.hasResult ≤ n
  · rw [if_pos (by omega), if_pos hn]
    congr 1
    omega
  · rw [if_neg (by omega), if_neg hn]

/-! ## Instructions -/

/-- An instruction that does not return goes on when the results that it takes are there. -/
theorem stackHeight_lowered (n : Nat) (os : List Op) (hl : b.LowersAt pre i)
    (hk : ∀ o ∈ b.uses i, b.IsOperand o)
    (hc : b.CallFits sig i) (hr : b.isReturn i = false) :
    stackHeight sig n (b.lowered i ++ os) =
      if b.taken i ≤ n then stackHeight sig (n - b.taken i + b.left i) os else none := by
  obtain ⟨inst, hi, -, hl⟩ := hl
  unfold Lowers at hl
  unfold taken left
  rw [uses_eq hi] at hk ⊢
  rw [isReturn_eq hi] at hr
  rw [lowered_eq hi, loweredInst, takes_eq hi, isLoad_eq hi, produced_eq hi]
  cases hkind : inst.kind with
  | load ptr =>
      simp only [hkind] at hl
      have hpush := stackHeight_pushOps sig n [ptr] os (by simpa using hl)
        (by simpa [hkind, InstKind.uses] using hk)
      simpa [InstKind.takes, InstKind.isLoad, InstKind.uses] using hpush
  | store ptr value =>
      simp only [hkind] at hl
      have hop := stackHeight_operands sig n [value] (.localSet (b.slotOf ptr)) os
        (by simpa using hl.2.2) (by simpa using hk value (by simp [hkind, InstKind.uses])) rfl
      simpa [InstKind.takes, InstKind.isLoad, Inst.hasResult, hkind] using hop
  | add lhs rhs =>
      simp only [hkind] at hl
      obtain ⟨t, ht⟩ := Option.isSome_iff_exists.mp hl.2.2
      have hop := stackHeight_operands sig n [lhs, rhs] (.add t) os
        (by simpa using ⟨hl.1, hl.2.1⟩) (by simpa [hkind, InstKind.uses] using hk) rfl
      simpa [InstKind.takes, InstKind.isLoad, Inst.hasResult, hkind, ht] using hop
  | call callee args =>
      simp only [hkind] at hl
      obtain ⟨target, ht⟩ := Option.isSome_iff_exists.mp hl.1
      obtain ⟨hn, hv⟩ := hc inst callee args target hi hkind ht
      have hop := stackHeight_operands sig n args (.callReloc target) os hl.2
        (by simpa [hkind, InstKind.uses] using hk) (by rw [Op.effect?, hn])
      cases hty : inst.ty.isVoid <;>
        simpa [InstKind.takes, InstKind.isLoad, Inst.hasResult, hkind, ht, hty,
          Signature.resultCount, hv] using hop
  | arg _ | alloc | retVoid | dbgStmt _ _ =>
      simp [InstKind.takes, InstKind.isLoad, Inst.hasResult, hkind]
  | ret operand => simp [hkind, InstKind.isReturn] at hr
  | _ => simp [hkind] at hl

/-! ## Blocks -/

/-- Instructions that do not return run from the height `n` to the height `k` behind them. -/
theorem stackHeight_flatMap_lowered (n : Nat) {is : List InstId} (os : List Op) {k : Nat}
    (hl : b.LowersAll pre is) (hk : ∀ i ∈ is, ∀ o ∈ b.uses i, b.IsOperand o)
    (hc : ∀ i ∈ is, b.CallFits sig i) (hr : ∀ i ∈ is, b.isReturn i = false) :
    stackHeight sig n (is.flatMap b.lowered ++ os) = some k ↔
      (∀ before i after, is = before ++ i :: after →
        (before.map b.taken).sum + b.taken i ≤ n + (before.map b.left).sum) ∧
      stackHeight sig (n + (is.map b.left).sum - (is.map b.taken).sum) os = some k := by
  induction is generalizing n pre with
  | nil => simp
  | cons i is ih =>
      obtain ⟨hki, hks⟩ := List.forall_mem_cons.mp hk
      obtain ⟨hci, hcs⟩ := List.forall_mem_cons.mp hc
      obtain ⟨hri, hrs⟩ := List.forall_mem_cons.mp hr
      rw [List.flatMap_cons, List.append_assoc, stackHeight_lowered sig n _ hl.1 hki hci hri,
        forall_cons_eq_append_iff (P := fun before j =>
          (before.map b.taken).sum + b.taken j ≤ n + (before.map b.left).sum)]
      simp only [List.map_cons, List.sum_cons, List.map_nil, List.sum_nil, Nat.zero_add,
        Nat.add_zero]
      by_cases hn : b.taken i ≤ n
      · have hsub : ∀ x y : Nat, n - b.taken i + b.left i + x - y
            = n + (b.left i + x) - (b.taken i + y) := by omega
        have hle : ∀ x t y : Nat, x + t ≤ n - b.taken i + b.left i + y ↔
            b.taken i + x + t ≤ n + (b.left i + y) := by omega
        rw [if_pos hn, ih _ hl.2 hks hcs hrs, hsub]
        simp only [hle, hn, true_and]
      · simp [hn]

theorem sum_taken_le {is : List InstId} (h : ∀ before i after, is = before ++ i :: after →
    (before.map b.taken).sum + b.taken i ≤ (before.map b.left).sum) :
    (is.map b.taken).sum ≤ (is.map b.left).sum := by
  rcases List.eq_nil_or_concat is with rfl | ⟨before, i, rfl⟩
  · exact Nat.le_refl _
  · have hi := h before i [] (by simp)
    simp only [List.concat_eq_append, List.map_append, List.map_singleton, List.sum_append,
      List.sum_singleton]
    omega

theorem balanced_iff {front : List InstId} {last : InstId} (hc : b.code = front ++ [last])
    (hl : b.left last = 0) : b.Balanced ↔
      (∀ before i after, front = before ++ i :: after →
        (before.map b.taken).sum + b.taken i ≤ (before.map b.left).sum) ∧
      (front.map b.taken).sum + b.taken last = (front.map b.left).sum := by
  have hb : b.Balanced ↔ (∀ before i after, b.code = before ++ i :: after →
      (before.map b.taken).sum + b.taken i ≤ (before.map b.left).sum) ∧
      (b.code.map b.taken).sum = (b.code.map b.left).sum :=
    ⟨fun h => ⟨h.enough, h.even⟩, fun h => ⟨h.1, h.2⟩⟩
  rw [hb, hc, forall_append_singleton_iff (P := fun before i =>
    (before.map b.taken).sum + b.taken i ≤ (before.map b.left).sum)]
  simp only [List.map_append, List.map_singleton, List.sum_append, List.sum_singleton, hl,
    Nat.add_zero]
  constructor
  · rintro ⟨⟨hf, -⟩, he⟩
    exact ⟨hf, he⟩
  · rintro ⟨hf, he⟩
    exact ⟨⟨hf, Nat.le_of_eq he⟩, he⟩

/-! ## The end of a block -/

/-- What returns takes as many operands as there are results, and leaves nothing else. -/
theorem stackHeight_return {s : Signature} {inst : Inst} (hi : b.get? i = some inst)
    (hl : b.Lowers pre inst) (hk : ∀ o ∈ b.uses i, b.IsOperand o)
    (hr : if s.ret.isVoid then inst.kind = .retVoid else ∃ operand, inst.kind = .ret operand) :
    b.left i = 0 ∧ b.taken i ≤ s.resultCount ∧
      ∀ n, stackHeight sig n (b.lowered i ++ [.endMark])
        = some (n + (s.resultCount - b.taken i)) := by
  unfold Lowers at hl
  unfold taken left Signature.resultCount
  rw [uses_eq hi] at hk ⊢
  rw [lowered_eq hi, loweredInst, takes_eq hi, isLoad_eq hi, produced_eq hi]
  cases hv : s.ret.isVoid with
  | true =>
      have hkind : inst.kind = .retVoid := by simpa [hv] using hr
      simp [hkind, InstKind.isLoad, Inst.hasResult, InstKind.takes, stackHeight, Op.effect?]
  | false =>
      obtain ⟨operand, hkind⟩ : ∃ operand, inst.kind = .ret operand := by simpa [hv] using hr
      simp only [hkind] at hl
      refine ⟨by simp [hkind, InstKind.isLoad, Inst.hasResult], ?_, fun n => ?_⟩
      · exact List.countP_le_length.trans (by simp [hkind, InstKind.takes])
      · have hpush := stackHeight_pushOps sig n [operand] [.endMark] (by simpa using hl)
          (by simpa [hkind, InstKind.uses] using hk)
        simp only [List.flatMap_singleton] at hpush
        simp only [hkind, hpush, InstKind.takes, stackHeight, Op.effect?]
        cases hres : b.hasResult operand <;> simp [hres]

/-- A block that returns once ends with what is returned exactly when its results are balanced. -/
theorem stackHeight_loweredAll {s : Signature} (hl : b.Lowerable) (hr : b.ReturnsOnce s)
    (hk : b.HasOperands) (hc : ∀ i ∈ b.code, b.CallFits sig i) :
    stackHeight sig 0 (b.loweredAll ++ [.endMark]) = some s.resultCount ↔ b.Balanced := by
  obtain ⟨front, last, inst, hcode, hfront, hi, hlast⟩ := hr
  have hfl : b.LowersAll [] front := by
    unfold Lowerable at hl
    rw [hcode] at hl
    exact hl.left
  obtain ⟨inst', hi', -, hll⟩ := hl.lowersAt hcode
  obtain rfl : inst = inst' := Option.some.inj (hi.symm.trans hi')
  obtain ⟨hleft, htaken, hend⟩ :=
    stackHeight_return sig hi hll (hk last (by simp [hcode])) hlast
  have hrun := stackHeight_flatMap_lowered sig 0 (k := s.resultCount)
    (b.lowered last ++ [.endMark]) hfl
    (fun i hi => hk i (by simp [hcode, hi])) (fun i hi => hc i (by simp [hcode, hi])) hfront
  have hops : b.loweredAll = front.flatMap b.lowered ++ b.lowered last := by
    simp [loweredAll, hcode]
  rw [hops, List.append_assoc, hrun, hend, balanced_iff hcode hleft]
  simp only [Nat.zero_add, Option.some.injEq]
  refine and_congr_right fun hf => ?_
  have := sum_taken_le hf
  omega

/-! ## Results that are used once -/

/-- No load goes through a result. -/
def LoadsDirectly (b : Body) : Prop :=
  ∀ i ∈ b.code, b.isLoad i = true → ∀ o ∈ b.uses i, b.hasResult o = false

theorem left_eq (hl : b.LowersAt pre i)
    (hn : b.isLoad i = true → ∀ o ∈ b.uses i, b.hasResult o = false) :
    b.left i = if b.hasResult i then 1 else 0 := by
  obtain ⟨inst, hi, -, -⟩ := hl
  unfold left
  rw [uses_eq hi, isLoad_eq hi] at *
  rw [produced_eq hi, hasResult_eq hi]
  cases hkind : inst.kind with
  | load ptr => simp_all [InstKind.uses, InstKind.isLoad, Inst.hasResult]
  | _ => cases hr : inst.hasResult <;> simp [InstKind.isLoad]

theorem taken_eq (hl : b.LowersAt pre i)
    (hn : b.isLoad i = true → ∀ o ∈ b.uses i, b.hasResult o = false) :
    b.taken i = (b.uses i).countP b.hasResult := by
  obtain ⟨inst, hi, -, hl⟩ := hl
  unfold taken
  rw [uses_eq hi, isLoad_eq hi] at *
  rw [takes_eq hi]
  unfold Lowers at hl
  cases hkind : inst.kind with
  | load ptr => simp_all [InstKind.uses, InstKind.takes, InstKind.isLoad]
  | store ptr value =>
      rw [hkind] at hl
      simp [InstKind.uses, InstKind.takes, List.countP_cons, hasResult_of_takesSlot hl.2.1]
  | _ => simp [InstKind.uses, InstKind.takes]

theorem sum_left_eq {is : List InstId} (h : ∀ i ∈ is, b.left i = if b.hasResult i then 1 else 0) :
    (is.map b.left).sum = (is.filter b.hasResult).length := by
  rw [List.map_congr_left h, ← List.countP_eq_length_filter]
  clear h
  induction is with
  | nil => rfl
  | cons i is ih => rw [List.map_cons, List.sum_cons, ih, List.countP_cons, Nat.add_comm]

theorem sum_taken_eq {is : List InstId} (h : ∀ i ∈ is, b.taken i = (b.uses i).countP b.hasResult) :
    (is.map b.taken).sum = ((is.flatMap b.uses).filter b.hasResult).length := by
  rw [List.map_congr_left h, ← List.countP_eq_length_filter, List.countP_flatMap]
  rfl

/-- The results that are used up to an instruction stand before it. -/
theorem Lowerable.mem_of_uses {before after : List InstId} {o : InstId} (hl : b.Lowerable)
    (hc : b.code = before ++ i :: after) (ho : o ∈ (before ++ [i]).flatMap b.uses)
    (hr : b.hasResult o = true) : o ∈ before := by
  obtain ⟨j, hj, hoj⟩ := List.mem_flatMap.mp ho
  rcases List.mem_append.mp hj with hj | hj
  · obtain ⟨l, r, rfl⟩ := List.append_of_mem hj
    have hc : b.code = l ++ j :: (r ++ i :: after) := by simpa using hc
    exact List.mem_append_left _ ((hl.lowersAt hc).mem_of_uses hoj hr)
  · obtain rfl := List.mem_singleton.mp hj
    exact (hl.lowersAt hc).mem_of_uses hoj hr

theorem UsesOnce.nodup (hu : b.UsesOnce) (hl : b.Lowerable) :
    ((b.code.flatMap b.uses).filter b.hasResult).Nodup := by
  rw [List.nodup_iff_count_le_one]
  intro o
  by_cases ho : o ∈ (b.code.flatMap b.uses).filter b.hasResult
  · obtain ⟨hou, hr⟩ := List.mem_filter.mp ho
    obtain ⟨j, hj, hoj⟩ := List.mem_flatMap.mp hou
    obtain ⟨before, after, hc⟩ := List.append_of_mem hj
    have hoc : o ∈ b.code := by
      rw [hc]
      exact List.mem_append_left _ ((hl.lowersAt hc).mem_of_uses hoj hr)
    rw [List.count_filter hr, hu o hoc hr]
  · simp [List.count_eq_zero_of_not_mem ho]

/-- A block that uses every result once is balanced if no load goes through a result. -/
theorem UsesOnce.balanced (hu : b.UsesOnce) (hl : b.Lowerable) (hn : b.LoadsDirectly) :
    b.Balanced := by
  have hat : ∀ i ∈ b.code, ∃ pre, b.LowersAt pre i := by
    intro i hi
    obtain ⟨before, after, hc⟩ := List.append_of_mem hi
    exact ⟨before, hl.lowersAt hc⟩
  have hleft : ∀ is ⊆ b.code, (is.map b.left).sum = (is.filter b.hasResult).length :=
    fun is hs => sum_left_eq fun i hi =>
      have ⟨_, hi'⟩ := hat i (hs hi)
      left_eq hi' (hn i (hs hi))
  have htaken : ∀ is ⊆ b.code, (is.map b.taken).sum
      = ((is.flatMap b.uses).filter b.hasResult).length :=
    fun is hs => sum_taken_eq fun i hi =>
      have ⟨_, hi'⟩ := hat i (hs hi)
      taken_eq hi' (hn i (hs hi))
  have henough : ∀ before i after, b.code = before ++ i :: after →
      (before.map b.taken).sum + b.taken i ≤ (before.map b.left).sum := by
    intro before i after hc
    have hsub : ((before ++ [i]).flatMap b.uses).Sublist (b.code.flatMap b.uses) := by
      rw [hc]
      simp
    have hsum := htaken (before ++ [i]) (by simp [hc])
    rw [List.map_append, List.sum_append, List.map_singleton, List.sum_singleton] at hsum
    rw [hsum, hleft before (by simp [hc])]
    -- the results used so far are all different and stand before the instruction
    refine (((hu.nodup hl).sublist (hsub.filter _)).subperm ?_).length_le
    intro o ho
    obtain ⟨ho, hr⟩ := List.mem_filter.mp ho
    exact List.mem_filter.mpr ⟨hl.mem_of_uses hc ho hr, hr⟩
  refine ⟨henough, Nat.le_antisymm (sum_taken_le henough) ?_⟩
  rw [hleft _ (List.Subset.refl _), htaken _ (List.Subset.refl _)]
  refine ((hl.nodup.filter _).subperm ?_).length_le
  intro i hi
  obtain ⟨hi, hr⟩ := List.mem_filter.mp hi
  have hone := hu i hi hr
  exact List.mem_filter.mpr ⟨List.count_pos_iff.mp (by omega), hr⟩

end Body

/-! ## Functions -/

/-- A generated function that returns once and whose calls fit takes nothing from an empty stack and
ends with the results of its type exactly when the results of its instructions are balanced. They
are when each is used once and no load goes through one. -/
theorem stackHeight_generateFunction {id : DeclId} {d : Decl} {fc : FunctionCode} {s : Signature}
    {b : Body} (sig : DeclId → Signature) (h : generateFunction id d = .ok fc)
    (hs : d.signature? = some s) (hb : d.body? = some b) (hr : b.ReturnsOnce s)
    (ho : b.HasOperands) (hc : ∀ i ∈ b.code, b.CallFits sig i) :
    ∃ dec ft rest, DecodedBody.read fc.body fc.relocs = .ok dec ∧
      (Cursor.mk 0 fc.typeEntry).functionType = .ok (ft, rest) ∧
      ft.results.length = s.resultCount ∧
      (stackHeight sig 0 (dec.ops.map Prod.snd) = some ft.results.length ↔ b.Balanced) ∧
      (b.UsesOnce → b.LoadsDirectly → b.Balanced) := by
  obtain ⟨slots, hg⟩ := exists_generates h hs hb
  have hmapped := Signature.entry_snd_eq_none_iff.mp hg.typed
  have htype := Cursor.functionType_entry 0 [] hmapped hg.length_params_lt
  rw [List.append_nil] at htype
  refine ⟨_, _, _, hg.read, by rw [hg.code]; exact htype, hmapped.length_resultTypes, ?_,
    fun hu hn => hu.balanced hg.lowerable hn⟩
  rw [Op.map_snd_placed, hmapped.length_resultTypes]
  exact Body.stackHeight_loweredAll sig hg.lowerable hr ho hc

theorem stackHeight_generateFunction_settle :
    ∃ fc dec, generateFunction ⟨3⟩ .settle = .ok fc ∧
      DecodedBody.read fc.body fc.relocs = .ok dec ∧ Body.settle.Balanced ∧
      stackHeight (fun _ => ⟨[.int true 32, .int true 32], .int true 32⟩) 0
        (dec.ops.map Prod.snd) = some 1 := by
  obtain ⟨fc, hg⟩ := exists_generates_settle ⟨3⟩
  have h := generateFunction_eq_ok_iff.mpr ⟨_, _, _, hg⟩
  have hr : Body.settle.ReturnsOnce ⟨[.int true 32], .int true 32⟩ :=
    ⟨[⟨0⟩, ⟨1⟩, ⟨2⟩, ⟨3⟩, ⟨5⟩, ⟨7⟩], ⟨8⟩, _, rfl, by decide, rfl, ⟨7⟩, rfl⟩
  have ho : Body.settle.HasOperands := by
    unfold Body.HasOperands Body.IsOperand
    decide
  have hc : ∀ i ∈ Body.settle.code,
      Body.settle.CallFits (fun _ => ⟨[.int true 32, .int true 32], .int true 32⟩) i := by
    intro i hi inst callee args target hget hk ht
    have hi : i = ⟨0⟩ ∨ i = ⟨1⟩ ∨ i = ⟨2⟩ ∨ i = ⟨3⟩ ∨ i = ⟨5⟩ ∨ i = ⟨7⟩ ∨ i = ⟨8⟩ := by
      simpa [Body.settle] using hi
    rcases hi with rfl | rfl | rfl | rfl | rfl | rfl | rfl <;> cases hget <;> cases hk
    exact ⟨rfl, rfl⟩
  have hu : Body.settle.UsesOnce := by
    unfold Body.UsesOnce
    decide
  have hn : Body.settle.LoadsDirectly := by
    unfold Body.LoadsDirectly
    decide
  obtain ⟨dec, ft, rest, hread, -, hft, hheight, hbal⟩ :=
    stackHeight_generateFunction _ h rfl rfl hr ho hc
  have hb := hbal hu hn
  rw [hft] at hheight
  exact ⟨fc, dec, h, hread, hb, hheight.mpr hb⟩

/-! ## A result that is used twice -/

/-- Adds a value that was loaded once to itself. -/
def Body.doubled : Body where
  insts := #[
    ⟨.ptr (.int true 32), .alloc, .synthetic⟩,
    ⟨.int true 32, .load ⟨0⟩, .synthetic⟩,
    ⟨.int true 32, .add ⟨1⟩ ⟨1⟩, .synthetic⟩,
    ⟨.noReturn, .ret ⟨2⟩, .synthetic⟩]
  code := [⟨0⟩, ⟨1⟩, ⟨2⟩, ⟨3⟩]

def Decl.doubled : Decl := .function "doubled" ⟨[], .int true 32⟩ .doubled

theorem exists_generates_doubled (id : DeclId) :
    ∃ fc, Generates id .doubled ⟨[], .int true 32⟩ .doubled ⟨0, [.i32]⟩ fc := by
  refine ⟨_, rfl, ?_, rfl, rfl, rfl, ?_, ?_, rfl⟩
  · decide +kernel
  · refine ⟨?alloc, ?load, ?add, ?ret, trivial⟩
    case alloc => exact ⟨_, rfl, by decide, show Body.doubled.HasRoom [] by decide⟩
    case load => exact ⟨_, rfl, by decide, ⟨_, rfl, .inr ⟨rfl, by decide⟩⟩⟩
    case add =>
        exact ⟨_, rfl, by decide, ⟨_, rfl, .inr ⟨rfl, by decide⟩⟩,
          ⟨_, rfl, .inr ⟨rfl, by decide⟩⟩, rfl⟩
    case ret => exact ⟨_, rfl, by decide, ⟨_, rfl, .inr ⟨rfl, by decide⟩⟩⟩
  · decide +kernel

theorem exists_stackHeight_eq_none :
    ∃ fc dec, generateFunction ⟨0⟩ .doubled = .ok fc ∧
      DecodedBody.read fc.body fc.relocs = .ok dec ∧
      Body.doubled.ReturnsOnce ⟨[], .int true 32⟩ ∧ Body.doubled.HasOperands ∧
      dec.ops.map Prod.snd = [.localGet 0, .add .i32, .endMark] ∧
      ∀ sig, (∀ i ∈ Body.doubled.code, Body.doubled.CallFits sig i) ∧
        stackHeight sig 0 (dec.ops.map Prod.snd) = none := by
  obtain ⟨fc, hg⟩ := exists_generates_doubled ⟨0⟩
  have hops : Body.doubled.loweredAll ++ [.endMark] = [.localGet 0, .add .i32, .endMark] := by
    decide +kernel
  refine ⟨fc, _, generateFunction_eq_ok_iff.mpr ⟨_, _, _, hg⟩, hg.read, ?_, ?_,
    Op.map_snd_placed.trans hops, fun sig => ⟨?_, ?_⟩⟩
  · exact ⟨[⟨0⟩, ⟨1⟩, ⟨2⟩], ⟨3⟩, _, rfl, by decide, rfl, ⟨2⟩, rfl⟩
  · unfold Body.HasOperands Body.IsOperand
    decide
  · intro i hi inst callee args target hget hk
    have hi : i = ⟨0⟩ ∨ i = ⟨1⟩ ∨ i = ⟨2⟩ ∨ i = ⟨3⟩ := by simpa [Body.doubled] using hi
    rcases hi with rfl | rfl | rfl | rfl <;> cases hget <;> cases hk
  · rw [Op.map_snd_placed, hops]
    rfl

end WasmLowering
