import WasmLowering.Proofs.Decoding
import WasmLowering.Proofs.Discipline

/-!
# Which operands reach an instruction

Literals, arguments and stack slots are pushed where they are used, results where they are produced.
Followed through the stack, the operands of every instruction reach it in order exactly when the
block uses its results like a stack and loads through no result.
-/

namespace WasmLowering

/-- What an entry of the stack stands for. -/
inductive Symbol where
  | literal (value : Scalar)
  | slot (n : Nat)
  | result (i : InstId)
deriving DecidableEq, Inhabited, Repr

namespace InstKind

/-- All operands of an instruction, the callee apart. -/
def uses : InstKind → List InstId
  | load ptr => [ptr]
  | store ptr value => [ptr, value]
  | add lhs rhs => [lhs, rhs]
  | call _ args => args
  | ret operand => [operand]
  | _ => []

def isLoad : InstKind → Bool
  | load _ => true
  | _ => false

end InstKind

namespace Body

variable (b : Body)

def uses (i : InstId) : List InstId := ((b.get? i).map fun inst => inst.kind.uses).getD []

def isLoad (i : InstId) : Bool := (b.get? i).any fun inst => inst.kind.isLoad

/-- A literal, an argument, a stack slot or a result. -/
def IsOperand (i : InstId) : Prop :=
  b.isLiteral i = true ∨ b.takesSlot i = true ∨ b.hasResult i = true

def HasOperands : Prop := ∀ i ∈ b.code, ∀ o ∈ b.uses i, b.IsOperand o

/-- Every result is an operand of one instruction, once. -/
def UsesOnce : Prop := ∀ i ∈ b.code, b.hasResult i = true → (b.code.flatMap b.uses).count i = 1

def symbol (i : InstId) : Symbol :=
  match b.get? i with
  | none => .result i
  | some inst =>
    match inst.kind with
    | .constant l => ((l.scalar? inst.ty).map Symbol.literal).getD (.result i)
    | .alloc | .arg _ => .slot (b.slotOf i)
    | _ => .result i

/-- The operands that an instruction names and takes from the stack or writes to. -/
def named (i : InstId) : List Symbol := if b.isLoad i then [] else (b.uses i).map b.symbol

/-! ## Following the operations -/

/-- Takes `n` entries from a stack whose top stands first, the deepest of them first. -/
def pop? (n : Nat) (stack : List Symbol) : Option (List Symbol × List Symbol) :=
  if n ≤ stack.length then some ((stack.take n).reverse, stack.drop n) else none

/-- What a load pushes is its result. -/
def source (i : InstId) (x : Symbol) : Symbol := if b.isLoad i then .result i else x

/-- The stack behind one operation of the instruction `i`, and what the operation took. -/
def traceOp (i : InstId) (stack : List Symbol) : Op → Option (List Symbol × List Symbol)
  | .localGet n => some (b.source i (.slot n) :: stack, [])
  | .i32Const v => some (b.source i (.literal (.i32 v)) :: stack, [])
  | .i64Const v => some (b.source i (.literal (.i64 v)) :: stack, [])
  | .f32Const v => some (b.source i (.literal (.f32 v)) :: stack, [])
  | .f64Const v => some (b.source i (.literal (.f64 v)) :: stack, [])
  | .localSet n => do
    let (xs, rest) ← pop? 1 stack
    return (rest, .slot n :: xs)
  | .add _ => do
    let (xs, rest) ← pop? 2 stack
    return (.result i :: rest, xs)
  | .callReloc _ => do
    let (xs, rest) ← pop? (b.takes i).length stack
    return ((b.produced i).map Symbol.result ++ rest, xs)
  | .call _ | .endMark => none

def traceOps (i : InstId) (stack : List Symbol) : List Op → Option (List Symbol × List Symbol)
  | [] => some (stack, [])
  | o :: os => do
    let (stack, xs) ← b.traceOp i stack o
    let (stack, ys) ← traceOps i stack os
    return (stack, xs ++ ys)

/-- What a return takes is what lies on top behind its operations. -/
def traceInst (stack : List Symbol) (i : InstId) : Option (List Symbol × List Symbol) := do
  let (stack, xs) ← b.traceOps i stack (b.lowered i)
  if b.isReturn i then
    let (ys, rest) ← pop? (b.takes i).length stack
    return (rest, ys)
  else return (stack, xs)

/-- What each of the instructions takes, when it takes anything. -/
def delivered (stack : List Symbol) : List InstId → Option (List (List Symbol))
  | [] => some []
  | i :: is => do
    let (stack, xs) ← b.traceInst stack i
    return xs :: (← delivered stack is)

/-- No load goes through a result, and results are used like a stack. -/
structure KeepsOrder : Prop where
  loads : ∀ i ∈ b.code, b.isLoad i = true → ∀ o ∈ b.uses i, b.hasResult o = false
  ordered : ∃ final, b.Stacks [] b.code final

end Body

namespace Body

variable {b : Body} {pre pending : List InstId} {stack rest xs ys : List Symbol} {i j : InstId}

theorem pop?_eq_some_iff {n : Nat} :
    pop? n stack = some (xs, rest) ↔ xs.length = n ∧ stack = xs.reverse ++ rest := by
  unfold pop?
  constructor
  · intro h
    split at h
    · next hn =>
      simp only [Option.some.injEq, Prod.mk.injEq] at h
      obtain ⟨rfl, rfl⟩ := h
      simp [hn]
    · cases h
  · rintro ⟨rfl, rfl⟩
    simp [List.take_left', List.drop_left']

/-! ## Operands -/

variable {inst : Inst}

theorem uses_eq (h : b.get? i = some inst) : b.uses i = inst.kind.uses := by
  rw [uses, h]; rfl

theorem isLoad_eq (h : b.get? i = some inst) : b.isLoad i = inst.kind.isLoad := by
  rw [isLoad, h]; rfl

theorem isReturn_eq (h : b.get? i = some inst) : b.isReturn i = inst.kind.isReturn := by
  rw [isReturn, h]; rfl

theorem symbol_of_hasResult (h : b.hasResult i = true) : b.symbol i = .result i := by
  unfold hasResult at h
  unfold symbol
  cases hi : b.get? i with
  | none => rfl
  | some inst =>
      rw [hi] at h
      cases hk : inst.kind <;> simp_all [Inst.hasResult]

theorem symbol_of_takesSlot (h : b.takesSlot i = true) :
    b.symbol i = .slot (b.slotOf i) ∧ b.pushOps i = [.localGet (b.slotOf i)] := by
  unfold takesSlot at h
  unfold symbol pushOps
  cases hi : b.get? i with
  | none => simp [hi] at h
  | some inst =>
      rw [hi] at h
      cases hk : inst.kind <;> simp_all [InstKind.takesSlot]

theorem symbol_of_isLiteral (h : b.isLiteral i = true) (hp : b.Pushes pre i) :
    ∃ v : Scalar, b.symbol i = .literal v ∧ b.pushOps i = [v.op] := by
  obtain ⟨inst, hi, hp⟩ := hp
  obtain ⟨hc, hv⟩ : inst.kind.isConstant = true ∧ inst.ty.isVoid = false := by
    simpa [isLiteral, hi] using h
  rcases hp with ⟨l, os, hk, ho⟩ | ⟨hn, -⟩
  · obtain ⟨v, hs, -⟩ := Literal.exists_scalar ho hv
    refine ⟨v, ?_, ?_⟩
    · simp [symbol, hi, hk, hs]
    · simp [pushOps, hi, hk, hs]
  · rw [hc] at hn
    cases hn

theorem exists_traceOp (hp : b.Pushes pre i) (hk : b.IsOperand i)
    (hr : b.hasResult i = false) :
    (∀ k, b.symbol i ≠ .result k) ∧ ∃ o, b.pushOps i = [o] ∧
      ∀ j stack, b.traceOp j stack o = some (b.source j (b.symbol i) :: stack, []) := by
  rcases hk with hl | ht | h
  · obtain ⟨v, hs, ho⟩ := symbol_of_isLiteral hl hp
    refine ⟨by simp [hs], v.op, ho, ?_⟩
    intro j stack
    rw [hs]
    cases v <;> rfl
  · obtain ⟨hs, ho⟩ := symbol_of_takesSlot ht
    refine ⟨by simp [hs], _, ho, ?_⟩
    intro j stack
    rw [hs]
    rfl
  · rw [hr] at h
    cases h

theorem traceOps_cons {o : Op} {os : List Op} (h : b.traceOp i stack o = some (rest, [])) :
    b.traceOps i stack (o :: os) = b.traceOps i rest os := by
  rw [traceOps, h]
  cases hos : b.traceOps i rest os with
  | none => simp [hos]
  | some p => simp [hos]

theorem traceOps_pushOps (stack : List Symbol) {is : List InstId} (os : List Op)
    (hp : ∀ i ∈ is, b.Pushes pre i) (hk : ∀ i ∈ is, b.IsOperand i)
    (hj : b.isLoad j = false) :
    b.traceOps j stack (is.flatMap b.pushOps ++ os)
      = b.traceOps j (((is.filter fun i => !b.hasResult i).map b.symbol).reverse ++ stack) os := by
  induction is generalizing stack with
  | nil => rfl
  | cons i is ih =>
      have hrec := fun stack => ih stack (fun i hi => hp i (List.mem_cons_of_mem _ hi))
        (fun i hi => hk i (List.mem_cons_of_mem _ hi))
      cases hr : b.hasResult i with
      | true => simp [Body.pushOps_of_hasResult hr, hr, hrec]
      | false =>
          obtain ⟨-, o, ho, ht⟩ := exists_traceOp (hp i (List.mem_cons_self ..))
            (hk i (List.mem_cons_self ..)) hr
          have hs := ht j stack
          rw [show b.source j (b.symbol i) = b.symbol i by simp [source, hj]] at hs
          rw [List.flatMap_cons, ho, List.append_assoc, List.singleton_append, traceOps_cons hs,
            hrec]
          simp [hr]

/-! ## Taking the operands -/

theorem eq_of_map_symbol {is ws : List InstId}
    (hs : ∀ i ∈ is, b.hasResult i = false → ∀ k, b.symbol i ≠ .result k)
    (h : is.map b.symbol = ws.map Symbol.result) : is = ws ∧ ∀ i ∈ is, b.hasResult i = true := by
  induction is generalizing ws with
  | nil => exact ⟨(List.map_eq_nil_iff.mp h.symm).symm, by simp⟩
  | cons i is ih =>
      cases ws with
      | nil => cases h
      | cons k ws =>
          simp only [List.map_cons, List.cons.injEq] at h
          obtain ⟨rfl, ht⟩ := ih (fun i hi => hs i (List.mem_cons_of_mem _ hi)) h.2
          cases hr : b.hasResult i with
          | false => exact absurd h.1 (hs i (List.mem_cons_self ..) hr k)
          | true =>
              have hk := h.1
              rw [symbol_of_hasResult hr] at hk
              cases hk
              exact ⟨rfl, by simpa [hr] using ht⟩

/-- The right operands are taken from the pending results and what was pushed on them exactly when
they consume the pending results like a stack. -/
theorem pop?_eq_symbols_iff (pending : List InstId) (rest : List Symbol) {is : List InstId}
    (hs : ∀ i ∈ is, b.hasResult i = false → ∀ k, b.symbol i ≠ .result k) :
    pop? is.length (((is.filter fun i => !b.hasResult i).map b.symbol).reverse
        ++ (pending.map Symbol.result).reverse) = some (is.map b.symbol, rest)
      ↔ ∃ left, b.Consumes pending is left ∧ rest = (left.map Symbol.result).reverse := by
  rw [pop?_eq_some_iff]
  constructor
  · rintro ⟨-, he⟩
    have he : pending.map Symbol.result ++ (is.filter fun i => !b.hasResult i).map b.symbol
        = rest.reverse ++ is.map b.symbol := by
      simpa using congrArg List.reverse he
    have hlen := List.length_filter_le (fun i => !b.hasResult i) is
    obtain ⟨ws, hpend, his⟩ : ∃ ws, pending.map Symbol.result = rest.reverse ++ ws ∧
        is.map b.symbol = ws ++ (is.filter fun i => !b.hasResult i).map b.symbol := by
      rcases List.append_eq_append_iff.mp he with ⟨us, hr, hd⟩ | ⟨ws, hpend, his⟩
      · have hl := congrArg List.length hd
        simp only [List.length_append, List.length_map] at hl
        obtain rfl := List.length_eq_zero_iff.mp (show us.length = 0 by omega)
        exact ⟨[], by simpa using hr.symm, by simpa using hd.symm⟩
      · exact ⟨ws, hpend, his⟩
    obtain ⟨left, waiting, rfl, hleft, hws⟩ := List.map_eq_append_iff.mp hpend
    obtain ⟨is₁, is₂, rfl, h₁, h₂⟩ := List.map_eq_append_iff.mp his
    obtain ⟨rfl, hw⟩ := eq_of_map_symbol (fun i hi => hs i (List.mem_append_left _ hi))
      (h₁.trans hws.symm)
    refine ⟨left, ⟨is₁, is₂, rfl, rfl, hw, ?_⟩, by rw [hleft, List.reverse_reverse]⟩
    have hf : is₁.filter (fun i => !b.hasResult i) = [] := by
      rw [List.filter_eq_nil_iff]
      intro i hi
      simp [hw i hi]
    have hl := congrArg List.length h₂
    rw [List.filter_append, hf, List.nil_append, List.length_map, List.length_map] at hl
    intro i hi
    simpa using List.length_filter_eq_length_iff.mp hl.symm i hi
  · rintro ⟨left, ⟨waiting, direct, rfl, rfl, hw, hd⟩, rfl⟩
    have hf : (waiting ++ direct).filter (fun i => !b.hasResult i) = direct := by
      rw [List.filter_append, List.filter_eq_nil_iff.mpr (by intro i hi; simp [hw i hi]),
        List.filter_eq_self.mpr (by intro i hi; simp [hd i hi]), List.nil_append]
    have hm : waiting.map Symbol.result = waiting.map b.symbol :=
      List.map_congr_left fun i hi => (symbol_of_hasResult (hw i hi)).symm
    simp [hf, hm]

theorem traceOps_singleton {o : Op} : b.traceOps i stack [o] = b.traceOp i stack o := by
  rw [traceOps]
  cases b.traceOp i stack o with
  | none => rfl
  | some p => simp [traceOps]

/-- Behind the operations that push them, the right operands lie on top exactly when they consume
the pending results like a stack; `out` is what takes their place. -/
theorem exists_traceOps_pushOps (pending is : List InstId) (hp : ∀ o ∈ is, b.Pushes pre o)
    (hk : ∀ o ∈ is, b.IsOperand o)
    (hj : b.isLoad j = false) :
    ∃ stack, (∀ os, b.traceOps j (pending.map Symbol.result).reverse (is.flatMap b.pushOps ++ os)
        = b.traceOps j stack os) ∧
      ∀ out rest, (∃ tail, pop? is.length stack = some (is.map b.symbol, tail) ∧ out ++ tail = rest)
        ↔ ∃ left, b.Consumes pending is left ∧ rest = out ++ (left.map Symbol.result).reverse := by
  have hs : ∀ o ∈ is, b.hasResult o = false → ∀ k, b.symbol o ≠ .result k := fun o ho hr =>
    (exists_traceOp (hp o ho) (hk o ho) hr).1
  refine ⟨_, fun os => traceOps_pushOps _ os hp hk hj, ?_⟩
  intro out rest
  constructor
  · rintro ⟨tail, ht, rfl⟩
    obtain ⟨left, hc, rfl⟩ := (pop?_eq_symbols_iff pending tail hs).mp ht
    exact ⟨left, hc, rfl⟩
  · rintro ⟨left, hc, rfl⟩
    exact ⟨_, (pop?_eq_symbols_iff pending _ hs).mpr ⟨left, hc, rfl⟩, rfl⟩

/-- An instruction that gets its operands from a stack of results leaves a stack of results, and it
gets them exactly when it consumes them like a stack. -/
theorem traceInst_eq_named_iff (pending : List InstId) (rest : List Symbol)
    (hl : b.LowersAt pre i)
    (hk : ∀ o ∈ b.uses i, b.IsOperand o)
    (hn : b.isLoad i = true → ∀ o ∈ b.uses i, b.hasResult o = false) :
    b.traceInst (pending.map Symbol.result).reverse i = some (rest, b.named i)
      ↔ ∃ left, b.Consumes pending (b.takes i) left ∧
          rest = (b.produced i).map Symbol.result ++ (left.map Symbol.result).reverse := by
  obtain ⟨inst, hi, -, hl⟩ := hl
  unfold traceInst named
  unfold Body.Lowers at hl
  have hload := isLoad_eq hi
  rw [uses_eq hi] at hk hn ⊢
  rw [lowered_eq hi, isReturn_eq hi, takes_eq hi]
  unfold loweredInst
  cases hkind : inst.kind with
  | load ptr =>
      simp only [hkind] at hl hload
      simp only [hkind, InstKind.uses, List.mem_singleton, forall_eq] at hk hn
      obtain ⟨-, o, ho, ht⟩ := exists_traceOp hl hk (hn hload)
      simp [ho, traceOps_singleton, ht, source, hload, produced_eq hi, Inst.hasResult, hkind,
        InstKind.isReturn, InstKind.isLoad, InstKind.takes, eq_comm]
  | store ptr value =>
      simp only [hkind] at hl hload
      obtain ⟨stack, htrace, hpop⟩ := exists_traceOps_pushOps pending [value]
        (by simpa using hl.2.2) (by simpa using hk value (by simp [hkind, InstKind.uses])) hload
      simp only [List.flatMap_singleton] at htrace
      simp only [htrace, traceOps_singleton, traceOp]
      simpa [Option.bind_eq_some_iff, (symbol_of_takesSlot hl.2.1).1, produced_eq hi,
        Inst.hasResult, hkind, InstKind.isReturn, hload, InstKind.isLoad, InstKind.takes,
        InstKind.uses] using hpop [] rest
  | add lhs rhs =>
      simp only [hkind] at hl hload
      obtain ⟨t, ht⟩ := Option.isSome_iff_exists.mp hl.2.2
      obtain ⟨stack, htrace, hpop⟩ := exists_traceOps_pushOps pending [lhs, rhs]
        (by simpa using ⟨hl.1, hl.2.1⟩) (by simpa [hkind, InstKind.uses] using hk) hload
      simp only [List.flatMap_cons, List.flatMap_nil, List.append_nil] at htrace
      simp only [ht, Option.map_some, Option.toList_some, htrace, traceOps_singleton, traceOp]
      simpa [Option.bind_eq_some_iff, produced_eq hi, Inst.hasResult, hkind, InstKind.isReturn,
        hload, InstKind.isLoad, InstKind.takes, InstKind.uses] using hpop [.result i] rest
  | call callee args =>
      simp only [hkind] at hl hload
      obtain ⟨target, ht⟩ := Option.isSome_iff_exists.mp hl.1
      obtain ⟨stack, htrace, hpop⟩ := exists_traceOps_pushOps pending args hl.2
        (by simpa [hkind, InstKind.uses] using hk) hload
      simp only [ht, Option.map_some, Option.toList_some, htrace, traceOps_singleton, traceOp,
        takes_eq hi]
      simpa [Option.bind_eq_some_iff, hkind, InstKind.isReturn, hload, InstKind.isLoad,
        InstKind.takes, InstKind.uses] using hpop ((b.produced i).map .result) rest
  | ret operand =>
      simp only [hkind] at hl hload
      obtain ⟨stack, htrace, hpop⟩ := exists_traceOps_pushOps pending [operand]
        (by simpa using hl) (by simpa [hkind, InstKind.uses] using hk) hload
      have htrace := htrace []
      simp only [List.flatMap_singleton, List.append_nil] at htrace
      simp only [htrace, traceOps]
      simpa [Option.bind_eq_some_iff, produced_eq hi, Inst.hasResult, hkind, InstKind.isReturn,
        hload, InstKind.isLoad, InstKind.takes, InstKind.uses] using hpop [] rest
  | arg _ | alloc | retVoid | dbgStmt _ _ =>
      simp [hload, produced_eq hi, Inst.hasResult, hkind, InstKind.isReturn, InstKind.isLoad,
        InstKind.uses, InstKind.takes, traceOps, pop?, eq_comm]
  | _ => simp [hkind] at hl

/-! ## Blocks without loads through results -/

theorem delivered_cons_eq_some_iff {is : List InstId} {xss : List (List Symbol)} :
    b.delivered stack (i :: is) = some (xs :: xss)
      ↔ ∃ rest, b.traceInst stack i = some (rest, xs) ∧ b.delivered rest is = some xss := by
  simp [delivered, Option.bind_eq_some_iff]

theorem delivered_eq_named_iff (pending : List InstId) {is : List InstId} (hl : b.LowersAll pre is)
    (hk : ∀ i ∈ is, ∀ o ∈ b.uses i, b.IsOperand o)
    (hn : ∀ i ∈ is, b.isLoad i = true → ∀ o ∈ b.uses i, b.hasResult o = false) :
    b.delivered (pending.map Symbol.result).reverse is = some (is.map b.named)
      ↔ ∃ final, b.Stacks pending is final := by
  induction is generalizing pre pending with
  | nil => simp [delivered, Stacks]
  | cons i is ih =>
      have hstep := fun rest => traceInst_eq_named_iff pending rest hl.1
        (hk i (List.mem_cons_self ..)) (hn i (List.mem_cons_self ..))
      have hrec := fun pending => ih pending hl.2
        (fun i hi => hk i (List.mem_cons_of_mem _ hi))
        (fun i hi => hn i (List.mem_cons_of_mem _ hi))
      have hstack : ∀ left : List InstId, (b.produced i).map Symbol.result
          ++ (left.map Symbol.result).reverse
          = ((left ++ b.produced i).map Symbol.result).reverse := by
        intro left
        unfold produced
        split <;> simp
      rw [List.map_cons, delivered_cons_eq_some_iff]
      constructor
      · rintro ⟨rest, ht, hd⟩
        obtain ⟨left, hc, rfl⟩ := (hstep rest).mp ht
        rw [hstack] at hd
        obtain ⟨final, hs⟩ := (hrec _).mp hd
        exact ⟨final, left, hc, hs⟩
      · rintro ⟨final, left, hc, hs⟩
        refine ⟨_, (hstep _).mpr ⟨left, hc, rfl⟩, ?_⟩
        rw [hstack]
        exact (hrec _).mpr ⟨final, hs⟩

/-! ## Loads through results -/

theorem eq_of_mem_traceOp {o : Op} (h : b.traceOp i stack o = some (rest, xs))
    (hx : Symbol.result j ∈ rest ++ xs) (hs : Symbol.result j ∉ stack) : j = i := by
  have hpush : ∀ x : Symbol, (∀ k, x ≠ .result k) →
      (b.source i x :: stack, []) = (rest, xs) → j = i := by
    intro x hx' he
    cases he
    unfold source at hx
    split at hx
    · simpa [hs] using hx
    · simp [hs, (hx' j).symm] at hx
  -- what is popped was on the stack
  have hpop : ∀ n ys tail, pop? n stack = some (ys, tail) →
      Symbol.result j ∉ ys ∧ Symbol.result j ∉ tail := by
    intro n ys tail hp
    obtain ⟨-, rfl⟩ := pop?_eq_some_iff.mp hp
    simpa using hs
  cases o with
  | localGet n => exact hpush _ (by simp) (Option.some.inj h)
  | i32Const v => exact hpush _ (by simp) (Option.some.inj h)
  | i64Const v => exact hpush _ (by simp) (Option.some.inj h)
  | f32Const v => exact hpush _ (by simp) (Option.some.inj h)
  | f64Const v => exact hpush _ (by simp) (Option.some.inj h)
  | localSet n =>
      simp only [traceOp, Option.bind_eq_bind, Option.bind_eq_some_iff, Option.pure_def,
        Option.some.injEq, Prod.mk.injEq, Prod.exists] at h
      obtain ⟨ys, tail, hp, rfl, rfl⟩ := h
      obtain ⟨hy, ht⟩ := hpop 1 ys tail hp
      simp [hy, ht] at hx
  | add t =>
      simp only [traceOp, Option.bind_eq_bind, Option.bind_eq_some_iff, Option.pure_def,
        Option.some.injEq, Prod.mk.injEq, Prod.exists] at h
      obtain ⟨ys, tail, hp, rfl, rfl⟩ := h
      obtain ⟨hy, ht⟩ := hpop 2 ys tail hp
      simpa [hy, ht] using hx
  | callReloc target =>
      simp only [traceOp, Option.bind_eq_bind, Option.bind_eq_some_iff, Option.pure_def,
        Option.some.injEq, Prod.mk.injEq, Prod.exists] at h
      obtain ⟨ys, tail, hp, rfl, rfl⟩ := h
      obtain ⟨hy, ht⟩ := hpop _ ys tail hp
      have hm : j ∈ b.produced i := by simpa [hy, ht] using hx
      unfold produced at hm
      split at hm
      · exact List.mem_singleton.mp hm
      · cases hm
  | call n => cases h
  | endMark => cases h

theorem eq_of_mem_traceOps {os : List Op} (h : b.traceOps i stack os = some (rest, xs))
    (hx : Symbol.result j ∈ rest ++ xs) (hs : Symbol.result j ∉ stack) : j = i := by
  induction os generalizing stack xs with
  | nil =>
      simp only [traceOps, Option.some.injEq, Prod.mk.injEq] at h
      obtain ⟨rfl, rfl⟩ := h
      exact absurd (by simpa using hx) hs
  | cons o os ih =>
      simp only [traceOps, Option.bind_eq_bind, Option.bind_eq_some_iff, Option.pure_def,
        Option.some.injEq, Prod.mk.injEq, Prod.exists] at h
      obtain ⟨mid, ys, ho, last, zs, hos, rfl, rfl⟩ := h
      by_cases hm : Symbol.result j ∈ mid ++ ys
      · exact eq_of_mem_traceOp ho hm hs
      · simp only [List.mem_append, not_or] at hm hx
        exact ih hos (by simp only [List.mem_append]; tauto) hm.1

theorem eq_of_mem_traceInst (h : b.traceInst stack i = some (rest, xs))
    (hx : Symbol.result j ∈ rest ++ xs) (hs : Symbol.result j ∉ stack) : j = i := by
  simp only [traceInst, Option.bind_eq_bind, Option.bind_eq_some_iff, Prod.exists] at h
  obtain ⟨mid, ys, hos, h⟩ := h
  split at h
  · simp only [Option.bind_eq_some_iff, Option.pure_def, Option.some.injEq, Prod.mk.injEq,
      Prod.exists] at h
    obtain ⟨zs, last, hp, rfl, rfl⟩ := h
    obtain ⟨-, rfl⟩ := pop?_eq_some_iff.mp hp
    refine eq_of_mem_traceOps hos ?_ hs
    simp only [List.mem_append, List.mem_reverse] at hx ⊢
    tauto
  · simp only [Option.pure_def, Option.some.injEq, Prod.mk.injEq] at h
    obtain ⟨rfl, rfl⟩ := h
    exact eq_of_mem_traceOps hos hx hs

/-- The result of an instruction without operations reaches nobody. -/
theorem notMem_delivered {is : List InstId} {xss : List (List Symbol)}
    (hlow : b.lowered j = []) (hret : b.isReturn j = false) (hs : Symbol.result j ∉ stack)
    (h : b.delivered stack is = some xss) : ∀ xs ∈ xss, Symbol.result j ∉ xs := by
  induction is generalizing stack xss with
  | nil =>
      cases h
      simp
  | cons i is ih =>
      cases xss with
      | nil => simp [delivered, Option.bind_eq_some_iff] at h
      | cons xs xss =>
          obtain ⟨rest, ht, hd⟩ := delivered_cons_eq_some_iff.mp h
          have hn : Symbol.result j ∉ rest ++ xs := by
            intro hx
            obtain rfl := eq_of_mem_traceInst ht hx hs
            simp only [traceInst, hlow, traceOps, hret] at ht
            simp_all
          simp only [List.mem_append, not_or] at hn
          intro ys hy
          rcases List.mem_cons.mp hy with rfl | hy
          · exact hn.2
          · exact ih hn.1 hd ys hy

theorem eq_load_of_isLoad (h : b.isLoad i = true) :
    ∃ inst ptr, b.get? i = some inst ∧ inst.kind = .load ptr := by
  unfold isLoad at h
  cases hi : b.get? i with
  | none => simp [hi] at h
  | some inst =>
      rw [hi] at h
      cases hk : inst.kind <;> simp_all [InstKind.isLoad]

theorem Pushes.mem (hp : b.Pushes pre i) (hr : b.hasResult i = true) : i ∈ pre := by
  obtain ⟨inst, hi, ⟨l, os, hk, -⟩ | ⟨-, hm⟩⟩ := hp
  · rw [hasResult_eq hi, Inst.hasResult, hk] at hr
    cases hr
  · exact hm

theorem LowersAt.mem_of_uses (hl : b.LowersAt pre j) (hij : i ∈ b.uses j)
    (hr : b.hasResult i = true) : i ∈ pre := by
  obtain ⟨inst, hj, -, hl⟩ := hl
  unfold Lowers at hl
  rw [uses, hj, Option.map_some, Option.getD_some] at hij
  cases hk : inst.kind with
  | load ptr =>
      simp only [hk, InstKind.uses, List.mem_singleton] at hl hij
      exact (hij ▸ hl).mem hr
  | store ptr value =>
      simp only [hk, InstKind.uses, List.mem_cons, List.not_mem_nil, or_false] at hl hij
      rcases hij with rfl | rfl
      · exact hl.1
      · exact hl.2.2.mem hr
  | add lhs rhs =>
      simp only [hk, InstKind.uses, List.mem_cons, List.not_mem_nil, or_false] at hl hij
      rcases hij with rfl | rfl
      · exact hl.1.mem hr
      · exact hl.2.1.mem hr
  | call callee args =>
      simp only [hk, InstKind.uses] at hl hij
      exact (hl.2 i hij).mem hr
  | ret operand =>
      simp only [hk, InstKind.uses, List.mem_singleton] at hl hij
      exact (hij ▸ hl).mem hr
  | _ => simp [hk, InstKind.uses] at hij

theorem Lowerable.idxOf_lt (hl : b.Lowerable) (hj : j ∈ b.code) (hij : i ∈ b.uses j)
    (hr : b.hasResult i = true) : b.code.idxOf i < b.code.idxOf j := by
  obtain ⟨before, after, hc⟩ := List.append_of_mem hj
  have hl := hl.lowersAt hc
  have hi := hl.mem_of_uses hij hr
  obtain ⟨-, -, hj, -⟩ := hl
  have hlt := List.idxOf_lt_length_of_mem hi
  rw [hc, List.idxOf_append_of_mem hi, List.idxOf_append_of_notMem hj]
  omega

/-- A load through a result pushes nothing, so its own result never reaches the instruction that
uses it; that can only be another such load, further behind. -/
theorem hasResult_of_load_eq_false (hl : b.Lowerable) (hu : b.UsesOnce)
    (hd : b.delivered [] b.code = some (b.code.map b.named)) (hi : i ∈ b.code)
    (hload : b.isLoad i = true) : ∀ o ∈ b.uses i, b.hasResult o = false := by
  -- by induction on how many instructions stand behind the load
  induction hn : b.code.length - b.code.idxOf i using Nat.strongRecOn generalizing i with
  | ind n ih =>
      obtain ⟨inst, ptr, hg, hk⟩ := eq_load_of_isLoad hload
      intro o ho
      obtain rfl : o = ptr := by simpa [uses, hg, hk, InstKind.uses] using ho
      cases hr : b.hasResult o with
      | false => rfl
      | true =>
          have hres : b.hasResult i = true := by simp [hasResult, hg, Inst.hasResult, hk]
          have hlow : b.lowered i = [] := by
            rw [lowered_eq hg, loweredInst, hk]
            exact pushOps_of_hasResult hr
          have hret : b.isReturn i = false := by simp [isReturn, hg, hk, InstKind.isReturn]
          have hnever := notMem_delivered hlow hret (by simp) hd
          obtain ⟨j, hj, hij⟩ : ∃ j ∈ b.code, i ∈ b.uses j := by
            have hc := hu i hi hres
            have hpos : 0 < (b.code.flatMap b.uses).count i := by omega
            simpa using List.count_pos_iff.mp hpos
          cases hjl : b.isLoad j with
          | false =>
              have hm : Symbol.result i ∈ b.named j := by
                simp only [named, hjl, Bool.false_eq_true, if_false]
                exact symbol_of_hasResult hres ▸ List.mem_map_of_mem hij
              exact absurd hm (hnever _ (List.mem_map_of_mem hj))
          | true =>
              have hlt := hl.idxOf_lt hj hij hres
              have hjc := List.idxOf_lt_length_of_mem hj
              have hnone := ih _ (by omega) hj hjl rfl i hij
              rw [hres] at hnone
              cases hnone

theorem delivered_eq_named_iff_keepsOrder (hl : b.Lowerable) (ho : b.HasOperands)
    (hu : b.UsesOnce) :
    b.delivered [] b.code = some (b.code.map b.named) ↔ b.KeepsOrder := by
  constructor
  · intro hd
    have hn := fun i hi hload => hasResult_of_load_eq_false (i := i) hl hu hd hi hload
    exact ⟨hn, (delivered_eq_named_iff [] hl ho hn).mp hd⟩
  · rintro ⟨hn, hs⟩
    exact (delivered_eq_named_iff [] hl ho hn).mpr hs

theorem hasResult_of_takesSlot (h : b.takesSlot i = true) : b.hasResult i = false := by
  unfold takesSlot at h
  unfold hasResult
  cases hi : b.get? i with
  | none => rfl
  | some inst =>
      rw [hi] at h
      cases hk : inst.kind <;> simp_all [InstKind.takesSlot, Inst.hasResult]

theorem StackDisciplined.keepsOrder (h : b.StackDisciplined) : b.KeepsOrder where
  loads i hi hload o ho := by
    obtain ⟨inst, ptr, hg, hk⟩ := eq_load_of_isLoad hload
    obtain rfl : o = ptr := by simpa [uses, hg, hk, InstKind.uses] using ho
    apply hasResult_of_takesSlot
    apply takesSlot_of_isAlloc
    simpa [pointer?, hg, hk, InstKind.pointer?] using h.pointers i hi
  ordered := ⟨[], h.ordered⟩

end Body

/-- Of a generated function that uses every result once, the operands of all instructions reach them
in the order in which the instructions name them exactly when the block keeps that order. -/
theorem delivered_generateFunction {id : DeclId} {d : Decl} {fc : FunctionCode} {b : Body}
    (h : generateFunction id d = .ok fc) (hb : d.body? = some b) (ho : b.HasOperands)
    (hu : b.UsesOnce) :
    ∃ dec, DecodedBody.read fc.body fc.relocs = .ok dec ∧
      dec.ops.map Prod.snd = b.code.flatMap b.lowered ++ [.endMark] ∧
      (b.delivered [] b.code = some (b.code.map b.named) ↔ b.KeepsOrder) := by
  obtain ⟨s, b', slots, hg⟩ := generateFunction_eq_ok_iff.mp h
  obtain rfl : b = b' := Option.some.inj (hb.symm.trans hg.body)
  exact ⟨_, hg.read, Op.map_snd_placed,
    Body.delivered_eq_named_iff_keepsOrder hg.lowerable ho hu⟩

theorem delivered_generateFunction_settle :
    ∃ fc, generateFunction ⟨3⟩ .settle = .ok fc ∧ Body.settle.HasOperands ∧ Body.settle.UsesOnce ∧
      Body.settle.KeepsOrder ∧
      Body.settle.delivered [] Body.settle.code = some [[], [], [.slot 1, .slot 0], [],
        [.result ⟨3⟩, .literal (.i32 2)], [.result ⟨5⟩, .slot 0], [.result ⟨7⟩]] := by
  obtain ⟨fc, hg⟩ := exists_generates_settle ⟨3⟩
  have h := generateFunction_eq_ok_iff.mpr ⟨_, _, _, hg⟩
  have ho : Body.settle.HasOperands := by
    unfold Body.HasOperands Body.IsOperand
    decide
  have hu : Body.settle.UsesOnce := by
    unfold Body.UsesOnce
    decide
  obtain ⟨-, -, -, hk⟩ := delivered_generateFunction h rfl ho hu
  have horder := Body.stackDisciplined_settle.keepsOrder
  exact ⟨fc, h, ho, hu, horder, (hk.mpr horder).trans (by decide +kernel)⟩

/-! ## A block out of order -/

/-- Passes a literal in front of a value that was loaded before. -/
def Body.crossed : Body where
  insts := #[
    ⟨.ptr (.int true 32), .alloc, .synthetic⟩,
    ⟨.int true 32, .constant (.int 7), .synthetic⟩,
    ⟨.void, .store ⟨0⟩ ⟨1⟩, .synthetic⟩,
    ⟨.int true 32, .load ⟨0⟩, .synthetic⟩,
    ⟨.fn [.int true 32, .int true 32] (.int true 32), .constant (.function ⟨1⟩), .synthetic⟩,
    ⟨.int true 32, .constant (.int 1), .synthetic⟩,
    ⟨.int true 32, .call ⟨4⟩ [⟨5⟩, ⟨3⟩], .synthetic⟩,
    ⟨.noReturn, .ret ⟨6⟩, .synthetic⟩]
  code := [⟨0⟩, ⟨2⟩, ⟨3⟩, ⟨6⟩, ⟨7⟩]

def Decl.crossed : Decl := .function "crossed" ⟨[], .int true 32⟩ .crossed

theorem Body.lowerable_crossed : Body.crossed.Lowerable := by
  refine ⟨?alloc, ?store, ?load, ?call, ?ret, trivial⟩
  case alloc => exact ⟨_, rfl, by decide, show Body.crossed.HasRoom [] by decide⟩
  case store => exact ⟨_, rfl, by decide, by decide, rfl, ⟨_, rfl, .inl ⟨_, _, rfl, rfl⟩⟩⟩
  case load => exact ⟨_, rfl, by decide, ⟨_, rfl, .inr ⟨rfl, by decide⟩⟩⟩
  case call =>
      refine ⟨_, rfl, by decide, rfl, ?_⟩
      intro i hi
      have hi : i = ⟨5⟩ ∨ i = ⟨3⟩ := by simpa using hi
      rcases hi with rfl | rfl
      · exact ⟨_, rfl, .inl ⟨_, _, rfl, rfl⟩⟩
      · exact ⟨_, rfl, .inr ⟨rfl, by decide⟩⟩
  case ret => exact ⟨_, rfl, by decide, ⟨_, rfl, .inr ⟨rfl, by decide⟩⟩⟩

theorem exists_generates_crossed (id : DeclId) :
    ∃ fc, Generates id .crossed ⟨[], .int true 32⟩ .crossed ⟨0, [.i32]⟩ fc := by
  refine ⟨_, rfl, ?_, rfl, rfl, rfl, Body.lowerable_crossed, ?_, rfl⟩
  · decide +kernel
  · decide +kernel

theorem exists_delivered_ne_named :
    ∃ fc, generateFunction ⟨0⟩ .crossed = .ok fc ∧ Body.crossed.HasOperands ∧
      Body.crossed.UsesOnce ∧
      Body.crossed.named ⟨6⟩ = [.literal (.i32 1), .result ⟨3⟩] ∧
      Body.crossed.delivered [] Body.crossed.code = some [[], [.slot 0, .literal (.i32 7)], [],
        [.result ⟨3⟩, .literal (.i32 1)], [.result ⟨6⟩]] ∧
      Body.crossed.delivered [] Body.crossed.code
        ≠ some (Body.crossed.code.map Body.crossed.named) := by
  obtain ⟨fc, hg⟩ := exists_generates_crossed ⟨0⟩
  refine ⟨fc, generateFunction_eq_ok_iff.mpr ⟨_, _, _, hg⟩, ?_, ?_, rfl, ?_, ?_⟩
  · unfold Body.HasOperands Body.IsOperand
    decide
  · unfold Body.UsesOnce
    decide
  · decide +kernel
  · decide +kernel

end WasmLowering
