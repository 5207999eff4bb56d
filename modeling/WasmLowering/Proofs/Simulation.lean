import WasmLowering.Proofs.Decoding
import WasmLowering.Proofs.Discipline
import WasmLowering.Proofs.Layout

/-!
# Lowering keeps the meaning of a block

Where a block uses its results like a stack, running its operations is running the block: the stack
holds the pending results, the slot of an argument holds the parameter, and the slot of a stack slot
holds its contents.
-/

namespace WasmLowering

variable {σ : Type}

/-! ## Runs of the machine -/

namespace Machine

variable {w : World σ} {m m' m'' : Machine σ} {o : Op} {os os' : List Op}

/-- Whatever stands behind them, the operations lead from `m` to `m'`. -/
def Runs (w : World σ) (m : Machine σ) (os : List Op) (m' : Machine σ) : Prop :=
  ∀ rest, m.run w (os ++ rest) = m'.run w rest

theorem Runs.nil : Runs w m [] m := fun _ => rfl

theorem Runs.append (h₁ : Runs w m os m') (h₂ : Runs w m' os' m'') :
    Runs w m (os ++ os') m'' := by
  intro rest
  rw [List.append_assoc, h₁, h₂]

theorem runs_op (h : m.step w o = some m') : Runs w m [o] m' := by
  intro rest
  have ho : o ≠ .endMark := by
    rintro rfl
    cases h
  rw [List.singleton_append, run]
  · rw [h]; rfl
  · exact ho

theorem step_op (v : Scalar) : m.step w v.op = some (m.push v) := by
  cases v <;> rfl

end Machine

/-! ## Operands -/

section

variable {b : Body} {params : List Scalar} {pre : List InstId} {st : Store σ} {w : World σ}
  {m : Machine σ} {i : InstId}

theorem Body.operand_of_hasResult (h : b.hasResult i = true) : b.operand st i = st.values i := by
  unfold hasResult at h
  unfold operand
  cases hi : b.get? i with
  | none => simp [hi] at h
  | some inst =>
      rw [hi] at h
      cases hk : inst.kind <;> simp_all [Inst.hasResult]

theorem Body.pushes_alloc (ha : b.isAlloc i = true) (hp : b.Pushes pre i) :
    i ∈ pre ∧ b.pushOps i = [.localGet (b.slotOf i)] := by
  obtain ⟨inst, hi, hp⟩ := hp
  have hk : inst.kind = .alloc := by
    unfold isAlloc at ha
    rw [hi] at ha
    cases hk : inst.kind <;> simp_all [InstKind.isAlloc]
  exact ⟨by simpa [hk, InstKind.isConstant, InstKind.literal?] using hp,
    by simp [pushOps, hi, hk]⟩

/-- A literal or an argument is pushed with the value that it has in the block. -/
theorem Agrees.exists_push (h : Agrees b params pre st m.locals) (hn : b.code.Nodup)
    (hsub : ∀ j ∈ pre, j ∈ b.code) (hp : b.Pushes pre i)
    (hd : b.isLiteral i = true ∨ b.isArg i = true) :
    ∃ v, b.operand st i = some v ∧ m.Runs w (b.pushOps i) (m.push v) := by
  obtain ⟨inst, hi, hp⟩ := hp
  cases hk : inst.kind with
  | constant l =>
      have hv : inst.ty.isVoid = false := by
        simpa [Body.isLiteral, Body.isArg, hi, hk, InstKind.isConstant, InstKind.literal?,
          InstKind.isArg] using hd
      rcases hp with ⟨l', os, hk', ho⟩ | ⟨hc, -⟩
      · rw [hk] at hk'
        cases hk'
        obtain ⟨v, hs, -⟩ := Literal.exists_scalar ho hv
        refine ⟨v, by simp [Body.operand, hi, hk, hs], ?_⟩
        have hops : b.pushOps i = [v.op] := by simp [Body.pushOps, hi, hk, hs]
        rw [hops]
        exact Machine.runs_op (Machine.step_op v)
      · simp [hk, InstKind.isConstant, InstKind.literal?] at hc
  | arg index =>
      have ha : b.isArg i = true := by simp [Body.isArg, hi, hk, InstKind.isArg]
      have hm : i ∈ pre := by simpa [hk, InstKind.isConstant, InstKind.literal?] using hp
      obtain ⟨v, hv⟩ := h.exists_local hn (hsub i hm) (Body.takesSlot_of_isArg ha)
      have hval := h.values i hm ha
      rw [← h.args i (hsub i hm) ha, hv] at hval
      refine ⟨v, by simp [Body.operand, hi, hk, hval], ?_⟩
      have hops : b.pushOps i = [.localGet (b.slotOf i)] := by simp [Body.pushOps, hi, hk]
      rw [hops]
      exact Machine.runs_op (by simp [Machine.step, hv])
  | _ =>
      simp [Body.isLiteral, Body.isArg, hi, hk, InstKind.isConstant, InstKind.literal?,
        InstKind.isArg] at hd

theorem Agrees.exists_pushAll {is : List InstId} (h : Agrees b params pre st m.locals)
    (hn : b.code.Nodup) (hsub : ∀ j ∈ pre, j ∈ b.code) (hp : ∀ i ∈ is, b.Pushes pre i)
    (hd : ∀ i ∈ is, b.isLiteral i = true ∨ b.isArg i = true) :
    ∃ vs : List Scalar, is.map (b.operand st) = vs.map some ∧
      m.Runs w (is.flatMap b.pushOps) { m with stack := vs.reverse ++ m.stack } := by
  induction is generalizing m with
  | nil => exact ⟨[], rfl, Machine.Runs.nil⟩
  | cons i is ih =>
      obtain ⟨v, hv, hr⟩ := h.exists_push (w := w) hn hsub (hp i (List.mem_cons_self ..))
        (hd i (List.mem_cons_self ..))
      obtain ⟨vs, hvs, hrs⟩ := ih (m := m.push v) h (fun j hj => hp j (List.mem_cons_of_mem _ hj))
        (fun j hj => hd j (List.mem_cons_of_mem _ hj))
      refine ⟨v :: vs, by simp [hv, hvs], ?_⟩
      have hs : (v :: vs).reverse ++ m.stack = vs.reverse ++ (m.push v).stack := by
        simp [Machine.push]
      rw [hs]
      exact hr.append hrs

end

/-! ## The simulation -/

/-- After the instructions of `pre`, whose results `pending` still wait, the machine is where the
block is. -/
structure Simulates (b : Body) (params : List Scalar) (pre pending : List InstId) (st : Store σ)
    (m : Machine σ) : Prop where
  stack : m.stack.map some = pending.reverse.map st.values
  state : m.state = st.state
  pending : ∀ i ∈ pending, i ∈ pre
  agrees : Agrees b params pre st m.locals

namespace Simulates

variable {b : Body} {params : List Scalar} {pre pending rest : List InstId} {st : Store σ}
  {w : World σ} {m : Machine σ} {i : InstId}

/-- Taking the operands of an instruction: their values come to lie on top of what is pending
still. -/
theorem consume {operands : List InstId} (h : Simulates b params pre pending st m)
    (hn : b.code.Nodup) (hsub : ∀ j ∈ pre, j ∈ b.code) (hc : b.Consumes pending operands rest)
    (hp : ∀ i ∈ operands, b.Pushes pre i)
    (hk : ∀ i ∈ operands, b.isLiteral i = true ∨ b.isArg i = true ∨ b.hasResult i = true) :
    ∃ vs tail : List Scalar, operands.map (b.operand st) = vs.map some ∧
      m.Runs w (operands.flatMap b.pushOps) { m with stack := vs.reverse ++ tail } ∧
      Simulates b params pre rest st { m with stack := tail } := by
  obtain ⟨waiting, direct, rfl, rfl, hw, hd⟩ := hc
  have hs := h.stack
  rw [List.reverse_append, List.map_append] at hs
  obtain ⟨top, tail, hm, ht, hr⟩ := List.map_eq_append_iff.mp hs
  have hwaiting : waiting.flatMap b.pushOps = [] := by
    rw [List.flatMap_eq_nil_iff]
    exact fun i hi => Body.pushOps_of_hasResult (hw i hi)
  have hvalues : waiting.map (b.operand st) = top.reverse.map some := by
    rw [List.map_reverse, ht, ← List.map_reverse, List.reverse_reverse]
    exact List.map_congr_left fun i hi => Body.operand_of_hasResult (hw i hi)
  obtain ⟨vs, hvs, hrun⟩ := h.agrees.exists_pushAll (w := w) hn hsub
    (fun i hi => hp i (List.mem_append_right _ hi)) (by
      intro i hi
      have := hk i (List.mem_append_right _ hi)
      simpa [hd i hi] using this)
  refine ⟨top.reverse ++ vs, tail, by simp [hvalues, hvs], ?_, hr, h.state, ?_, h.agrees⟩
  · rw [List.flatMap_append, hwaiting, List.nil_append]
    simpa [hm] using hrun
  · exact fun i hi => h.pending i (List.mem_append_left _ hi)

theorem skip (h : Simulates b params pre pending st m) (hs : b.takesSlot i = false) :
    Simulates b params (pre ++ [i]) pending st m :=
  ⟨h.stack, h.state, fun j hj => List.mem_append_left _ (h.pending j hj), h.agrees.skip hs⟩

theorem map_values_define (h : Simulates b params pre pending st m) (hi : i ∉ pre) (v : Scalar) :
    pending.reverse.map (st.define i v).values = pending.reverse.map st.values := by
  apply List.map_congr_left
  intro j hj
  have hji : j ≠ i := fun he => hi (he ▸ h.pending j (List.mem_reverse.mp hj))
  simp [Store.define, hji]

theorem push (h : Simulates b params pre pending st m) (hi : i ∉ pre)
    (hs : b.takesSlot i = false) (v : Scalar) :
    Simulates b params (pre ++ [i]) (pending ++ [i]) (st.define i v) (m.push v) := by
  refine ⟨?_, h.state, ?_, (h.agrees.define hi v).skip hs⟩
  · simp only [Machine.push, List.map_cons, List.reverse_append, List.reverse_singleton,
      List.singleton_append, h.map_values_define hi v, h.stack]
    simp [Store.define]
  · intro j hj
    rcases List.mem_append.mp hj with hj | hj
    · exact List.mem_append_left _ (h.pending j hj)
    · exact List.mem_append_right _ hj

theorem withState (h : Simulates b params pre pending st m) (s : σ) :
    Simulates b params pre pending { st with state := s } { m with state := s } :=
  ⟨h.stack, rfl, h.pending, h.agrees.length, h.agrees.args, h.agrees.values, h.agrees.cells,
    h.agrees.fresh⟩

/-! ### One instruction -/

theorem arg (h : Simulates b params pre pending st m) (hn : b.code.Nodup) (hc : i ∈ b.code)
    (hi : i ∉ pre) (ha : b.isArg i = true) :
    ∃ v, params[b.slotOf i]? = some v ∧
      Simulates b params (pre ++ [i]) pending (st.define i v) m := by
  obtain ⟨v, hv⟩ := h.agrees.exists_local hn hc (Body.takesSlot_of_isArg ha)
  rw [h.agrees.args i hc ha] at hv
  refine ⟨v, hv, ?_, h.state, ?_, h.agrees.arg hi ha hv⟩
  · rw [h.map_values_define hi v, h.stack]
  · exact fun j hj => List.mem_append_left _ (h.pending j hj)

theorem alloc (h : Simulates b params pre pending st m) (hn : b.code.Nodup) (hc : i ∈ b.code)
    (hi : i ∉ pre) (ha : b.isAlloc i = true) :
    ∃ t, b.slotType? i = some t ∧
      Simulates b params (pre ++ [i]) pending (st.write i (Scalar.zero t)) m := by
  obtain ⟨v, hv⟩ := h.agrees.exists_local hn hc (Body.takesSlot_of_isAlloc ha)
  rw [h.agrees.fresh i hc hi ha, Option.map_eq_some_iff] at hv
  obtain ⟨t, ht, -⟩ := hv
  exact ⟨t, ht, h.stack, h.state, fun j hj => List.mem_append_left _ (h.pending j hj),
    h.agrees.alloc hc hi ha ht⟩

theorem load {ptr : InstId} (h : Simulates b params pre pending st m) (hn : b.code.Nodup)
    (hsub : ∀ j ∈ pre, j ∈ b.code) (hi : i ∉ pre) (hs : b.takesSlot i = false) (hp : ptr ∈ pre)
    (ha : b.isAlloc ptr = true) :
    ∃ v, st.cells ptr = some v ∧ m.Runs w [.localGet (b.slotOf ptr)] (m.push v) ∧
      Simulates b params (pre ++ [i]) (pending ++ [i]) (st.define i v) (m.push v) := by
  obtain ⟨v, hv⟩ := h.agrees.exists_local hn (hsub ptr hp) (Body.takesSlot_of_isAlloc ha)
  refine ⟨v, by rw [h.agrees.cells ptr hp ha, hv], ?_, h.push hi hs v⟩
  exact Machine.runs_op (by simp [Machine.step, hv])

theorem store {ptr : InstId} {v : Scalar} {tail : List Scalar}
    (h : Simulates b params pre pending st { m with stack := tail }) (hn : b.code.Nodup)
    (hsub : ∀ j ∈ pre, j ∈ b.code) (hs : b.takesSlot i = false) (hp : ptr ∈ pre)
    (ha : b.isAlloc ptr = true) :
    (∃ v, st.cells ptr = some v) ∧ ∃ m',
      Machine.Runs w { m with stack := v :: tail } [.localSet (b.slotOf ptr)] m' ∧
      Simulates b params (pre ++ [i]) pending (st.write ptr v) m' := by
  have ht : b.takesSlot ptr = true := Body.takesSlot_of_isAlloc ha
  obtain ⟨u, hu⟩ := h.agrees.exists_local hn (hsub ptr hp) ht
  have hlt : b.slotOf ptr < m.locals.length := (List.getElem?_eq_some_iff.mp hu).1
  refine ⟨⟨u, by rw [h.agrees.cells ptr hp ha, hu]⟩,
    { m with stack := tail, locals := m.locals.set (b.slotOf ptr) v },
    Machine.runs_op (by simp [Machine.step, hlt]), ?_⟩
  exact skip ⟨h.stack, h.state, h.pending, h.agrees.write hn hsub hp ha v⟩ hs

theorem add {l r : Scalar} {tail : List Scalar} {t : ValType}
    (h : Simulates b params pre pending st { m with stack := tail }) (hi : i ∉ pre)
    (hs : b.takesSlot i = false) :
    ∃ m', Machine.Runs w { m with stack := r :: l :: tail } [.add t] m' ∧
      Simulates b params (pre ++ [i]) (pending ++ [i]) (st.define i (w.add t l r)) m' :=
  ⟨_, Machine.runs_op rfl, h.push hi hs (w.add t l r)⟩

theorem call {vs tail : List Scalar} {target : DeclId}
    (h : Simulates b params pre pending st { m with stack := tail }) (hi : i ∉ pre)
    (hs : b.takesSlot i = false) (ha : w.arity target = vs.length)
    (hr : (w.call target vs st.state).1.isSome = b.hasResult i) :
    ∃ m', Machine.Runs w { m with stack := vs.reverse ++ tail } [.callReloc target] m' ∧
      Simulates b params (pre ++ [i]) (pending ++ b.produced i)
        (match (w.call target vs st.state).1 with
          | some v => Store.define { st with state := (w.call target vs st.state).2 } i v
          | none => { st with state := (w.call target vs st.state).2 }) m' := by
  have hstate : m.state = st.state := h.state
  have hstep : Machine.step w { m with stack := vs.reverse ++ tail } (.callReloc target)
      = some { m with
          stack := (w.call target vs st.state).1.toList ++ tail
          state := (w.call target vs st.state).2 } := by
    simp [Machine.step, ha, hstate]
  refine ⟨_, Machine.runs_op hstep, ?_⟩
  have hw := h.withState (w.call target vs st.state).2
  unfold Body.produced
  cases hv : (w.call target vs st.state).1 with
  | some v =>
      rw [hv] at hr
      rw [← hr]
      exact hw.push hi hs v
  | none =>
      rw [hv] at hr
      rw [← hr]
      simpa using hw.skip hs

theorem eq_singleton_of_map {vs : List Scalar} (h : [i].map (b.operand st) = vs.map some) :
    ∃ v, vs = [v] ∧ b.operand st i = some v := by
  obtain ⟨v, rfl, hv⟩ := List.map_eq_singleton_iff.mp h.symm
  exact ⟨v, rfl, hv.symm⟩

theorem mapM_operand {is : List InstId} {vs : List Scalar}
    (h : is.map (b.operand st) = vs.map some) : is.mapM (b.operand st) = some vs := by
  induction is generalizing vs with
  | nil =>
      obtain rfl := List.map_eq_nil_iff.mp h.symm
      rfl
  | cons i is ih =>
      cases vs with
      | nil => cases h
      | cons v vs =>
          simp only [List.map_cons, List.cons.injEq] at h
          simp [h.1, ih h.2]

/-- The operations of an instruction do what the instruction does. -/
theorem step {after : List InstId} (h : Simulates b params pre pending st m)
    (hd : b.StackDisciplined) (hw : w.Fits b) (hn : b.code.Nodup)
    (hcode : b.code = pre ++ i :: after) (hl : b.LowersAt pre i) (hr : b.isReturn i = false)
    (hc : b.Consumes pending (b.takes i) rest) :
    ∃ st' m', b.step w params st i = some (.next st') ∧ m.Runs w (b.lowered i) m' ∧
      Simulates b params (pre ++ [i]) (rest ++ b.produced i) st' m' := by
  obtain ⟨inst, hi, hm, hl⟩ := hl
  have hmem : i ∈ b.code := by simp [hcode]
  have hsub : ∀ j ∈ pre, j ∈ b.code := by
    intro j hj
    simp [hcode, hj]
  have hstep : b.step w params st i = b.stepInst w params st i inst := by simp [Body.step, hi]
  have htakes := Body.takes_eq hi
  have hops := hd.operands i hmem
  rw [hstep, Body.lowered_eq hi]
  rw [htakes] at hc hops
  have hts : b.takesSlot i = inst.kind.takesSlot := by simp [Body.takesSlot, hi]
  have hp := Body.produced_eq hi
  unfold Body.stepInst Body.loweredInst
  unfold Body.Lowers at hl
  cases hk : inst.kind with
  | arg index =>
      have hrest : pending = rest := by simpa [hk, InstKind.takes] using hc
      have hx : index.toNat = b.slotOf i := by
        rw [Body.slotOf_eq hcode hm]
        rw [hk] at hl
        exact hl.1
      obtain ⟨v, hv, hs⟩ := h.arg hn hmem hm (by simp [Body.isArg, hi, hk, InstKind.isArg])
      exact ⟨st.define i v, m, by simp [hx, hv], Machine.Runs.nil,
        by simpa [hp, Inst.hasResult, hk, hrest] using hs⟩
  | alloc =>
      have hrest : pending = rest := by simpa [hk, InstKind.takes] using hc
      obtain ⟨t, ht, hs⟩ := h.alloc hn hmem hm (by simp [Body.isAlloc, hi, hk, InstKind.isAlloc])
      exact ⟨st.write i (Scalar.zero t), m, by simp [ht], Machine.Runs.nil,
        by simpa [hp, Inst.hasResult, hk, hrest] using hs⟩
  | load ptr =>
      have hrest : pending = rest := by simpa [hk, InstKind.takes] using hc
      have hns : b.takesSlot i = false := by simp [hts, hk, InstKind.takesSlot]
      have ha : b.isAlloc ptr = true := by
        simpa [Body.pointer?, hi, hk, InstKind.pointer?] using hd.pointers i hmem
      obtain ⟨hptr, hpush⟩ := Body.pushes_alloc ha (by simpa [hk] using hl)
      obtain ⟨v, hv, hrun, hs⟩ := h.load (w := w) hn hsub hm hns hptr ha
      refine ⟨st.define i v, m.push v, by simp [hv], ?_,
        by simpa [hp, Inst.hasResult, hk, hrest] using hs⟩
      simpa [hpush] using hrun
  | store ptr value =>
      have hns : b.takesSlot i = false := by simp [hts, hk, InstKind.takesSlot]
      have ha : b.isAlloc ptr = true := by
        simpa [Body.pointer?, hi, hk, InstKind.pointer?] using hd.pointers i hmem
      simp only [hk] at hl
      simp only [hk, InstKind.takes] at hc hops
      obtain ⟨vs, tail, hvs, hrun, hs⟩ := h.consume (w := w) hn hsub hc (by simpa using hl.2.2) hops
      obtain ⟨v, rfl, hv⟩ := eq_singleton_of_map hvs
      obtain ⟨⟨u, hu⟩, m', hset, hs'⟩ := hs.store (v := v) (w := w) (i := i) hn hsub hns hl.1 ha
      refine ⟨st.write ptr v, m', by simp [hv, hu], ?_, by simpa [hp, Inst.hasResult, hk] using hs'⟩
      exact Machine.Runs.append (by simpa using hrun) hset
  | add lhs rhs =>
      have hns : b.takesSlot i = false := by simp [hts, hk, InstKind.takesSlot]
      simp only [hk] at hl
      simp only [hk, InstKind.takes] at hc hops
      obtain ⟨t, ht⟩ := Option.isSome_iff_exists.mp hl.2.2
      obtain ⟨vs, tail, hvs, hrun, hs⟩ := h.consume (w := w) hn hsub hc
        (by simpa using ⟨hl.1, hl.2.1⟩) hops
      obtain ⟨l, vs, rfl, hlv, hvs⟩ := List.map_eq_cons_iff.mp hvs.symm
      obtain ⟨r, rfl, hrv⟩ := eq_singleton_of_map hvs.symm
      obtain ⟨m', hadd, hs'⟩ := hs.add (l := l) (r := r) (t := t) (w := w) hm hns
      refine ⟨st.define i (w.add t l r), m', by simp [ht, ← hlv, hrv], ?_,
        by simpa [hp, Inst.hasResult, hk] using hs'⟩
      simp only [ht, Option.map_some, Option.toList_some]
      exact Machine.Runs.append (by simpa using hrun) hadd
  | call callee args =>
      have hns : b.takesSlot i = false := by simp [hts, hk, InstKind.takesSlot]
      simp only [hk] at hl
      simp only [hk, InstKind.takes] at hc hops
      obtain ⟨target, ht⟩ := Option.isSome_iff_exists.mp hl.1
      obtain ⟨ha, hcall⟩ := hw i hmem inst callee args target hi hk ht
      obtain ⟨vs, tail, hvs, hrun, hs⟩ := h.consume (w := w) hn hsub hc hl.2 hops
      have hlen : vs.length = args.length := by simpa using (congrArg List.length hvs).symm
      have hr : (w.call target vs st.state).1.isSome = b.hasResult i := by
        rw [hcall vs st.state hlen, Body.hasResult_eq hi]
        simp [Inst.hasResult, hk]
      obtain ⟨m', hstep', hs'⟩ := hs.call hm hns (ha.trans hlen.symm) hr
      refine ⟨_, m', ?_, ?_, hs'⟩
      · change (b.callee? callee).bind _ = _
        rw [ht, Option.bind_some, mapM_operand hvs]
        rfl
      · simp only [ht, Option.map_some, Option.toList_some]
        exact hrun.append hstep'
  | dbgStmt line column =>
      have hrest : pending = rest := by simpa [hk, InstKind.takes] using hc
      have hs := h.skip (i := i) (by simp [hts, hk, InstKind.takesSlot])
      exact ⟨st, m, rfl, Machine.Runs.nil, by simpa [hp, Inst.hasResult, hk, hrest] using hs⟩
  | ret operand => simp [Body.isReturn, hi, hk, InstKind.isReturn] at hr
  | retVoid => simp [Body.isReturn, hi, hk, InstKind.isReturn] at hr
  | _ => simp [hk] at hl

/-- A return leaves what it returns alone on the stack. -/
theorem finish (h : Simulates b params pre pending st m) (hd : b.StackDisciplined)
    (hn : b.code.Nodup) (hcode : b.code = pre ++ [i]) (hl : b.LowersAt pre i)
    (hr : b.isReturn i = true) (hc : b.Consumes pending (b.takes i) []) :
    ∃ r, b.step w params st i = some (.returned r st.state) ∧
      m.Runs w (b.lowered i) { m with stack := r.toList } := by
  obtain ⟨inst, hi, hm, hl⟩ := hl
  have hsub : ∀ j ∈ pre, j ∈ b.code := by
    intro j hj
    simp [hcode, hj]
  have hstep : b.step w params st i = b.stepInst w params st i inst := by simp [Body.step, hi]
  have hops := hd.operands i (by simp [hcode])
  rw [hstep, Body.lowered_eq hi]
  rw [Body.takes_eq hi] at hc hops
  unfold Body.stepInst Body.loweredInst
  unfold Body.Lowers at hl
  cases hk : inst.kind with
  | ret operand =>
      simp only [hk] at hl
      simp only [hk, InstKind.takes] at hc hops
      obtain ⟨vs, tail, hvs, hrun, hs⟩ := h.consume (w := w) hn hsub hc (by simpa using hl) hops
      obtain rfl : tail = [] := by simpa using hs.stack
      obtain ⟨v, rfl, hv⟩ := eq_singleton_of_map hvs
      exact ⟨some v, by simp [hv], by simpa using hrun⟩
  | retVoid =>
      obtain rfl : pending = [] := by simpa [hk, InstKind.takes] using hc
      have hs : m.stack = [] := by simpa using h.stack
      refine ⟨none, rfl, ?_⟩
      have hm : { m with stack := (none : Option Scalar).toList } = m := by cases m; simp_all
      rw [hm]
      exact Machine.Runs.nil
  | _ => simp [Body.isReturn, hi, hk, InstKind.isReturn] at hr

/-- From related states the rest of the block and its operations end alike. -/
theorem run {is : List InstId} (h : Simulates b params pre pending st m)
    (hd : b.StackDisciplined) (hw : w.Fits b) (hn : b.code.Nodup) (hcode : b.code = pre ++ is)
    (hl : b.LowersAll pre is) (hst : b.Stacks pending is [])
    (hret : ∃ front last, is = front ++ [last] ∧ b.isReturn last = true ∧
      ∀ i ∈ front, b.isReturn i = false) :
    ∃ r s locals, b.run w params st is = some (r, s) ∧
      m.run w (is.flatMap b.lowered ++ [.endMark]) = some ⟨r.toList, locals, s⟩ := by
  induction is generalizing pre pending st m with
  | nil =>
      obtain ⟨front, last, he, -, -⟩ := hret
      simp at he
  | cons i is ih =>
      obtain ⟨front, last, he, hlast, hfront⟩ := hret
      obtain ⟨rest, hc, hst⟩ := hst
      cases front with
      | nil =>
          obtain ⟨rfl, rfl⟩ : i = last ∧ is = [] := by simpa using he
          obtain ⟨rfl, -⟩ : rest = [] ∧ b.produced i = [] := List.append_eq_nil_iff.mp hst
          obtain ⟨r, hs, hrun⟩ := h.finish (w := w) hd hn hcode hl.1 hlast hc
          refine ⟨r, st.state, m.locals, by simp [Body.run, hs], ?_⟩
          rw [List.flatMap_cons, List.flatMap_nil, List.append_nil, hrun, ← h.state]
          rfl
      | cons j front =>
          simp only [List.cons_append, List.cons.injEq] at he
          obtain ⟨rfl, rfl⟩ := he
          obtain ⟨st', m', hs, hrun, hsim⟩ :=
            h.step hd hw hn hcode hl.1 (hfront i (List.mem_cons_self ..)) hc
          obtain ⟨r, s, locals, he, hm⟩ := ih hsim (by simpa using hcode) hl.2 hst
            ⟨front, last, rfl, hlast, fun j hj => hfront j (List.mem_cons_of_mem _ hj)⟩
          refine ⟨r, s, locals, by simpa [Body.run, hs] using he, ?_⟩
          rw [List.flatMap_cons, List.append_assoc, hrun, hm]

theorem start {s : σ} {types : List ValType} (hn : b.code.Nodup) (hf : b.ArgsFirst)
    (hp : params.length = b.code.countP b.isArg)
    (ht : types.map some = (b.code.filter b.isAlloc).map b.slotType?) :
    Simulates b params [] [] (.start s) ⟨[], params ++ types.map Scalar.zero, s⟩ :=
  ⟨rfl, rfl, fun _ hi => hi, Agrees.start hn hf hp ht⟩

end Simulates

/-- A block that uses its results like a stack keeps its meaning: its operations, run on the
parameters and on zeros, end with what the block returns alone on the stack and leave the callees in
the same state. Neither of the two gets stuck. -/
theorem run_generateFunction {id : DeclId} {d : Decl} {b : Body} {s : Signature}
    {fc : FunctionCode} (h : generateFunction id d = .ok fc) (hb : d.body? = some b)
    (hs : d.signature? = some s) (hd : b.StackDisciplined) (w : World σ) (hw : w.Fits b)
    (params : List Scalar) (hp : params.length = s.params.length) (s₀ : σ) :
    ∃ dec r s₁ locals, DecodedBody.read fc.body fc.relocs = .ok dec ∧
      b.eval w params s₀ = some (r, s₁) ∧
      Machine.run w ⟨[], params ++ dec.zeros, s₀⟩ (dec.ops.map Prod.snd)
        = some ⟨r.toList, locals, s₁⟩ := by
  obtain ⟨s', b', slots, hg⟩ := generateFunction_eq_ok_iff.mp h
  obtain rfl := Option.some.inj (hb.symm.trans hg.body)
  obtain rfl := Option.some.inj (hs.symm.trans hg.signature)
  have hargs : params.length = b.code.countP b.isArg := by
    rw [hp, ← hg.args, Slots.args_ofBlock hg.counted]
  have hsim := Simulates.start (s := s₀) hg.lowerable.nodup hd.argsFirst hargs
    (Slots.locals_ofBlock hg.counted)
  obtain ⟨r, s₁, locals, he, hm⟩ := hsim.run hd hw hg.lowerable.nodup (List.nil_append _).symm
    hg.lowerable hd.ordered hd.returns
  refine ⟨_, r, s₁, locals, hg.read, he, ?_⟩
  have hz : DecodedBody.zeros ⟨b.linkedSize slots, slots.locals.map ((1, ·)),
      Op.placed Op.bytes slots.blockStart (b.loweredAll ++ [.endMark])⟩
      = slots.locals.map Scalar.zero := by
    rw [DecodedBody.zeros, List.flatMap_map]
    exact List.map_eq_flatMap.symm
  rw [hz, Op.map_snd_placed]
  exact hm

/-- Callees return their first argument and count the calls. -/
def World.counting : World Nat where
  add
    | .i32, .i32 l, .i32 r => .i32 (l + r)
    | t, _, _ => Scalar.zero t
  arity _ := 2
  call _ vs n := (vs.head?, n + 1)

theorem World.counting_fits_settle : World.counting.Fits .settle := by
  intro i hi inst callee args target hg hk _
  have hcalls : ∀ i ∈ Body.settle.code, (Body.settle.get? i).all (fun inst =>
      inst.kind.tag != "call" || inst.kind.takes.length == 2 && !inst.ty.isVoid) = true := by decide
  obtain ⟨ha, hv⟩ : args.length = 2 ∧ inst.ty.isVoid = false := by
    simpa [hg, hk, InstKind.tag, InstKind.takes] using hcalls i hi
  refine ⟨ha.symm, ?_⟩
  intro vs n hl
  obtain ⟨v, vs, rfl⟩ := List.exists_cons_of_length_eq_add_one (hl.trans ha)
  simp [counting, hv]

theorem run_generateFunction_settle :
    ∃ fc dec locals, generateFunction ⟨3⟩ .settle = .ok fc ∧
      DecodedBody.read fc.body fc.relocs = .ok dec ∧
      Body.settle.eval .counting [.i32 5] 0 = some (some (.i32 7), 1) ∧
      Machine.run .counting ⟨[], [.i32 5] ++ dec.zeros, 0⟩ (dec.ops.map Prod.snd)
        = some ⟨[.i32 7], locals, 1⟩ := by
  obtain ⟨fc, hg⟩ := exists_generates_settle ⟨3⟩
  have h := generateFunction_eq_ok_iff.mpr ⟨_, _, _, hg⟩
  obtain ⟨dec, r, n, locals, hr, he, hm⟩ := run_generateFunction h rfl rfl
    Body.stackDisciplined_settle .counting World.counting_fits_settle [.i32 5] rfl 0
  have hv : Body.settle.eval .counting [.i32 5] 0 = some (some (.i32 7), 1) := by decide +kernel
  obtain ⟨rfl, rfl⟩ : r = some (.i32 7) ∧ n = 1 := by simpa [hv, eq_comm] using he
  exact ⟨fc, dec, locals, h, hr, hv, hm⟩

end WasmLowering
