import WasmLowering.Proofs.WellFormed

/-!
# Which locals are accessed

The slots of a generated function are the numbers below its parameters and locals. Each belongs to
one argument or stack slot, in the order of the block, and no operation accesses another local.
-/

namespace WasmLowering

/-- The local that an operation reads or writes. -/
def Op.slot? : Op → Option Nat
  | localGet n | localSet n => some n
  | _ => none

/-- The number of parameters that a type entry states. -/
def statedParams? : List UInt8 → Option Nat
  | 0x60 :: bs => ((Leb.split bs.length bs).toOption).map fun (group, _) => Leb.value group
  | _ => none

/-- The arguments and stack slots of the block have got the numbers below `count`, one after the
other, and an argument the number that it names. Nothing else has got a slot. -/
structure Frame.Fills (f : Frame) (b : Body) (count : Nat) : Prop where
  order : (b.code.filter b.takesSlot).map (fun i => f.values[i]?)
    = (List.range count).map fun n => some (Operand.slot n)
  only : ∀ i n, f.values[i]? = some (Operand.slot n) → i ∈ b.code ∧ b.takesSlot i = true
  args : ∀ i ∈ b.code, ∀ inst ∈ b.get? i, ∀ n ∈ inst.kind.argument?,
    f.values[i]? = some (Operand.slot n)

theorem Signature.statedParams?_entry {s : Signature} (h : s.Mapped)
    (hn : s.params.length < UInt32.size) : statedParams? s.entry.1 = some s.params.length := by
  rw [entry_fst h, paramCount_of_lt hn, List.append_assoc, statedParams?]
  rw [Leb.split_append _ (Leb.terminated_unsigned _) (by simp)]
  simp [Except.toOption, Leb.value_unsigned]

/-! ## Operations -/

namespace Body

variable {b : Body} {before : List InstId} {i : InstId} {o : Op} {n : Nat}

theorem slot_of_mem_pushOps (ho : o ∈ b.pushOps i) (hn : o.slot? = some n) :
    b.takesSlot i = true ∧ b.slotOf i = n := by
  unfold pushOps at ho
  unfold takesSlot
  cases hi : b.get? i with
  | none => simp [hi] at ho
  | some inst =>
      rw [hi] at ho
      cases hk : inst.kind with
      | constant l =>
          obtain ⟨v, -, rfl⟩ : ∃ v, _ = some v ∧ Scalar.op v = o := by simpa [hk] using ho
          cases v <;> cases hn
      | arg index => simp_all [Op.slot?, InstKind.takesSlot]
      | alloc => simp_all [Op.slot?, InstKind.takesSlot]
      | _ => simp [hk] at ho

/-- An operation accesses only the slot of an instruction that stands before. -/
theorem Pushes.slot (h : b.Pushes before i) (ho : o ∈ b.pushOps i) (hn : o.slot? = some n) :
    ∃ p ∈ before, b.takesSlot p = true ∧ b.slotOf p = n := by
  obtain ⟨ht, hs⟩ := slot_of_mem_pushOps ho hn
  exact ⟨i, mem_of_pushes h ht, ht, hs⟩

theorem LowersAt.slot (h : b.LowersAt before i) (ho : o ∈ b.lowered i) (hn : o.slot? = some n) :
    ∃ p ∈ before, b.takesSlot p = true ∧ b.slotOf p = n := by
  obtain ⟨inst, hi, -, hl⟩ := h
  rw [lowered_eq hi] at ho
  unfold loweredInst at ho
  unfold Lowers at hl
  cases hk : inst.kind with
  | load ptr =>
      rw [hk] at hl ho
      exact hl.slot ho hn
  | store ptr value =>
      rw [hk] at hl ho
      obtain ⟨hm, ht, hv⟩ := hl
      rcases List.mem_append.mp ho with ho | ho
      · exact hv.slot ho hn
      · obtain rfl := List.mem_singleton.mp ho
        exact ⟨ptr, hm, ht, Option.some.inj hn⟩
  | add lhs rhs =>
      rw [hk] at hl ho
      obtain ⟨hl, hr, -⟩ := hl
      simp only [List.mem_append, or_assoc] at ho
      rcases ho with ho | ho | ho
      · exact hl.slot ho hn
      · exact hr.slot ho hn
      · obtain ⟨t, -, rfl⟩ : ∃ t, _ = some t ∧ Op.add t = o := by simpa using ho
        cases hn
  | call callee args =>
      rw [hk] at hl ho
      rcases List.mem_append.mp ho with ho | ho
      · obtain ⟨a, ha, ho⟩ := List.mem_flatMap.mp ho
        exact (hl.2 a ha).slot ho hn
      · obtain ⟨t, -, rfl⟩ : ∃ t, _ = some t ∧ Op.callReloc t = o := by simpa using ho
        cases hn
  | ret operand =>
      rw [hk] at hl ho
      exact hl.slot ho hn
  | _ => simp [hk] at ho

theorem Lowerable.slot_lt (h : b.Lowerable) (ho : o ∈ b.loweredAll) (hn : o.slot? = some n) :
    n < b.code.countP b.takesSlot := by
  obtain ⟨i, hi, ho⟩ := List.mem_flatMap.mp ho
  obtain ⟨before, after, hc⟩ := List.append_of_mem hi
  obtain ⟨p, hp, ht, rfl⟩ := (h.lowersAt hc).slot ho hn
  exact slotOf_lt_countP h.nodup (by simp [hc, hp]) ht

end Body

/-! ## Frames -/

theorem InstKind.eq_arg_of_argument? {k : InstKind} {n : Nat} (h : k.argument? = some n) :
    ∃ index, k = .arg index ∧ index.toNat = n := by
  cases k with
  | arg index => exact ⟨index, rfl, Option.some.inj h⟩
  | _ => cases h

namespace Frame.Mirrors

variable {f : Frame} {b : Body} {i : InstId}

theorem eq_slot_countP {before after : List InstId} (hf : f.Mirrors b b.code [])
    (hc : b.code = before ++ i :: after) (ht : b.takesSlot i = true) :
    f.values[i]? = some (.slot (before.countP b.takesSlot)) := by
  rw [hf.getElem?_values (by simp [hc]) ht, Body.slotOf_eq hc (Body.notMem_before hf.nodup hc)]

/-- When all instructions are lowered, the slots have been given out without a gap. -/
theorem fills (hf : f.Mirrors b b.code []) (hl : b.Lowerable) :
    f.Fills b (b.code.countP b.takesSlot) where
  order := by
    have hlen : (b.code.filter b.takesSlot).length = b.code.countP b.takesSlot :=
      List.countP_eq_length_filter.symm
    apply List.ext_getElem
    · simp [hlen]
    · intro k hk _
      rw [List.length_map] at hk
      have hi := List.getElem?_eq_getElem hk
      obtain ⟨before, after, hc, ht, hn⟩ := exists_append_of_getElem?_filter hi
      simp only [List.getElem_map, List.getElem_range]
      rw [hf.eq_slot_countP hc ht, hn]
  only i n h := by
    rw [hf.values] at h
    unfold Body.operandOf at h
    split at h
    · next hi =>
      split at h
      · next ht => exact ⟨hi, ht⟩
      · cases h
    · cases h
  args i hi inst hget n hn := by
    obtain ⟨index, hk, rfl⟩ := InstKind.eq_arg_of_argument? hn
    obtain ⟨before, after, hc⟩ := List.append_of_mem hi
    obtain ⟨inst', hget', -, hx⟩ := hl.lowersAt hc
    obtain rfl : inst = inst' := Option.some.inj (hget.symm.trans hget')
    have ht : b.takesSlot i = true := by simp [Body.takesSlot, hget', hk, InstKind.takesSlot]
    unfold Body.Lowers at hx
    rw [hk] at hx
    rw [hf.eq_slot_countP hc ht, hx.1]

end Frame.Mirrors

/-- Every access of a generated function goes to one of its parameters or locals, and these are the
slots of its arguments and stack slots. -/
theorem locals_generateFunction {id : DeclId} {d : Decl} {fc : FunctionCode} {b : Body}
    (h : generateFunction id d = .ok fc) (hb : d.body? = some b) :
    ∃ params dec frame, statedParams? fc.typeEntry = some params ∧
      DecodedBody.read fc.body fc.relocs = .ok dec ∧
      ((Scope.mk d.name b).lowerAll .empty b.code).result = .ok frame ∧
      b.code.countP b.isArg = params ∧ b.code.countP b.isAlloc = dec.locals.length ∧
      (∀ p o n, (p, o) ∈ dec.ops → o.slot? = some n → n < params + dec.locals.length) ∧
      frame.Fills b (params + dec.locals.length) := by
  obtain ⟨s, b', slots, hg⟩ := generateFunction_eq_ok_iff.mp h
  obtain rfl : b = b' := Option.some.inj (hb.symm.trans hg.body)
  obtain ⟨frame, hf, hm⟩ := hg.exists_mirrors
  have hargs : b.code.countP b.isArg = s.params.length := by
    rw [← Slots.args_ofBlock hg.counted, hg.args]
  have hallocs : b.code.countP b.isAlloc = slots.locals.length :=
    (Slots.length_locals_ofBlock hg.counted).symm
  have htotal : b.code.countP b.takesSlot = s.params.length + slots.locals.length := by
    rw [Body.countP_takesSlot, hargs, hallocs]
  have hparams : statedParams? fc.typeEntry = some s.params.length := by
    rw [hg.code]
    exact Signature.statedParams?_entry (Signature.entry_snd_eq_none_iff.mp hg.typed)
      hg.length_params_lt
  refine ⟨s.params.length, _, frame, hparams, hg.read, hf, hargs, ?_⟩
  simp only [List.length_map, ← htotal]
  refine ⟨hallocs, ?_, hm.fills hg.lowerable⟩
  intro p o n hp hn
  have ho := List.mem_map_of_mem (f := Prod.snd) hp
  rw [Op.map_snd_placed] at ho
  rcases List.mem_append.mp ho with ho | ho
  · exact hg.lowerable.slot_lt ho hn
  · obtain rfl := List.mem_singleton.mp ho
    cases hn

theorem locals_generateFunction_settle :
    ∃ fc dec, ∃ frame : Frame, generateFunction ⟨3⟩ .settle = .ok fc ∧
      statedParams? fc.typeEntry = some 1 ∧ DecodedBody.read fc.body fc.relocs = .ok dec ∧
      dec.locals.length = 1 ∧ (∀ p n, (p, .localGet n) ∈ dec.ops → n < 2) ∧
      frame.values[(⟨0⟩ : InstId)]? = some (.slot 0) ∧
      frame.values[(⟨1⟩ : InstId)]? = some (.slot 1) := by
  obtain ⟨fc, hg⟩ := exists_generates_settle ⟨3⟩
  have h := generateFunction_eq_ok_iff.mpr ⟨_, _, _, hg⟩
  obtain ⟨params, dec, frame, hp, hr, -, hargs, hallocs, hlt, hfill⟩ :=
    locals_generateFunction h rfl
  obtain rfl : params = 1 := hargs.symm
  have hlocals : dec.locals.length = 1 := hallocs.symm
  rw [hlocals] at hlt hfill
  refine ⟨fc, dec, frame, h, hp, hr, hlocals, fun p n hm => hlt p _ n hm rfl, ?_, ?_⟩
  · exact congrArg List.head! hfill.order
  · exact (List.cons.inj (List.cons.inj hfill.order).2).1

end WasmLowering
