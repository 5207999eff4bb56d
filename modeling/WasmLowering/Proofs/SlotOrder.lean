import WasmLowering.Proofs.Acceptance
import WasmLowering.Proofs.Layout
import WasmLowering.Proofs.Splits

/-!
# Which slots are given out

One counter gives slots to arguments and stack slots alike. The arguments get the slots of the
parameters exactly when all of them stand before the first stack slot, and only then do the loads
and stores of a stack slot find its type there.
-/

namespace WasmLowering

/-! ## Slots in the order of the block -/

namespace Body

variable {b : Body} {before after : List InstId} {i : InstId}

theorem argsFirst_iff : b.ArgsFirst ↔ ∀ before i after, b.code = before ++ i :: after →
    b.isArg i = true → before.countP b.isAlloc = 0 := by
  unfold ArgsFirst
  simp only [pairwise_iff_append, List.countP_eq_zero]
  grind

theorem slotOf_eq_add (hn : b.code.Nodup) (hc : b.code = before ++ i :: after) :
    b.slotOf i = before.countP b.isArg + before.countP b.isAlloc := by
  rw [slotOf_eq hc (notMem_before hn hc), countP_takesSlot]

end Body

/-- The arguments have got the first slots in order, and the stack slots those behind `arity`. -/
structure Frame.NumbersSlots (f : Frame) (b : Body) (arity : Nat) : Prop where
  args : ∀ k i, (b.code.filter b.isArg)[k]? = some i → f.values[i]? = some (Operand.slot k)
  allocs : ∀ k i, (b.code.filter b.isAlloc)[k]? = some i →
    f.values[i]? = some (Operand.slot (arity + k))

namespace Frame.Mirrors

variable {f : Frame} {b : Body} {before after : List InstId} {i : InstId}

theorem getElem?_values (hf : f.Mirrors b before after) (hi : i ∈ before)
    (ht : b.takesSlot i = true) : f.values[i]? = some (.slot (b.slotOf i)) := by
  simp [hf.values, hi, Body.operandOf, ht]

theorem numbersSlots_iff (hf : f.Mirrors b b.code []) :
    f.NumbersSlots b (b.code.countP b.isArg) ↔ b.ArgsFirst := by
  have hslot : ∀ before i after, b.code = before ++ i :: after → b.takesSlot i = true →
      f.values[i]? = some (.slot (before.countP b.isArg + before.countP b.isAlloc)) := by
    intro before i after hc ht
    rw [hf.getElem?_values (by simp [hc]) ht, Body.slotOf_eq_add hf.nodup hc]
  constructor
  · intro h
    refine Body.argsFirst_iff.mpr fun before i after hc ha => ?_
    have hk := h.args (before.countP b.isArg) i (by rw [hc]; exact getElem?_filter_append_cons ha)
    have hv := hslot before i after hc (Body.takesSlot_of_isArg ha)
    rw [hk] at hv
    simpa using hv
  · intro h
    constructor
    · intro k i hk
      obtain ⟨before, after, hc, ha, rfl⟩ := exists_append_of_getElem?_filter hk
      rw [hslot before i after hc (Body.takesSlot_of_isArg ha),
        Body.argsFirst_iff.mp h before i after hc ha, Nat.add_zero]
    · intro k i hk
      obtain ⟨hm, ha⟩ := List.mem_filter.mp (List.mem_of_getElem? hk)
      obtain ⟨k', hs, hk'⟩ := Body.slotOf_alloc hf.nodup h hm ha
      obtain ⟨hlt, -⟩ := List.getElem?_eq_some_iff.mp hk
      have hkk := (List.getElem?_inj hlt (hf.nodup.filter _)).mp (hk.trans hk'.symm)
      rw [hf.getElem?_values hm (Body.takesSlot_of_isAlloc ha), hs, hkk]

end Frame.Mirrors

/-! ## Loads and stores -/

namespace Body

variable {b : Body} {before after : List InstId} {i p : InstId}

/-- The slot that the last operation of an instruction reads or writes. -/
def accessed? (b : Body) (i : InstId) : Option Nat :=
  match (b.lowered i).getLast? with
  | some (.localGet n) | some (.localSet n) => some n
  | _ => none

theorem mem_of_pushes (hp : b.Pushes before p) (hs : b.takesSlot p = true) : p ∈ before :=
  (resolves_of_takesSlot hs).mp (pushes_iff.mp hp).1

/-- A load or store accesses the slot of what it points to. -/
theorem accessed?_eq_slotOf (hl : b.LowersAt before i) (hp : b.pointer? i = some p)
    (hs : b.takesSlot p = true) : p ∈ before ∧ b.accessed? i = some (b.slotOf p) := by
  obtain ⟨inst, hi, -, hl⟩ := hl
  have hp : inst.kind.pointer? = some p := by simpa [pointer?, hi] using hp
  unfold Lowers at hl
  unfold accessed?
  rw [lowered_eq hi, loweredInst]
  cases hk : inst.kind with
  | load ptr =>
      rw [hk] at hl hp
      obtain rfl : ptr = p := by simpa [InstKind.pointer?] using hp
      exact ⟨mem_of_pushes hl hs, by simp [(symbol_of_takesSlot hs).2]⟩
  | store ptr value =>
      rw [hk] at hl hp
      obtain rfl : ptr = p := by simpa [InstKind.pointer?] using hp
      exact ⟨hl.1, by simp⟩
  | _ => simp [hk, InstKind.pointer?] at hp

end Body

/-! ## Types of the slots -/

/-- The types of the locals that a body declares, one for each local. -/
def DecodedBody.localTypes (dec : DecodedBody) : List ValType :=
  dec.locals.flatMap fun (n, t) => List.replicate n t

theorem DecodedBody.localTypes_singles {dec : DecodedBody} {ts : List ValType}
    (h : dec.locals = ts.map fun t => (1, t)) : dec.localTypes = ts := by
  simp [localTypes, h, List.flatMap_map]

theorem Generates.getElem?_types {id : DeclId} {d : Decl} {s : Signature} {b : Body}
    {slots : Slots} {fc : FunctionCode} {i : InstId} (hg : Generates id d s b slots fc)
    (hf : b.ArgsFirst) (hi : i ∈ b.code) (ha : b.isAlloc i = true) :
    ∃ t, b.slotType? i = some t ∧ (s.paramTypes ++ slots.locals)[b.slotOf i]? = some t := by
  obtain ⟨k, hs, hk⟩ := Body.slotOf_alloc hg.lowerable.nodup hf hi ha
  have hargs : s.paramTypes.length = b.code.countP b.isArg := by
    rw [(Signature.entry_snd_eq_none_iff.mp hg.typed).length_paramTypes, ← hg.args,
      Slots.args_ofBlock hg.counted]
  have ht := congrArg (·[k]?) (Slots.locals_ofBlock hg.counted)
  simp only [List.getElem?_map, hk, Option.map_some, Option.map_eq_some_iff] at ht
  obtain ⟨t, htk, ht⟩ := ht
  refine ⟨t, ht.symm, ?_⟩
  rw [hs, ← hargs, List.getElem?_append_right (by omega)]
  simpa using htk

theorem Generates.exists_mirrors {id : DeclId} {d : Decl} {s : Signature} {b : Body}
    {slots : Slots} {fc : FunctionCode} (hg : Generates id d s b slots fc) :
    ∃ frame, ((Scope.mk d.name b).lowerAll .empty b.code).result = .ok frame ∧
      frame.Mirrors b b.code [] := by
  obtain ⟨frame, hf⟩ := Scope.exists_lowerAll_block (s := ⟨d.name, b⟩) hg.lowerable
  obtain ⟨-, hm, -⟩ := Scope.lowerAll_front_yields (s := ⟨d.name, b⟩)
    (List.append_nil _).symm ⟨rfl, hf⟩
  exact ⟨frame, hf, hm⟩

/-- In a generated function the arguments own the first slots, and the stack slots those behind
them, exactly when no argument stands behind a stack slot. Then every load and store of a stack slot
accesses a local of its type. -/
theorem slots_generateFunction {id : DeclId} {d : Decl} {fc : FunctionCode} {s : Signature}
    {b : Body} (h : generateFunction id d = .ok fc) (hs : d.signature? = some s)
    (hb : d.body? = some b) :
    ∃ frame dec, ((Scope.mk d.name b).lowerAll .empty b.code).result = .ok frame ∧
      DecodedBody.read fc.body fc.relocs = .ok dec ∧
      dec.ops.map Prod.snd = b.code.flatMap b.lowered ++ [.endMark] ∧
      b.code.countP b.isArg = s.params.length ∧
      (frame.NumbersSlots b s.params.length ↔ b.ArgsFirst) ∧
      (b.ArgsFirst → ∀ i ∈ b.code, ∀ p, b.pointer? i = some p → b.isAlloc p = true →
        ∃ n t, b.accessed? i = some n ∧ frame.values[p]? = some (.slot n) ∧
          b.slotType? p = some t ∧ (s.paramTypes ++ dec.localTypes)[n]? = some t) := by
  obtain ⟨slots, hg⟩ := exists_generates h hs hb
  obtain ⟨frame, hf, hm⟩ := hg.exists_mirrors
  have hargs : b.code.countP b.isArg = s.params.length := by
    rw [← Slots.args_ofBlock hg.counted, hg.args]
  refine ⟨frame, _, hf, hg.read, Op.map_snd_placed, hargs, hargs ▸ hm.numbersSlots_iff, ?_⟩
  intro ho i hi p hp ha
  have hts : b.takesSlot p = true := Body.takesSlot_of_isAlloc ha
  obtain ⟨before, after, hc⟩ := List.append_of_mem hi
  obtain ⟨hpb, hacc⟩ := Body.accessed?_eq_slotOf (hg.lowerable.lowersAt hc) hp hts
  have hpc : p ∈ b.code := by simp [hc, hpb]
  obtain ⟨t, ht, hty⟩ := hg.getElem?_types ho hpc ha
  exact ⟨_, t, hacc, hm.getElem?_values hpc hts, ht,
    by rwa [DecodedBody.localTypes_singles rfl]⟩

theorem slots_generateFunction_settle :
    ∃ fc frame, generateFunction ⟨3⟩ .settle = .ok fc ∧
      ((Scope.mk "settle" .settle).lowerAll .empty Body.settle.code).result = .ok frame ∧
      frame.NumbersSlots .settle 1 ∧ Body.settle.accessed? ⟨3⟩ = some 1 ∧
      frame.values[(⟨1⟩ : InstId)]? = some (.slot 1) := by
  obtain ⟨fc, hg⟩ := exists_generates_settle ⟨3⟩
  have h := generateFunction_eq_ok_iff.mpr ⟨_, _, _, hg⟩
  have ho := Body.stackDisciplined_settle.argsFirst
  obtain ⟨frame, dec, hf, -, -, -, hn, ht⟩ := slots_generateFunction h rfl rfl
  obtain ⟨n, t, hacc, hv, -⟩ := ht ho ⟨3⟩ (by decide) ⟨1⟩ rfl rfl
  obtain rfl : 1 = n := Option.some.inj ((show _ = some 1 by decide +kernel).symm.trans hacc)
  exact ⟨fc, frame, h, hf, hn.mpr ho, hacc, hv⟩

/-! ## A block that declares its stack slot first -/

/-- Its argument stands behind the stack slot and counts it as one of the parameters. -/
def Body.shifted : Body where
  insts := #[
    ⟨.ptr (.int true 32), .alloc, .synthetic⟩,
    ⟨.float 64, .arg 1, .synthetic⟩,
    ⟨.int true 32, .constant (.int 7), .synthetic⟩,
    ⟨.void, .store ⟨0⟩ ⟨2⟩, .synthetic⟩,
    ⟨.int true 32, .load ⟨0⟩, .synthetic⟩,
    ⟨.noReturn, .ret ⟨4⟩, .synthetic⟩]
  code := [⟨0⟩, ⟨1⟩, ⟨3⟩, ⟨4⟩, ⟨5⟩]

def Decl.shifted : Decl := .function "shifted" ⟨[.float 64], .int true 32⟩ .shifted

theorem exists_generates_shifted (id : DeclId) :
    ∃ fc, Generates id .shifted ⟨[.float 64], .int true 32⟩ .shifted ⟨1, [.i32]⟩ fc := by
  refine ⟨_, rfl, ?_, rfl, rfl, rfl, ?_, ?_, rfl⟩
  · decide +kernel
  · refine ⟨?alloc, ?arg, ?store, ?load, ?ret, trivial⟩
    case alloc => exact ⟨_, rfl, by decide, show Body.shifted.HasRoom [] by decide⟩
    case arg => exact ⟨_, rfl, by decide, rfl, by decide⟩
    case store => exact ⟨_, rfl, by decide, by decide, rfl, ⟨_, rfl, .inl ⟨_, _, rfl, rfl⟩⟩⟩
    case load => exact ⟨_, rfl, by decide, ⟨_, rfl, .inr ⟨rfl, by decide⟩⟩⟩
    case ret => exact ⟨_, rfl, by decide, ⟨_, rfl, .inr ⟨rfl, by decide⟩⟩⟩
  · decide +kernel

/-- The stack slot of 32 bits gets the slot of the parameter, and the argument that of the local. -/
theorem exists_slots_shifted :
    ∃ fc frame dec, generateFunction ⟨0⟩ .shifted = .ok fc ∧
      ((Scope.mk "shifted" .shifted).lowerAll .empty Body.shifted.code).result = .ok frame ∧
      DecodedBody.read fc.body fc.relocs = .ok dec ∧
      frame.values[(⟨0⟩ : InstId)]? = some (.slot 0) ∧
      frame.values[(⟨1⟩ : InstId)]? = some (.slot 1) ∧
      ¬Body.shifted.ArgsFirst ∧ ¬frame.NumbersSlots .shifted 1 ∧
      Body.shifted.pointer? ⟨4⟩ = some ⟨0⟩ ∧ Body.shifted.accessed? ⟨4⟩ = some 0 ∧
      Body.shifted.slotType? ⟨0⟩ = some .i32 ∧
      (Signature.paramTypes ⟨[.float 64], .int true 32⟩ ++ dec.localTypes)[0]? = some .f64 := by
  obtain ⟨fc, hg⟩ := exists_generates_shifted ⟨0⟩
  obtain ⟨frame, hf, hm⟩ := hg.exists_mirrors
  have ho : ¬Body.shifted.ArgsFirst := by unfold Body.ArgsFirst; decide
  refine ⟨fc, frame, _, generateFunction_eq_ok_iff.mpr ⟨_, _, _, hg⟩, hf, hg.read, ?_, ?_, ho,
    fun hn => ho (hm.numbersSlots_iff.mp hn), rfl, ?_, rfl, rfl⟩
  · exact hm.getElem?_values (i := ⟨0⟩) (by decide) rfl
  · exact hm.getElem?_values (i := ⟨1⟩) (by decide) rfl
  · decide +kernel

end WasmLowering
