import WasmLowering.Proofs.Relocations

/-!
# The values of lowered instructions

Between two instructions of a block the frame holds one value for each instruction in front, and no
other. An argument or a stack slot has the number of those before it, and of any other instruction
nothing is left to be pushed. So an operand is found exactly when it is a literal or stands in front.
-/

namespace WasmLowering

def Operand.isSlot : Operand → Bool
  | slot _ => true
  | _ => false

/-- The frame holds the values of the instructions `front`, with which the block begins. -/
structure Frame.Notes (f : Frame) (b : Body) (front : List InstId) : Prop where
  once : front.Nodup
  keys : f.values.keys.Perm front
  slot : ∀ before i later, front = before ++ i :: later → ∀ n,
    f.values[i]? = some (.slot n) ↔ b.takesSlot i = true ∧ n = before.countP b.takesSlot
  onStack : ∀ i ∈ front, f.values[i]? = some .onStack ↔ b.takesSlot i = false
  noLiteral : ∀ i j : InstId, f.values[i]? ≠ some (.literal j)
  noBlock : ∀ (i : InstId) label, f.values[i]? ≠ some (.block label)
  /-- The next free slot is the number of slots that have been given out. -/
  slots : f.slots = f.values.toList.countP fun e => e.2.isSlot
  bound : f.slots < UInt32.size

/-- How operands are found behind the instructions `front`. -/
structure Scope.Finds (s : Scope) (f : Frame) (front : List InstId) : Prop where
  literal : ∀ i j, s.resolve f i = .ok (.literal j) ↔ i = j ∧ (s.body.literal? i).isSome
  noBlock : ∀ i label, s.resolve f i ≠ .ok (.block label)
  /-- What is missed is outside the arena, or it is no literal and has not been lowered. -/
  missed : ∀ i v, s.resolve f i = .error v ↔ v = .undefinedOperand i s.fn ∧
    (s.body.get? i = none ∨
      ∃ inst, s.body.get? i = some inst ∧ inst.kind.isConstant = false ∧ i ∉ front)

theorem Body.operandOf_cases (b : Body) (i : InstId) :
    (b.takesSlot i = true ∧ b.operandOf i = .slot (b.slotOf i)) ∨
      (b.takesSlot i = false ∧ b.operandOf i = .onStack) := by
  unfold operandOf
  cases b.takesSlot i with
  | true => exact .inl ⟨rfl, rfl⟩
  | false => exact .inr ⟨rfl, rfl⟩

theorem Body.operandOf_ne_literal (b : Body) (i j : InstId) : b.operandOf i ≠ .literal j := by
  rcases b.operandOf_cases i with ⟨-, ho⟩ | ⟨-, ho⟩ <;> simp [ho]

theorem Body.operandOf_ne_block (b : Body) (i : InstId) (label : UInt32) :
    b.operandOf i ≠ .block label := by
  rcases b.operandOf_cases i with ⟨-, ho⟩ | ⟨-, ho⟩ <;> simp [ho]

namespace Frame.Mirrors

variable {f : Frame} {b : Body} {front after : List InstId} {i : InstId}

/-! ## Values -/

theorem eq_operandOf (hf : f.Mirrors b front after) {v : Operand} (h : f.values[i]? = some v) :
    b.operandOf i = v := by
  rw [hf.values] at h
  split at h
  · exact Option.some.inj h
  · cases h

theorem slot_iff {before later : List InstId} (hf : f.Mirrors b front after)
    (hc : front = before ++ i :: later) {n : Nat} :
    f.values[i]? = some (.slot n) ↔ b.takesSlot i = true ∧ n = before.countP b.takesSlot := by
  have hcode : b.code = before ++ i :: (later ++ after) := by simp [hf.code, hc]
  have hn : (before ++ i :: later).Nodup := hc ▸ hf.nodup
  have hi : i ∉ before := fun hm => (List.nodup_append.mp hn).2.2 i hm i List.mem_cons_self rfl
  rw [hf.values, if_pos (by simp [hc]), ← Body.slotOf_eq hcode hi]
  rcases b.operandOf_cases i with ⟨ht, ho⟩ | ⟨ht, ho⟩
  · simp [ht, ho, eq_comm]
  · simp [ht, ho]

theorem onStack_iff (hf : f.Mirrors b front after) (hi : i ∈ front) :
    f.values[i]? = some .onStack ↔ b.takesSlot i = false := by
  rw [hf.values, if_pos hi]
  rcases b.operandOf_cases i with ⟨ht, ho⟩ | ⟨ht, ho⟩
  · simp [ht, ho]
  · simp [ht, ho]

/-! ## Counting -/

theorem keys_perm (hf : f.Mirrors b front after) : f.values.keys.Perm front := by
  refine (List.perm_ext_iff_of_nodup Std.HashMap.nodup_keys hf.nodup).mpr fun i => ?_
  rw [Std.HashMap.mem_keys, ← Std.HashMap.contains_iff_mem, hf.contains]

theorem isSlot_eq_takesSlot (hf : f.Mirrors b front after) {e : InstId × Operand}
    (he : e ∈ f.values.toList) : e.2.isSlot = b.takesSlot e.1 := by
  rw [← hf.eq_operandOf (Std.HashMap.mem_toList_iff_getElem?_eq_some.mp he)]
  rcases b.operandOf_cases e.1 with ⟨ht, ho⟩ | ⟨ht, ho⟩
  · rw [ht, ho]
    rfl
  · rw [ht, ho]
    rfl

theorem slots_eq_countP (hf : f.Mirrors b front after) :
    f.slots = f.values.toList.countP fun e => e.2.isSlot :=
  calc
    f.slots = front.countP b.takesSlot := hf.slots
    _ = f.values.keys.countP b.takesSlot := (hf.keys_perm.countP_eq _).symm
    _ = (f.values.toList.map Prod.fst).countP b.takesSlot := by
      rw [Std.HashMap.map_fst_toList_eq_keys]
    _ = f.values.toList.countP fun e => b.takesSlot e.1 := List.countP_map
    _ = f.values.toList.countP fun e => e.2.isSlot :=
      List.countP_congr fun e he => by rw [hf.isSlot_eq_takesSlot he]

theorem noLiteral (hf : f.Mirrors b front after) (i j : InstId) :
    f.values[i]? ≠ some (.literal j) :=
  fun h => b.operandOf_ne_literal i j (hf.eq_operandOf h)

theorem notes (hf : f.Mirrors b front after) (hl : b.LowersAll [] front) : f.Notes b front where
  once := hf.nodup
  keys := hf.keys_perm
  slot _ _ _ hc _ := hf.slot_iff hc
  onStack _ hi := hf.onStack_iff hi
  noLiteral := hf.noLiteral
  noBlock i label h := b.operandOf_ne_block i label (hf.eq_operandOf h)
  slots := hf.slots_eq_countP
  bound := by
    rw [hf.slots]
    exact hl.countP_front_lt

end Frame.Mirrors

/-! ## Operands -/

namespace Scope

variable {s : Scope} {f : Frame} {front after : List InstId}

theorem resolve_eq_literal_iff (hf : f.Mirrors s.body front after) {i j : InstId} :
    s.resolve f i = .ok (.literal j) ↔ i = j ∧ (s.body.literal? i).isSome := by
  unfold resolve Body.literal?
  cases s.body.get? i with
  | none => simp
  | some inst =>
      cases hk : inst.kind.literal? with
      | some l => simp [InstKind.isConstant, hk]
      | none =>
          have hn := hf.noLiteral i j
          cases hv : f.values[i]? with
          | none => simp [InstKind.isConstant, hk]
          | some v => simpa [InstKind.isConstant, hk, hv] using hn

theorem resolve_ne_block (hf : f.Mirrors s.body front after) (i : InstId) (label : UInt32) :
    s.resolve f i ≠ .ok (.block label) := by
  intro h
  obtain ⟨-, hv⟩ := (resolve_eq_ok hf).mp h
  split at hv
  · cases hv
  · exact s.body.operandOf_ne_block i label hv

theorem resolve_eq_error_iff (hf : f.Mirrors s.body front after) {i : InstId} {v : Violation} :
    s.resolve f i = .error v ↔ v = .undefinedOperand i s.fn ∧
      (s.body.get? i = none ∨
        ∃ inst, s.body.get? i = some inst ∧ inst.kind.isConstant = false ∧ i ∉ front) := by
  unfold resolve
  cases s.body.get? i with
  | none => simpa using eq_comm
  | some inst =>
      cases hk : inst.kind.isConstant with
      | true => simp [hk]
      | false =>
          by_cases hi : i ∈ front
          · simp [hk, hf.values, hi]
          · simpa [hk, hf.values, hi] using eq_comm

/-- After any number of instructions the frame holds their values, by which later operands are
found. -/
theorem notes_lowerAll (hc : front <+: s.body.code)
    (h : (s.lowerAll .empty front).result = .ok f) : f.Notes s.body front ∧ s.Finds f front := by
  obtain ⟨after, hc⟩ := hc
  obtain ⟨-, hf, hl⟩ := lowerAll_front_yields hc.symm ⟨rfl, h⟩
  refine ⟨hf.notes hl, fun i j => resolve_eq_literal_iff hf, resolve_ne_block hf, ?missed⟩
  exact fun i v => resolve_eq_error_iff hf

end Scope

/-- Behind the addition of `Body.settle` neither the call nor an id outside the arena is found. -/
theorem notes_lowerAll_settle :
    ∃ f : Frame, [⟨0⟩, ⟨1⟩, ⟨2⟩, ⟨3⟩, ⟨5⟩] <+: Body.settle.code ∧
      ((Scope.mk "settle" .settle).lowerAll .empty [⟨0⟩, ⟨1⟩, ⟨2⟩, ⟨3⟩, ⟨5⟩]).result = .ok f ∧
      f.values.keys.Perm [⟨0⟩, ⟨1⟩, ⟨2⟩, ⟨3⟩, ⟨5⟩] ∧
      f.values[(⟨0⟩ : InstId)]? = some (.slot 0) ∧ f.values[(⟨1⟩ : InstId)]? = some (.slot 1) ∧
      f.values[(⟨5⟩ : InstId)]? = some .onStack ∧
      f.values.toList.countP (fun e => e.2.isSlot) = f.slots ∧
      (Scope.mk "settle" .settle).resolve f ⟨4⟩ = .ok (.literal ⟨4⟩) ∧
      (Scope.mk "settle" .settle).resolve f ⟨7⟩ = .error (.undefinedOperand ⟨7⟩ "settle") ∧
      (Scope.mk "settle" .settle).resolve f ⟨9⟩ = .error (.undefinedOperand ⟨9⟩ "settle") := by
  have hfront : [⟨0⟩, ⟨1⟩, ⟨2⟩, ⟨3⟩, ⟨5⟩] <+: Body.settle.code := ⟨[⟨7⟩, ⟨8⟩], rfl⟩
  obtain ⟨os, f, -, hr⟩ := Scope.exists_lowerAll_front (s := ⟨"settle", .settle⟩)
    Body.lowerable_settle hfront
  obtain ⟨hn, hs⟩ := Scope.notes_lowerAll hfront hr
  refine ⟨f, hfront, hr, hn.keys, ?_, ?_, ?_, hn.slots.symm, ?_, ?_, ?_⟩
  · exact (hn.slot [] ⟨0⟩ _ rfl 0).mpr ⟨rfl, rfl⟩
  · exact (hn.slot [⟨0⟩] ⟨1⟩ _ rfl 1).mpr ⟨rfl, rfl⟩
  · exact (hn.onStack ⟨5⟩ (by decide)).mpr rfl
  · exact (hs.literal ⟨4⟩ ⟨4⟩).mpr ⟨rfl, rfl⟩
  · exact (hs.missed ⟨7⟩ _).mpr ⟨rfl, .inr ⟨_, rfl, rfl, by decide⟩⟩
  · exact (hs.missed ⟨9⟩ _).mpr ⟨rfl, .inl rfl⟩

end WasmLowering
