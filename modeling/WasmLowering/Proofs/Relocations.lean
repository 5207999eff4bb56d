import WasmLowering.Proofs.Acceptance
import WasmLowering.Proofs.Linking

/-!
# The relocations mirror the calls

A function has one relocation for each call of its block, in the order of the block. The offset of
a relocation is the length that the code had when the opcode of its call was written: it was cut to
32 bits then, but a body that long is refused in the end.
-/

namespace WasmLowering

/-! ## The code at a point of the block -/

namespace InstKind

def callee? : InstKind → Option InstId
  | call callee _ => some callee
  | _ => none

end InstKind

/-- The function that the instruction calls, unless it is no call. -/
def Body.callTarget? (b : Body) (i : InstId) : Option DeclId := do
  b.callee? (← (← b.get? i).kind.callee?)

/-- What the code buffer holds once the instructions of `front` are lowered: the slot of the size,
the locals table and their operations. -/
def Decl.buffer (d : Decl) (b : Body) (slots : Slots) (front : List InstId) : List UInt8 :=
  List.replicate paddedWidth 0 ++ slots.table
    ++ ((Scope.mk d.name b).lowerAll .empty front).ops.flatMap Op.bytes

/-- The relocations of `fc` are those of the calls of the block, `buffer` being the code behind
each part of it; `ops` are the operations of the body at the offsets of their opcodes. -/
structure FunctionCode.MarksCalls (fc : FunctionCode) (b : Body)
    (buffer : List InstId → List UInt8) (ops : List (Nat × Op)) : Prop where
  targets : (fc.relocs.map fun r => some r.target) = (b.code.filter b.isCall).map b.callTarget?
  /-- Only the size is still written over what the buffer holds. -/
  kept : ∀ front after, b.code = front ++ after →
    (buffer front).drop paddedWidth <+: fc.body.drop paddedWidth
  offsets : ∀ before i after, b.code = before ++ i :: after → b.isCall i = true →
    ∃ r code, fc.relocs[before.countP b.isCall]? = some r ∧
      buffer (before ++ [i]) = code ++ [0x10] ∧ r.offset.toNat = (buffer (before ++ [i])).length
  opcodes : ∀ r ∈ fc.relocs, ∃ p, r.offset.toNat = p + 1 ∧ fc.body[p]? = some 0x10
  increasing : fc.relocs.Pairwise fun r r' => r.offset.toNat < r'.offset.toNat
  inside : ∀ r ∈ fc.relocs, r.offset.toNat < fc.body.length
  /-- No other operation of the body is a call. -/
  calls : (ops.filter fun x => x.2.isCall).map (fun x => (x.1 + 1, x.2))
    = fc.relocs.map fun r => (r.offset.toNat, .callReloc r.target)

namespace Scope

variable {s : Scope}

theorem lowerAll_append (f : Frame) (l r : List InstId) :
    s.lowerAll f (l ++ r) = s.lowerAll f l >>= fun f' => s.lowerAll f' r := by
  induction l generalizing f with
  | nil => rw [List.nil_append, lowerAll, pure_bind]
  | cons i l ih =>
      rw [List.cons_append, lowerAll, lowerAll, bind_assoc]
      simp only [ih]

/-- A block that can be lowered can be lowered in part. -/
theorem exists_lowerAll_front (h : s.body.Lowerable) {front : List InstId}
    (hc : front <+: s.body.code) : ∃ os f, (s.lowerAll .empty front).Yields os f := by
  obtain ⟨after, hc⟩ := hc
  obtain ⟨frame, hf⟩ := exists_lowerAll_block h
  have hy : (s.lowerAll .empty (front ++ after)).Yields
      (s.lowerAll .empty (front ++ after)).ops frame := ⟨rfl, hc.symm ▸ hf⟩
  rw [lowerAll_append, Emission.yields_bind] at hy
  obtain ⟨os, f, -, hfront, -, -⟩ := hy
  exact ⟨os, f, hfront⟩

/-- The operations of the first instructions are written before the others are looked at. -/
theorem ops_lowerAll_front (h : s.body.Lowerable) {front after : List InstId}
    (hc : s.body.code = front ++ after) :
    (s.lowerAll .empty front).ops = front.flatMap s.body.lowered := by
  obtain ⟨os, f, hfront⟩ := exists_lowerAll_front h ⟨after, hc.symm⟩
  rw [hfront.1]
  exact (lowerAll_front_yields hc hfront).1

end Scope

/-! ## Relocations of operations -/

section

variable {pos : Nat} {os : List Op}

theorem relocsFrom_append (pos : Nat) (os os' : List Op) : relocsFrom pos (os ++ os')
    = relocsFrom pos os ++ relocsFrom (pos + (os.flatMap Op.bytes).length) os' := by
  induction os generalizing pos with
  | nil => rfl
  | cons o os ih => cases o <;> simp [relocsFrom, ih, Nat.add_assoc]

theorem relocsFrom_eq_nil (h : os.countP Op.isPending = 0) : relocsFrom pos os = [] :=
  List.eq_nil_of_length_eq_zero ((length_relocsFrom pos os).trans h)

theorem pairwise_relocsFrom (h : OffsetsFit pos os) :
    (relocsFrom pos os).Pairwise fun r r' => r.offset.toNat < r'.offset.toNat := by
  induction os generalizing pos with
  | nil => exact .nil
  | cons o os ih =>
      cases hp : o.isPending with
      | true =>
          obtain ⟨target, rfl⟩ := Op.eq_callReloc_of_isPending hp
          refine .cons (fun r hr => ?_) (ih h.tail)
          exact Nat.lt_of_le_of_lt (Nat.le_of_eq h.toNat_offset)
            (Reloc.lt_offset_of_mem_relocsFrom h.tail r hr)
      | false =>
          rw [relocsFrom_cons hp]
          exact ih h.tail

theorem offset_le_of_mem_relocsFrom (h : OffsetsFit pos os) :
    ∀ r ∈ relocsFrom pos os, r.offset.toNat ≤ pos + (os.flatMap Op.bytes).length := by
  induction os generalizing pos with
  | nil => exact List.forall_mem_nil _
  | cons o os ih =>
      have hrest : ∀ r ∈ relocsFrom (pos + o.bytes.length) os,
          r.offset.toNat ≤ pos + ((o :: os).flatMap Op.bytes).length := by
        intro r hr
        rw [List.flatMap_cons, List.length_append, ← Nat.add_assoc]
        exact ih h.tail r hr
      cases hp : o.isPending with
      | true =>
          obtain ⟨target, rfl⟩ := Op.eq_callReloc_of_isPending hp
          refine List.forall_mem_cons.mpr ⟨?_, hrest⟩
          rw [h.toNat_offset]
          simp [Op.bytes]
      | false =>
          rw [relocsFrom_cons hp]
          exact hrest

/-- The calls among operations in place are where the relocations say. -/
theorem map_filter_placed (h : OffsetsFit pos os) (ho : ∀ o ∈ os, o.Emitted) :
    ((Op.placed Op.bytes pos (os ++ [.endMark])).filter fun x => x.2.isCall).map
        (fun x => (x.1 + 1, x.2))
      = (relocsFrom pos os).map fun r => (r.offset.toNat, .callReloc r.target) := by
  induction os generalizing pos with
  | nil => rfl
  | cons o os ih =>
      have hrest := ih h.tail fun o hm => ho o (List.mem_cons_of_mem _ hm)
      rw [List.cons_append, Op.placed]
      cases hp : o.isPending with
      | true =>
          obtain ⟨target, rfl⟩ := Op.eq_callReloc_of_isPending hp
          rw [List.filter_cons_of_pos rfl, List.map_cons, hrest, relocsFrom, List.map_cons,
            h.toNat_offset]
      | false =>
          have hc : o.isCall = false := (ho o (List.mem_cons_self ..)).isCall_eq_isPending.trans hp
          rw [List.filter_cons_of_neg (by simp [hc]), hrest, relocsFrom_cons hp]

end

/-! ## Relocations of instructions -/

namespace Body

variable {b : Body} {before is : List InstId} {i : InstId}

theorem callTarget?_eq {inst : Inst} (h : b.get? i = some inst) :
    b.callTarget? i = inst.kind.callee?.bind b.callee? := by
  rw [callTarget?, h]
  rfl

/-- The last operation of a call is the call itself. -/
theorem exists_lowered_call (h : b.LowersAt before i) (hc : b.isCall i = true) :
    ∃ pushed target, b.callTarget? i = some target ∧
      b.lowered i = pushed ++ [.callReloc target] ∧ pushed.countP Op.isPending = 0 := by
  obtain ⟨inst, hi, -, hl⟩ := h
  rw [lowered_eq hi, callTarget?_eq hi]
  unfold isCall at hc
  unfold Lowers at hl
  unfold loweredInst
  cases hk : inst.kind with
  | call callee args =>
      rw [hk] at hl
      obtain ⟨target, ht⟩ := Option.isSome_iff_exists.mp hl.1
      exact ⟨args.flatMap b.pushOps, target, ht, by simp [ht],
        b.countP_isPending_flatMap_pushOps args⟩
  | _ => simp [hi, hk] at hc

theorem relocsFrom_lowered_of_not_call (pos : Nat) (h : b.LowersAt before i)
    (hc : b.isCall i = false) : relocsFrom pos (b.lowered i) = [] :=
  relocsFrom_eq_nil (by rw [countP_isPending_lowered h, hc]; rfl)

/-- A call is relocated at the end of its operations. -/
theorem relocsFrom_lowered_of_call (pos : Nat) (h : b.LowersAt before i) (hc : b.isCall i = true) :
    ∃ target, b.callTarget? i = some target ∧ relocsFrom pos (b.lowered i)
      = [⟨UInt32.ofNat (pos + ((b.lowered i).flatMap Op.bytes).length), target⟩] := by
  obtain ⟨pushed, target, ht, ho, hp⟩ := exists_lowered_call h hc
  refine ⟨target, ht, ?_⟩
  rw [ho, relocsFrom_append, relocsFrom_eq_nil hp, List.nil_append]
  simp [relocsFrom, Op.bytes, Op.immediate, Nat.add_assoc]

theorem LowersAll.map_target (pos : Nat) (h : b.LowersAll before is) :
    ((relocsFrom pos (is.flatMap b.lowered)).map fun r => some r.target)
      = (is.filter b.isCall).map b.callTarget? := by
  induction is generalizing before pos with
  | nil => rfl
  | cons i is ih =>
      rw [List.flatMap_cons, relocsFrom_append, List.map_append, ih _ h.2]
      cases hc : b.isCall i with
      | true =>
          obtain ⟨target, ht, hr⟩ := relocsFrom_lowered_of_call pos h.1 hc
          rw [hr, List.filter_cons_of_pos hc, List.map_cons, List.map_cons, ht]
          rfl
      | false =>
          rw [relocsFrom_lowered_of_not_call pos h.1 hc, List.filter_cons_of_neg (by simp [hc])]
          rfl

/-- The relocations of a block taken apart at one of its calls. -/
theorem exists_blockRelocs_split {after : List InstId} (pos : Nat) (h : b.Lowerable)
    (hc : b.code = before ++ i :: after) (hi : b.isCall i = true) :
    ∃ target, b.callTarget? i = some target ∧
      b.blockRelocs pos = relocsFrom pos (before.flatMap b.lowered)
        ++ ⟨UInt32.ofNat (pos + (((before ++ [i]).flatMap b.lowered).flatMap Op.bytes).length),
          target⟩
        :: relocsFrom (pos + (((before ++ [i]).flatMap b.lowered).flatMap Op.bytes).length)
          (after.flatMap b.lowered) := by
  obtain ⟨target, ht, hr⟩ := relocsFrom_lowered_of_call
    (pos + ((before.flatMap b.lowered).flatMap Op.bytes).length) (h.lowersAt hc) hi
  refine ⟨target, ht, ?_⟩
  have hlen : pos + ((before.flatMap b.lowered).flatMap Op.bytes).length
      + ((b.lowered i).flatMap Op.bytes).length
      = pos + (((before ++ [i]).flatMap b.lowered).flatMap Op.bytes).length := by
    simp [Nat.add_assoc]
  rw [blockRelocs, loweredAll, hc, List.flatMap_append, List.flatMap_cons, relocsFrom_append,
    relocsFrom_append, hr, hlen]
  rfl

end Body

/-! ## Functions -/

namespace Generates

variable {id : DeclId} {d : Decl} {s : Signature} {b : Body} {slots : Slots} {fc : FunctionCode}

theorem relocs_eq (h : Generates id d s b slots fc) :
    fc.relocs = b.blockRelocs slots.blockStart := by
  rw [h.code]

theorem buffer_eq (h : Generates id d s b slots fc) {front after : List InstId}
    (hc : b.code = front ++ after) : d.buffer b slots front = List.replicate paddedWidth 0
      ++ slots.table ++ (front.flatMap b.lowered).flatMap Op.bytes := by
  rw [Decl.buffer, Scope.ops_lowerAll_front (s := ⟨d.name, b⟩) h.lowerable hc]

theorem length_buffer (h : Generates id d s b slots fc) {front after : List InstId}
    (hc : b.code = front ++ after) : (d.buffer b slots front).length
      = slots.blockStart + ((front.flatMap b.lowered).flatMap Op.bytes).length := by
  rw [h.buffer_eq hc, List.length_append, List.length_append, List.length_replicate,
    Slots.blockStart]

theorem length_body (h : Generates id d s b slots fc) :
    fc.body.length = slots.blockStart + (b.loweredAll.flatMap Op.bytes).length + 1 := by
  rw [h.code]
  simp [Body.blockBytes, Op.bytes, Op.immediate, Slots.blockStart]
  omega

theorem buffer_kept (h : Generates id d s b slots fc) {front after : List InstId}
    (hc : b.code = front ++ after) :
    (d.buffer b slots front).drop paddedWidth <+: fc.body.drop paddedWidth := by
  have hbody : fc.body.drop paddedWidth = slots.table ++ b.blockBytes := by
    rw [h.code, List.append_assoc]
    exact List.drop_left' (Leb.length_padded _ _)
  have hbuffer : (d.buffer b slots front).drop paddedWidth
      = slots.table ++ (front.flatMap b.lowered).flatMap Op.bytes := by
    rw [h.buffer_eq hc, List.append_assoc]
    exact List.drop_left' (List.length_replicate ..)
  rw [hbody, hbuffer, List.prefix_append_right_inj, Body.blockBytes, Body.loweredAll, hc]
  simp

theorem buffer_of_call (h : Generates id d s b slots fc) {before after : List InstId} {i : InstId}
    (hc : b.code = (before ++ [i]) ++ after) (hi : b.isCall i = true) :
    ∃ code, d.buffer b slots (before ++ [i]) = code ++ [0x10] := by
  have hat : b.code = before ++ i :: after := by simp [hc]
  obtain ⟨pushed, target, -, ho, -⟩ := Body.exists_lowered_call (h.lowerable.lowersAt hat) hi
  rw [h.buffer_eq hc, List.flatMap_append, List.flatMap_singleton, ho, ← List.append_assoc,
    List.flatMap_append, ← List.append_assoc]
  exact ⟨_, rfl⟩

/-- A call is relocated at the length of the code behind it, and that has 32 bits. -/
theorem exists_reloc (h : Generates id d s b slots fc) {before after : List InstId} {i : InstId}
    (hc : b.code = before ++ i :: after) (hi : b.isCall i = true) :
    ∃ r, fc.relocs[before.countP b.isCall]? = some r ∧ b.callTarget? i = some r.target ∧
      r.offset.toNat = (d.buffer b slots (before ++ [i])).length := by
  have hc' : b.code = (before ++ [i]) ++ after := by simp [hc]
  obtain ⟨target, ht, hsplit⟩ := Body.exists_blockRelocs_split slots.blockStart h.lowerable hc hi
  have hbefore : b.LowersAll [] before := by
    have hl := h.lowerable
    unfold Body.Lowerable at hl
    rw [hc] at hl
    exact hl.left
  have hlen : (relocsFrom slots.blockStart (before.flatMap b.lowered)).length
      = before.countP b.isCall := by
    rw [length_relocsFrom, hbefore.countP_isPending]
  have hfit : slots.blockStart + (((before ++ [i]).flatMap b.lowered).flatMap Op.bytes).length
      < UInt32.size := by
    have hlt := h.offsetsFit (by
      change b.blockRelocs slots.blockStart ≠ []
      rw [hsplit]
      simp)
    rw [Body.loweredAll, hc', List.flatMap_append, List.flatMap_append, List.length_append] at hlt
    omega
  refine ⟨⟨UInt32.ofNat (slots.blockStart
    + (((before ++ [i]).flatMap b.lowered).flatMap Op.bytes).length), target⟩, ?_, ht, ?_⟩
  · rw [h.relocs_eq, hsplit, ← hlen]
    simp
  · rw [h.length_buffer hc']
    exact UInt32.toNat_ofNat_of_lt' hfit

theorem calls (h : Generates id d s b slots fc) :
    ((Op.placed Op.bytes slots.blockStart (b.loweredAll ++ [.endMark])).filter
        fun x => x.2.isCall).map (fun x => (x.1 + 1, x.2))
      = fc.relocs.map fun r => (r.offset.toNat, .callReloc r.target) := by
  rw [h.relocs_eq]
  exact map_filter_placed h.offsetsFit h.emitted

theorem getElem?_body (h : Generates id d s b slots fc) {p : Nat} {o : Op}
    (ho : (p, o) ∈ Op.placed Op.bytes slots.blockStart (b.loweredAll ++ [.endMark])) :
    fc.body[p]? = some o.opcode := by
  have hlen : (Leb.padded paddedWidth (b.linkedSize slots) ++ slots.table).length
      = slots.blockStart := by simp [Slots.blockStart]
  rw [← hlen] at ho
  rw [h.code]
  exact Op.getElem?_of_mem_placed ho

theorem marksCalls (h : Generates id d s b slots fc) :
    fc.MarksCalls b (d.buffer b slots)
      (Op.placed Op.bytes slots.blockStart (b.loweredAll ++ [.endMark])) where
  targets := by
    rw [h.relocs_eq]
    exact Body.LowersAll.map_target slots.blockStart h.lowerable
  kept _ _ := h.buffer_kept
  offsets before i after hc hi := by
    obtain ⟨r, hr, -, ho⟩ := h.exists_reloc hc hi
    obtain ⟨code, hcode⟩ := h.buffer_of_call (by simpa using hc) hi
    exact ⟨r, code, hr, hcode, ho⟩
  opcodes r hr := by
    have hm := List.mem_map_of_mem (f := fun r => (r.offset.toNat, Op.callReloc r.target)) hr
    rw [← h.calls] at hm
    obtain ⟨⟨p, o⟩, hx, he⟩ := List.mem_map.mp hm
    obtain ⟨hp, rfl⟩ := Prod.mk.inj he
    exact ⟨p, hp.symm, h.getElem?_body (List.mem_of_mem_filter hx)⟩
  increasing := by
    rw [h.relocs_eq]
    exact pairwise_relocsFrom h.offsetsFit
  inside r hr := by
    rw [h.relocs_eq] at hr
    rw [h.length_body]
    exact Nat.lt_succ_of_le (offset_le_of_mem_relocsFrom h.offsetsFit r hr)
  calls := h.calls

end Generates

/-- The relocations of a generated function mark exactly the calls of its block, in order, each at
the length of the code right behind the opcode of the call. -/
theorem relocs_generateFunction {id : DeclId} {d : Decl} {fc : FunctionCode}
    (h : generateFunction id d = .ok fc) :
    ∃ b slots dec, d.body? = some b ∧ Slots.ofBlock b b.code = .ok slots ∧
      DecodedBody.read fc.body fc.relocs = .ok dec ∧
      fc.MarksCalls b (d.buffer b slots) dec.ops := by
  obtain ⟨s, b, slots, hg⟩ := generateFunction_eq_ok_iff.mp h
  exact ⟨b, slots, _, hg.body, hg.counted, hg.read, hg.marksCalls⟩

/-! ## A function of four calls -/

/-- Passes 200 through one function to another, calls a third and the second again. -/
def Body.relay : Body where
  insts := #[
    ⟨.fn [.int true 32] (.int true 32), .constant (.function ⟨1⟩), .synthetic⟩,
    ⟨.fn [.int true 32] .void, .constant (.function ⟨9⟩), .synthetic⟩,
    ⟨.fn [] .void, .constant (.function ⟨8⟩), .synthetic⟩,
    ⟨.int true 32, .constant (.int 200), .synthetic⟩,
    ⟨.int true 32, .call ⟨0⟩ [⟨3⟩], ⟨0, 10, 14⟩⟩,
    ⟨.void, .call ⟨1⟩ [⟨4⟩], ⟨0, 20, 24⟩⟩,
    ⟨.void, .call ⟨2⟩ [], ⟨0, 30, 34⟩⟩,
    ⟨.void, .call ⟨1⟩ [⟨3⟩], ⟨0, 40, 44⟩⟩,
    ⟨.noReturn, .retVoid, .synthetic⟩]
  code := [⟨4⟩, ⟨5⟩, ⟨6⟩, ⟨7⟩, ⟨8⟩]

def Decl.relay : Decl := .function "relay" ⟨[], .void⟩ .relay

theorem Body.lowerable_relay : Body.relay.Lowerable := by
  refine ⟨?first, ?second, ?third, ?fourth, ?ret, trivial⟩
  case first =>
      refine ⟨_, rfl, by decide, rfl, List.forall_mem_singleton.mpr ?_⟩
      exact ⟨_, rfl, .inl ⟨_, _, rfl, rfl⟩⟩
  case second =>
      refine ⟨_, rfl, by decide, rfl, List.forall_mem_singleton.mpr ?_⟩
      exact ⟨_, rfl, .inr ⟨rfl, by decide⟩⟩
  case third => exact ⟨_, rfl, by decide, rfl, List.forall_mem_nil _⟩
  case fourth =>
      refine ⟨_, rfl, by decide, rfl, List.forall_mem_singleton.mpr ?_⟩
      exact ⟨_, rfl, .inl ⟨_, _, rfl, rfl⟩⟩
  case ret => exact ⟨_, rfl, by decide, trivial⟩

theorem exists_generates_relay (id : DeclId) :
    ∃ fc, Generates id .relay ⟨[], .void⟩ .relay ⟨0, []⟩ fc := by
  refine ⟨_, rfl, ?_, rfl, rfl, rfl, Body.lowerable_relay, ?_, rfl⟩
  · decide +kernel
  · decide +kernel

theorem relocs_generateFunction_relay :
    ∃ fc dec, generateFunction ⟨0⟩ .relay = .ok fc ∧
      fc.relocs = [⟨10, ⟨1⟩⟩, ⟨11, ⟨9⟩⟩, ⟨12, ⟨8⟩⟩, ⟨16, ⟨9⟩⟩] ∧
      DecodedBody.read fc.body fc.relocs = .ok dec ∧
      (dec.ops.filter fun x => x.2.isCall).map (fun x => (x.1 + 1, x.2))
        = [(10, .callReloc ⟨1⟩), (11, .callReloc ⟨9⟩), (12, .callReloc ⟨8⟩),
          (16, .callReloc ⟨9⟩)] ∧
      fc.body[15]? = some 0x10 := by
  obtain ⟨fc, hg⟩ := exists_generates_relay ⟨0⟩
  have h := generateFunction_eq_ok_iff.mpr ⟨_, _, _, hg⟩
  have hr : fc.relocs = [⟨10, ⟨1⟩⟩, ⟨11, ⟨9⟩⟩, ⟨12, ⟨8⟩⟩, ⟨16, ⟨9⟩⟩] := by
    rw [hg.code]
    decide +kernel
  obtain ⟨b, slots, dec, -, -, hread, hm⟩ := relocs_generateFunction h
  refine ⟨fc, dec, h, hr, hread, ?_, ?_⟩
  · rw [hm.calls, hr]
    rfl
  · obtain ⟨p, hp, hbyte⟩ := hm.opcodes ⟨16, ⟨9⟩⟩ (by simp [hr])
    obtain rfl : 15 = p := Nat.succ.inj hp
    exact hbyte

end WasmLowering
