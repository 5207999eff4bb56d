import Mathlib.Data.List.Nodup
import Mathlib.Data.List.Perm.Subperm
import Mathlib.Data.List.TakeWhile
import WasmLowering.Proofs.Generation
import WasmLowering.Proofs.Reader

/-!
# A generated body is read back

The operations of a block are found again in its bytes, each at the offset of its opcode: the
indices fit, the opcodes differ, and the relocations name exactly the calls.
-/

namespace WasmLowering

/-! ## The operations that lowering writes -/

/-- An operation that lowering can write. -/
def Op.Emitted : Op → Prop
  | localGet n | localSet n => n < UInt32.size
  | call _ | .endMark => False
  | _ => True

theorem Op.eq_callReloc_of_isPending {o : Op} (h : o.isPending = true) :
    ∃ target, o = .callReloc target := by
  cases o with
  | callReloc target => exact ⟨target, rfl⟩
  | _ => cases h

namespace Op.Emitted

variable {o : Op}

theorem ne_endMark (h : o.Emitted) : o ≠ .endMark := by
  rintro rfl
  exact h

theorem encodable (h : o.Emitted) : o.Encodable := by
  cases o with
  | call n => exact h.elim
  | endMark => exact h.elim
  | _ => exact h

theorem isCall_eq_isPending (h : o.Emitted) : o.isCall = o.isPending := by
  cases o with
  | call n => exact h.elim
  | _ => rfl

end Op.Emitted

theorem Scalar.emitted_op (v : Scalar) : v.op.Emitted := by
  cases v <;> trivial

theorem InstId.toNat_index_inj {i j : InstId} : i.index.toNat = j.index.toNat ↔ i = j := by
  cases i
  cases j
  rw [UInt32.toNat_inj, InstId.mk.injEq]

theorem InstId.length_le_of_nodup {is : List InstId} (h : is.Nodup) : is.length ≤ UInt32.size := by
  have hn : (is.map fun i => i.index.toNat).Nodup :=
    List.Nodup.map (fun _ _ => InstId.toNat_index_inj.mp) h
  have hs : (is.map fun i => i.index.toNat) ⊆ List.range UInt32.size := by
    intro n hm
    obtain ⟨i, _, rfl⟩ := List.mem_map.mp hm
    exact List.mem_range.mpr i.index.toNat_lt
  simpa using (List.subperm_of_subset hn hs).length_le

namespace Body

variable {b : Body}

theorem slotOf_lt (h : b.code.Nodup) (i : InstId) : b.slotOf i < UInt32.size := by
  have hn : (i :: b.code.takeWhile (· != i)).Nodup := by
    refine List.nodup_cons.mpr ⟨?_, (List.takeWhile_sublist _).nodup h⟩
    intro hm
    simpa using List.mem_takeWhile_imp hm
  have hl := InstId.length_le_of_nodup hn
  have hc := List.countP_le_length (p := b.takesSlot) (l := b.code.takeWhile (· != i))
  rw [List.length_cons] at hl
  unfold slotOf
  omega

theorem emitted_of_mem_pushOps (h : b.code.Nodup) {i : InstId} {o : Op} (ho : o ∈ b.pushOps i) :
    o.Emitted := by
  unfold pushOps at ho
  split at ho
  · cases ho
  · split at ho
    · obtain ⟨v, _, rfl⟩ : ∃ v, _ = some v ∧ Scalar.op v = o := by simpa using ho
      exact v.emitted_op
    · obtain rfl := List.mem_singleton.mp ho
      exact slotOf_lt h i
    · obtain rfl := List.mem_singleton.mp ho
      exact slotOf_lt h i
    · cases ho

theorem emitted_of_mem_loweredInst (h : b.code.Nodup) {inst : Inst} {o : Op}
    (ho : o ∈ b.loweredInst inst) : o.Emitted := by
  unfold loweredInst at ho
  split at ho
  · exact emitted_of_mem_pushOps h ho
  · rcases List.mem_append.mp ho with ho | ho
    · exact emitted_of_mem_pushOps h ho
    · obtain rfl := List.mem_singleton.mp ho
      exact slotOf_lt h _
  · rcases List.mem_append.mp ho with ho | ho
    · rcases List.mem_append.mp ho with ho | ho
      · exact emitted_of_mem_pushOps h ho
      · exact emitted_of_mem_pushOps h ho
    · obtain ⟨t, _, rfl⟩ : ∃ t, _ = some t ∧ Op.add t = o := by simpa using ho
      trivial
  · rcases List.mem_append.mp ho with ho | ho
    · obtain ⟨i, _, ho⟩ := List.mem_flatMap.mp ho
      exact emitted_of_mem_pushOps h ho
    · obtain ⟨t, _, rfl⟩ : ∃ t, _ = some t ∧ Op.callReloc t = o := by simpa using ho
      trivial
  · exact emitted_of_mem_pushOps h ho
  · cases ho

theorem emitted_of_mem_loweredAll (h : b.code.Nodup) {o : Op} (ho : o ∈ b.loweredAll) :
    o.Emitted := by
  obtain ⟨i, _, ho⟩ := List.mem_flatMap.mp ho
  unfold lowered at ho
  cases hi : b.get? i with
  | none => simp [hi] at ho
  | some inst => exact emitted_of_mem_loweredInst h (by simpa [hi] using ho)

end Body

/-! ## Relocations name the calls -/

theorem relocsFrom_cons {pos : Nat} {o : Op} {os : List Op} (h : o.isPending = false) :
    relocsFrom pos (o :: os) = relocsFrom (pos + o.bytes.length) os := by
  cases o with
  | callReloc target => cases h
  | _ => rfl

/-- With a call among the operations, all of them stand at offsets of 32 bits. -/
def OffsetsFit (pos : Nat) (os : List Op) : Prop :=
  relocsFrom pos os ≠ [] → pos + (os.flatMap Op.bytes).length < UInt32.size

namespace OffsetsFit

variable {pos : Nat} {o : Op} {os : List Op}

theorem tail (h : OffsetsFit pos (o :: os)) : OffsetsFit (pos + o.bytes.length) os := by
  intro hne
  have hcons : relocsFrom pos (o :: os) ≠ [] := by
    cases hp : o.isPending with
    | true =>
        obtain ⟨target, rfl⟩ := Op.eq_callReloc_of_isPending hp
        exact List.cons_ne_nil _ _
    | false => rwa [relocsFrom_cons hp]
  have hlt := h hcons
  rw [List.flatMap_cons, List.length_append] at hlt
  omega

theorem toNat_offset {target : DeclId} (h : OffsetsFit pos (.callReloc target :: os)) :
    (UInt32.ofNat (pos + 1)).toNat = pos + 1 := by
  have hlt := h (List.cons_ne_nil _ _)
  have hone : (Op.callReloc target).bytes.length = 1 := rfl
  rw [List.flatMap_cons, List.length_append, hone] at hlt
  exact UInt32.toNat_ofNat_of_lt' (by omega)

end OffsetsFit

theorem Reloc.forall_offset_le_append {before : List Reloc} {r : Reloc} {pos : Nat}
    (hb : ∀ r ∈ before, r.offset.toNat ≤ pos) (hr : r.offset.toNat = pos + 1) :
    ∀ r' ∈ before ++ [r], r'.offset.toNat ≤ pos + 1 := by
  intro r' hm
  rcases List.mem_append.mp hm with hm | hm
  · exact Nat.le_succ_of_le (hb r' hm)
  · obtain rfl := List.mem_singleton.mp hm
    exact Nat.le_of_eq hr

namespace Cursor

variable {before : List Reloc} {pos : Nat}

/-- The relocations before a call lie before its index, so its own one is found. -/
theorem relocAt?_append {r : Reloc} {after : List Reloc}
    (hb : ∀ r ∈ before, r.offset.toNat ≤ pos) (hn : (UInt32.ofNat (pos + 1)).toNat = pos + 1)
    (hr : r.offset = UInt32.ofNat (pos + 1)) : relocAt? (before ++ r :: after) pos = some r := by
  have hf : before.find? (fun r => r.offset == UInt32.ofNat (pos + 1)) = none := by
    rw [List.find?_eq_none]
    intro r hm he
    have ho := congrArg UInt32.toNat (beq_iff_eq.mp he)
    rw [hn] at ho
    have := hb r hm
    omega
  rw [relocAt?, List.find?_append, hf, Option.none_or, List.find?_cons_of_pos]
  exact beq_iff_eq.mpr hr

theorem readsAll_bytes {os : List Op} (hb : ∀ r ∈ before, r.offset.toNat ≤ pos)
    (ho : ∀ o ∈ os, o.Emitted) (hs : OffsetsFit pos os) :
    ReadsAll (before ++ relocsFrom pos os) Op.bytes pos os := by
  induction os generalizing before pos with
  | nil => trivial
  | cons o os ih =>
      have ho' : ∀ o ∈ os, o.Emitted := fun o hm => ho o (List.mem_cons_of_mem _ hm)
      cases hp : o.isPending with
      | true =>
          obtain ⟨target, rfl⟩ := Op.eq_callReloc_of_isPending hp
          have hn := hs.toNat_offset
          refine ⟨by simp, reads_callReloc (relocAt?_append hb hn rfl), ?_⟩
          have hb' : ∀ r ∈ before ++ [⟨UInt32.ofNat (pos + 1), target⟩],
              r.offset.toNat ≤ pos + 1 := Reloc.forall_offset_le_append hb hn
          have hr := ih hb' ho' hs.tail
          rwa [List.append_assoc] at hr
      | false =>
          rw [relocsFrom_cons hp]
          have hm := ho o (List.mem_cons_self ..)
          refine ⟨hm.ne_endMark, reads_bytes hm.encodable (hm.isCall_eq_isPending.trans hp),
            ih (fun r hm => Nat.le_add_right_of_le (hb r hm)) ho' hs.tail⟩

end Cursor

/-! ## Bodies -/

theorem DecodedBody.read_eq_ok {slots : Slots} {n : Nat} {relocs : List Reloc}
    {enc : Op → List UInt8} {os : List Op} (hn : n < UInt32.size)
    (hl : slots.locals.length < UInt32.size)
    (h : Cursor.ReadsAll relocs enc slots.blockStart os) :
    read (Leb.padded paddedWidth n ++ slots.table ++ (os.flatMap enc ++ Op.endMark.bytes)) relocs
      = .ok ⟨n, slots.locals.map ((1, ·)), Op.placed enc slots.blockStart (os ++ [.endMark])⟩ := by
  have hc := Slots.localCount_of_lt hl
  unfold read Slots.table
  simp only [List.append_assoc, hc]
  rw [show paddedWidth = 5 from rfl, Cursor.unsigned_padded _ _ hn]
  simp only [bind, Except.bind]
  rw [Cursor.unsigned_unsigned _ _ hl]
  simp only [Cursor.localRuns_append]
  have hp : 0 + 5 + (Leb.unsigned slots.locals.length).length
      + (slots.locals.flatMap fun t => Leb.unsigned 1 ++ [t.byte]).length = slots.blockStart := by
    simp [Slots.blockStart, Slots.table, hc, paddedWidth, Nat.add_assoc]
  rw [hp, Cursor.ops_of_readsAll h]
  rfl

theorem Slots.length_locals_le (slots : Slots) : slots.locals.length ≤ slots.table.length := by
  have h : ∀ ts : List ValType,
      ts.length ≤ (ts.flatMap fun t => Leb.unsigned 1 ++ [t.byte]).length := by
    intro ts
    induction ts with
    | nil => exact Nat.le_refl _
    | cons t ts ih => simp at ih ⊢; omega
  have := h slots.locals
  simp only [table, List.length_append]
  omega

namespace Generates

variable {id : DeclId} {d : Decl} {s : Signature} {b : Body} {slots : Slots} {fc : FunctionCode}

theorem emitted (h : Generates id d s b slots fc) : ∀ o ∈ b.loweredAll, o.Emitted :=
  fun _ ho => Body.emitted_of_mem_loweredAll h.lowerable.nodup ho

theorem length_locals_lt (h : Generates id d s b slots fc) :
    slots.locals.length < UInt32.size := by
  have hl := slots.length_locals_le
  have hs := h.size
  unfold Body.linkedSize at hs
  omega

/-- The offsets of the relocations fit 32 bits: with one of them there is room for its index. -/
theorem offsetsFit (h : Generates id d s b slots fc) :
    OffsetsFit slots.blockStart b.loweredAll := by
  intro hne
  have hr : 0 < (b.blockRelocs slots.blockStart).length := List.length_pos_iff.mpr hne
  have hs := h.size
  have hb : b.blockBytes.length = (b.loweredAll.flatMap Op.bytes).length + 1 := by
    simp [Body.blockBytes, Op.bytes, Op.immediate]
  unfold Body.linkedSize at hs
  rw [hb] at hs
  unfold Slots.blockStart paddedWidth at *
  omega

theorem readsAll (h : Generates id d s b slots fc) :
    Cursor.ReadsAll fc.relocs Op.bytes slots.blockStart b.loweredAll := by
  rw [h.code]
  exact Cursor.readsAll_bytes (List.forall_mem_nil _) h.emitted h.offsetsFit

theorem read (h : Generates id d s b slots fc) :
    DecodedBody.read fc.body fc.relocs = .ok ⟨b.linkedSize slots, slots.locals.map ((1, ·)),
      Op.placed Op.bytes slots.blockStart (b.loweredAll ++ [.endMark])⟩ := by
  have hr := DecodedBody.read_eq_ok h.size h.length_locals_lt h.readsAll
  rw [h.code] at hr ⊢
  simpa [Body.blockBytes] using hr

end Generates

/-! ## Operations in place -/

namespace Op

variable {enc : Op → List UInt8} {pos : Nat} {os : List Op}

theorem map_snd_placed : (placed enc pos os).map Prod.snd = os := by
  induction os generalizing pos with
  | nil => rfl
  | cons o os ih => simp [placed, ih]

theorem getElem?_of_mem_placed {header : List UInt8} {p : Nat} {o : Op}
    (h : (p, o) ∈ placed bytes header.length os) :
    (header ++ os.flatMap bytes)[p]? = some o.opcode := by
  induction os generalizing header with
  | nil => cases h
  | cons o' os ih =>
      rcases List.mem_cons.mp h with h | h
      · cases h
        simp [bytes]
      · have hl : header.length + o'.bytes.length = (header ++ o'.bytes).length := by simp
        rw [hl] at h
        simpa using ih h

end Op

/-- Reading the code of a function gives one local for each stack slot, and, each at the offset of
its opcode, the operations that the instructions are lowered to one by one. -/
theorem read_generateFunction {id : DeclId} {d : Decl} {fc : FunctionCode}
    (h : generateFunction id d = .ok fc) :
    ∃ b dec, d.body? = some b ∧ DecodedBody.read fc.body fc.relocs = .ok dec ∧
      dec.locals.map (fun (n, t) => (n, some t))
        = (b.code.filter b.isAlloc).map (fun i => (1, b.slotType? i)) ∧
      dec.ops.map Prod.snd = b.loweredAll ++ [.endMark] ∧
      (∀ p o, (p, o) ∈ dec.ops → fc.body[p]? = some o.opcode) ∧
      ∃ header, fc.body = header ++ (dec.ops.map Prod.snd).flatMap Op.bytes ∧
        dec.ops = Op.placed Op.bytes header.length (dec.ops.map Prod.snd) := by
  obtain ⟨s, b, slots, hg⟩ := generateFunction_eq_ok_iff.mp h
  have hbody : fc.body = (Leb.padded paddedWidth (b.linkedSize slots) ++ slots.table)
      ++ (b.loweredAll ++ [Op.endMark]).flatMap Op.bytes := by rw [hg.code]; rfl
  have hlen : (Leb.padded paddedWidth (b.linkedSize slots) ++ slots.table).length
      = slots.blockStart := by simp [Slots.blockStart]
  refine ⟨b, _, hg.body, hg.read, ?_, Op.map_snd_placed, ?_,
    Leb.padded paddedWidth (b.linkedSize slots) ++ slots.table, ?_, ?_⟩
  · have hl := congrArg (List.map fun t => (1, t)) (Slots.locals_ofBlock hg.counted)
    simpa [Function.comp_def] using hl
  · intro p o hm
    rw [hbody]
    exact Op.getElem?_of_mem_placed (by rwa [hlen])
  · rw [Op.map_snd_placed]
    exact hbody
  · rw [Op.map_snd_placed, hlen]

theorem read_generateFunction_settle :
    ∃ fc dec, generateFunction ⟨3⟩ .settle = .ok fc ∧
      DecodedBody.read fc.body fc.relocs = .ok dec ∧
      dec.locals.map (fun (n, t) => (n, some t)) = [(1, some ValType.i32)] ∧
      dec.ops.map Prod.snd = [.localGet 0, .localSet 1, .localGet 1, .i32Const 2, .add .i32,
        .localGet 0, .callReloc ⟨7⟩, .endMark] ∧
      ∀ p o, (p, o) ∈ dec.ops → fc.body[p]? = some o.opcode := by
  obtain ⟨fc, hg⟩ := exists_generates_settle ⟨3⟩
  have h := generateFunction_eq_ok_iff.mpr ⟨_, _, _, hg⟩
  obtain ⟨b, dec, hb, hr, hl, ho, hp, -⟩ := read_generateFunction h
  obtain rfl : Body.settle = b := Option.some.inj hb
  exact ⟨fc, dec, h, hr, by rw [hl]; decide +kernel, by rw [ho]; decide +kernel, hp⟩

end WasmLowering
