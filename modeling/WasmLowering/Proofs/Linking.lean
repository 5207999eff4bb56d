import WasmLowering.Proofs.Decoding

/-!
# Linking keeps the size and the operations

A linker inserts function indices of full width behind the opcodes of the calls. Every insertion
shifts what follows, yet the size in front of the body is already that of the linked body, and the
linked body is read as the same operations with the calls resolved.
-/

namespace WasmLowering

/-! ## Inserting the indices -/

/-- The function indices that are to be inserted at the offset `pos`. -/
def Reloc.indicesAt (idx : DeclId → UInt32) (relocs : List Reloc) (pos : Nat) : List UInt8 :=
  (relocs.filter fun r => r.offset.toNat = pos).flatMap fun r =>
    Leb.padded paddedWidth (idx r.target).toNat

/-- Inserts the indices that are due behind the bytes, the first of which has the offset `pos`. -/
def Reloc.insertFrom (idx : DeclId → UInt32) (relocs : List Reloc) (pos : Nat) :
    List UInt8 → List UInt8
  | [] => []
  | b :: bs => b :: (indicesAt idx relocs (pos + 1) ++ insertFrom idx relocs (pos + 1) bs)

/-- The body with every index inserted at the offset that its relocation has in the body as it was
generated. -/
def FunctionCode.link (fc : FunctionCode) (idx : DeclId → UInt32) : List UInt8 :=
  Reloc.indicesAt idx fc.relocs 0 ++ Reloc.insertFrom idx fc.relocs 0 fc.body

/-- A call whose index is missing becomes the call of that index. -/
def Op.link (idx : DeclId → UInt32) : Op → Op
  | callReloc target => call (idx target).toNat
  | o => o

theorem Op.paddedBytes_link {idx : DeclId → UInt32} {o : Op} (ho : o.Emitted)
    (h : o.isPending = false) : (o.link idx).paddedBytes = o.bytes := by
  cases o with
  | callReloc target => cases h
  | call n => exact ho.elim
  | _ => rfl

namespace Reloc

variable {idx : DeclId → UInt32} {relocs before : List Reloc} {pos : Nat}

theorem indicesAt_eq_nil (h : ∀ r ∈ relocs, r.offset.toNat ≠ pos) :
    indicesAt idx relocs pos = [] := by
  have hf : (relocs.filter fun r => r.offset.toNat = pos) = [] := by
    rw [List.filter_eq_nil_iff]
    intro r hr
    simpa using h r hr
  rw [indicesAt, hf]
  rfl

theorem indicesAt_append_cons {r : Reloc} {after : List Reloc} (hr : r.offset.toNat = pos)
    (hb : ∀ r ∈ before, r.offset.toNat ≠ pos) (ha : ∀ r ∈ after, r.offset.toNat ≠ pos) :
    indicesAt idx (before ++ r :: after) pos
      = Leb.padded paddedWidth (idx r.target).toNat := by
  have hb : indicesAt idx before pos = [] := indicesAt_eq_nil hb
  have ha : indicesAt idx after pos = [] := indicesAt_eq_nil ha
  unfold indicesAt at *
  rw [List.filter_append, List.flatMap_append, hb, List.nil_append,
    List.filter_cons_of_pos (by simpa using hr), List.flatMap_cons, ha, List.append_nil]

theorem insertFrom_append {bs : List UInt8} (rest : List UInt8)
    (h : ∀ r ∈ relocs, r.offset.toNat ≤ pos ∨ pos + bs.length < r.offset.toNat) :
    insertFrom idx relocs pos (bs ++ rest)
      = bs ++ insertFrom idx relocs (pos + bs.length) rest := by
  induction bs generalizing pos with
  | nil => rfl
  | cons b bs ih =>
      simp only [List.length_cons] at h
      have hi : indicesAt idx relocs (pos + 1) = [] := by
        apply indicesAt_eq_nil
        intro r hr
        rcases h r hr with hr | hr <;> omega
      have hs : ∀ r ∈ relocs, r.offset.toNat ≤ pos + 1 ∨ pos + 1 + bs.length < r.offset.toNat := by
        intro r hr
        rcases h r hr with hr | hr
        · exact .inl (by omega)
        · exact .inr (by omega)
      rw [List.cons_append, insertFrom, hi, ih hs, List.nil_append, List.cons_append,
        List.length_cons, Nat.add_assoc, Nat.add_comm 1]

theorem lt_offset_of_mem_relocsFrom {os : List Op} (hs : OffsetsFit pos os) :
    ∀ r ∈ relocsFrom pos os, pos < r.offset.toNat := by
  induction os generalizing pos with
  | nil => simp [relocsFrom]
  | cons o os ih =>
      intro r hr
      cases hk : o.isPending with
      | true =>
          obtain ⟨target, rfl⟩ := Op.eq_callReloc_of_isPending hk
          rcases List.mem_cons.mp hr with rfl | hr
          · exact Nat.lt_of_lt_of_eq (Nat.lt_succ_self pos) hs.toNat_offset.symm
          · exact Nat.lt_of_succ_lt (ih hs.tail r hr)
      | false =>
          rw [relocsFrom_cons hk] at hr
          exact Nat.lt_of_le_of_lt (Nat.le_add_right ..) (ih hs.tail r hr)

theorem insertFrom_block {os : List Op} (hb : ∀ r ∈ before, r.offset.toNat ≤ pos)
    (hs : OffsetsFit pos os) (ho : ∀ o ∈ os, o.Emitted) :
    insertFrom idx (before ++ relocsFrom pos os) pos (os.flatMap Op.bytes ++ Op.endMark.bytes)
      = (os.map (Op.link idx)).flatMap Op.paddedBytes ++ Op.endMark.bytes := by
  induction os generalizing before pos with
  | nil =>
      have hi : indicesAt idx before (pos + 1) = [] := by
        apply indicesAt_eq_nil
        intro r hr
        have := hb r hr
        omega
      simp [relocsFrom, Op.bytes, Op.immediate, insertFrom, hi]
  | cons o os ih =>
      have ho' : ∀ o ∈ os, o.Emitted := fun o hm => ho o (List.mem_cons_of_mem _ hm)
      have hpos := lt_offset_of_mem_relocsFrom hs.tail
      cases hp : o.isPending with
      | true =>
          obtain ⟨target, rfl⟩ := Op.eq_callReloc_of_isPending hp
          have hoff := hs.toNat_offset
          have hi : indicesAt idx (before ++ relocsFrom pos (.callReloc target :: os)) (pos + 1)
              = Leb.padded paddedWidth (idx target).toNat := by
            refine indicesAt_append_cons hoff ?_ ?_
            · intro r hr
              have := hb r hr
              omega
            · intro r hr
              exact Nat.ne_of_gt (hpos r hr)
          have hb' : ∀ r ∈ before ++ [⟨UInt32.ofNat (pos + 1), target⟩],
              r.offset.toNat ≤ pos + 1 := forall_offset_le_append hb hoff
          have hr := ih hb' hs.tail ho'
          rw [List.append_assoc] at hr
          change _ :: (indicesAt _ _ _ ++ insertFrom _ _ _ _) = _
          rw [hi]
          exact congrArg _ (congrArg _ hr)
      | false =>
          have hr := ih (fun r hm => Nat.le_add_right_of_le (hb r hm)) hs.tail ho'
          rw [relocsFrom_cons hp, List.flatMap_cons, List.append_assoc, insertFrom_append, hr,
            List.map_cons, List.flatMap_cons, Op.paddedBytes_link (ho _ (List.mem_cons_self ..)) hp,
            List.append_assoc]
          intro r hm
          rcases List.mem_append.mp hm with hm | hm
          · exact .inl (hb r hm)
          · exact .inr (hpos r hm)

end Reloc

/-! ## Linked operations -/

section

variable {idx : DeclId → UInt32} {os : List Op}

theorem Op.length_paddedBytes_link (pos : Nat) (ho : ∀ o ∈ os, o.Emitted) :
    ((os.map (Op.link idx)).flatMap Op.paddedBytes).length
      = (os.flatMap Op.bytes).length + (relocsFrom pos os).length * paddedWidth := by
  induction os generalizing pos with
  | nil => rfl
  | cons o os ih =>
      have hr := fun pos => ih pos fun o hm => ho o (List.mem_cons_of_mem _ hm)
      cases hp : o.isPending with
      | true =>
          obtain ⟨target, rfl⟩ := Op.eq_callReloc_of_isPending hp
          have := hr (pos + (Op.callReloc target).bytes.length)
          simp [relocsFrom, Op.link, Op.paddedBytes, Op.bytes, Op.immediate, paddedWidth]
            at this ⊢
          omega
      | false =>
          rw [List.map_cons, List.flatMap_cons, List.length_append, hr (pos + o.bytes.length),
            Op.paddedBytes_link (ho _ (List.mem_cons_self ..)) hp, relocsFrom_cons hp,
            List.flatMap_cons, List.length_append, Nat.add_assoc]

theorem Cursor.readsAll_paddedBytes (idx : DeclId → UInt32) {pos : Nat} (ho : ∀ o ∈ os, o.Emitted) :
    ReadsAll [] Op.paddedBytes pos (os.map (Op.link idx)) := by
  induction os generalizing pos with
  | nil => trivial
  | cons o os ih =>
      have hm : o.Emitted := ho o (List.mem_cons_self ..)
      refine ⟨?_, reads_paddedBytes ?_ ?_, ih fun o hm => ho o (List.mem_cons_of_mem _ hm)⟩
      · cases o with
        | endMark => exact hm.elim
        | _ => simp [Op.link]
      · cases o with
        | callReloc target => exact (idx target).toNat_lt
        | call n => exact hm.elim
        | endMark => exact hm.elim
        | _ => exact hm
      · cases o <;> rfl

end

variable {id : DeclId} {d : Decl} {fc : FunctionCode}

theorem Generates.link {s : Signature} {b : Body} {slots : Slots}
    (h : Generates id d s b slots fc) (idx : DeclId → UInt32) :
    fc.link idx = Leb.padded paddedWidth (b.linkedSize slots) ++ slots.table
      ++ ((b.loweredAll.map (Op.link idx)).flatMap Op.paddedBytes ++ Op.endMark.bytes) := by
  have hlt := Reloc.lt_offset_of_mem_relocsFrom h.offsetsFit
  have hlen : (Leb.padded paddedWidth (b.linkedSize slots) ++ slots.table).length
      = slots.blockStart := by simp [Slots.blockStart]
  have h0 : Reloc.indicesAt idx (b.blockRelocs slots.blockStart) 0 = [] := by
    apply Reloc.indicesAt_eq_nil
    intro r hr
    exact Nat.ne_of_gt (Nat.zero_lt_of_lt (hlt r hr))
  have hbytes : b.blockBytes = b.loweredAll.flatMap Op.bytes ++ Op.endMark.bytes := by
    simp [Body.blockBytes]
  rw [h.code]
  unfold FunctionCode.link
  rw [h0, List.nil_append, Reloc.insertFrom_append, hlen, Nat.zero_add, hbytes]
  · exact congrArg _ (Reloc.insertFrom_block (List.forall_mem_nil _) h.offsetsFit h.emitted)
  · intro r hr
    rw [hlen, Nat.zero_add]
    exact .inr (hlt r hr)

/-- Whatever indices the functions get, the linked body has the size that stands in front of it, and
it is read with the same size, locals and operations, the calls being resolved. -/
theorem read_link_generateFunction (h : generateFunction id d = .ok fc) (idx : DeclId → UInt32) :
    (fc.link idx).length = paddedWidth + Leb.value ((fc.link idx).take paddedWidth) ∧
      ∃ dec linked, DecodedBody.read fc.body fc.relocs = .ok dec ∧
        DecodedBody.read (fc.link idx) [] = .ok linked ∧
        linked.size = Leb.value ((fc.link idx).take paddedWidth) ∧
        linked.size = dec.size ∧ linked.locals = dec.locals ∧
        linked.ops.map Prod.snd = dec.ops.map fun (_, o) => o.link idx := by
  obtain ⟨s, b, slots, hg⟩ := generateFunction_eq_ok_iff.mp h
  have hl := hg.link idx
  have hr := DecodedBody.read_eq_ok hg.size hg.length_locals_lt
    (Cursor.readsAll_paddedBytes idx hg.emitted)
  rw [← hl] at hr
  have hv : Leb.value ((fc.link idx).take paddedWidth) = b.linkedSize slots := by
    have ht : (fc.link idx).take paddedWidth = Leb.padded paddedWidth (b.linkedSize slots) := by
      rw [hl, List.append_assoc]
      exact List.take_left' (Leb.length_padded _ _)
    rw [ht]
    apply Leb.value_padded
    have := hg.size
    simp only [UInt32.size] at this
    simp only [paddedWidth]
    omega
  refine ⟨?_, _, _, hg.read, hr, hv.symm, rfl, rfl, ?_⟩
  · rw [hv, hl]
    simp only [List.length_append, Leb.length_padded,
      Op.length_paddedBytes_link slots.blockStart hg.emitted]
    simp [Body.linkedSize, Body.blockBytes, Body.blockRelocs]
    omega
  · have hm : ∀ dec : List (Nat × Op), dec.map (fun (_, o) => o.link idx)
        = (dec.map Prod.snd).map (Op.link idx) := by intro dec; simp
    rw [hm, Op.map_snd_placed, Op.map_snd_placed]
    simp [Op.link]

theorem read_link_generateFunction_settle :
    ∃ fc linked, generateFunction ⟨3⟩ .settle = .ok fc ∧
      (fc.link fun d => d.index + 300).length = 26 ∧
      DecodedBody.read (fc.link fun d => d.index + 300) [] = .ok linked ∧
      linked.size = 21 ∧
      linked.ops.map Prod.snd = [.localGet 0, .localSet 1, .localGet 1, .i32Const 2, .add .i32,
        .localGet 0, .call 307, .endMark] := by
  obtain ⟨fc, hg⟩ := exists_generates_settle ⟨3⟩
  have h := generateFunction_eq_ok_iff.mpr ⟨_, _, _, hg⟩
  obtain ⟨hl, dec, linked, hd, hr, hv, hs, -, ho⟩ :=
    read_link_generateFunction h fun d => d.index + 300
  obtain rfl := Except.ok.inj (hd.symm.trans hg.read)
  have hsize : linked.size = 21 := by rw [hs]; decide +kernel
  refine ⟨fc, linked, h, ?_, hr, hsize, ?_⟩
  · rw [hl, ← hv, hsize]; rfl
  · rw [ho]; decide +kernel

end WasmLowering
