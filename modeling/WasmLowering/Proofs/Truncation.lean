import WasmLowering.Error
import WasmLowering.Proofs.Decoding

/-!
# Bodies that are cut off or go on

Every reader of an item knows where the item ends: it takes the same bytes whatever stands behind
them, and it misses those that are cut off. Readers one after the other keep this. So of the bytes of
a body nothing can be left out at the end, and nothing can be added.
-/

namespace WasmLowering

/-! ## Numbers that are cut off -/

theorem Leb.split_of_cut {h t : List UInt8} {limit : Nat} (hg : Terminated (h ++ t)) (ht : t ≠ [])
    (hl : (h ++ t).length ≤ limit) : split limit h = .error .truncated := by
  induction h generalizing limit with
  | nil =>
      have := List.length_pos_iff.mpr ht
      obtain ⟨n, rfl⟩ : ∃ n, limit = n + 1 := ⟨limit - 1, by simp at hl; omega⟩
      rfl
  | cons b h ih =>
      obtain ⟨n, rfl⟩ : ∃ n, limit = n + 1 := ⟨limit - 1, by simp at hl; omega⟩
      obtain ⟨c, bs, hbs⟩ := List.exists_cons_of_ne_nil (List.append_ne_nil_of_right_ne_nil h ht)
      rw [List.cons_append, hbs] at hg
      have hn : split n h = .error .truncated := ih (hbs ▸ hg.2) (by simpa using hl)
      rw [split, if_pos hg.1, hn]
      rfl

namespace Cursor

variable {α β γ : Type} {pos : Nat} {g bs : List UInt8} {relocs : List Reloc}

/-! ## Items -/

abbrev Reader (α : Type) := Cursor → Except Fault (α × Cursor)

/-- Where the input ends before the last of the bytes `g`, that end is reported. -/
def Misses (q : Cursor → Except Fault γ) (pos : Nat) (g : List UInt8) : Prop :=
  ∀ h t, g = h ++ t → t ≠ [] → q ⟨pos, h⟩ = .error (.truncated (pos + h.length))

/-- The bytes `g` at `pos` are read as `a`, whatever stands behind them, and none can be spared. -/
structure Spans (r : Reader α) (pos : Nat) (g : List UInt8) (a : α) : Prop where
  whole : ∀ rest, r ⟨pos, g ++ rest⟩ = .ok (a, ⟨pos + g.length, rest⟩)
  cut : Misses r pos g

/-- What is read at `pos` spans the bytes that are taken for it. -/
def SelfDelimiting (r : Reader α) (pos : Nat) : Prop :=
  ∀ bs a c, r ⟨pos, bs⟩ = .ok (a, c) →
    ∃ g rest, bs = g ++ rest ∧ c = ⟨pos + g.length, rest⟩ ∧ Spans r pos g a

theorem misses_nil (q : Cursor → Except Fault γ) (pos : Nat) : Misses q pos [] :=
  fun _ _ he ht => absurd (List.append_eq_nil_iff.mp he.symm).2 ht

theorem Misses.congr {q q' : Cursor → Except Fault γ} (h : Misses q' pos bs)
    (hq : ∀ bs, q ⟨pos, bs⟩ = q' ⟨pos, bs⟩) : Misses q pos bs :=
  fun l t he ht => (hq l).trans (h l t he ht)

/-- Either the first item is cut, or it is whole and what is behind it is cut. -/
theorem Spans.misses_bind {r : Reader α} {f : α → Cursor → Except Fault γ} {a : α}
    (hr : Spans r pos g a) (hf : Misses (f a) (pos + g.length) bs) :
    Misses (fun c => r c >>= fun x => f x.1 x.2) pos (g ++ bs) := by
  intro h t he ht
  by_cases hg : g <+: h
  · obtain ⟨l, rfl⟩ := hg
    rw [List.append_assoc] at he
    simp only [hr.whole]
    have hc := hf l t (List.append_cancel_left he) ht
    rwa [Nat.add_assoc, ← List.length_append] at hc
  · rcases List.append_eq_append_iff.mp he with ⟨l, rfl, -⟩ | ⟨l, rfl, -⟩
    · exact absurd (List.prefix_append g l) hg
    · have hl : l ≠ [] := by
        rintro rfl
        simp at hg
      simp only [hr.cut h l rfl hl]
      rfl

theorem Spans.bind {r : Reader α} {f : α → Reader β} {a : α} {b : β} {g' : List UInt8}
    (hr : Spans r pos g a) (hf : Spans (f a) (pos + g.length) g' b) :
    Spans (fun c => r c >>= fun x => f x.1 x.2) pos (g ++ g') b where
  whole rest := by
    simp only [List.append_assoc, hr.whole]
    have hw := hf.whole rest
    rwa [Nat.add_assoc, ← List.length_append] at hw
  cut := hr.misses_bind hf.cut

theorem SelfDelimiting.congr {q r : Reader α} (hr : SelfDelimiting r pos)
    (h : ∀ bs, q ⟨pos, bs⟩ = r ⟨pos, bs⟩) : SelfDelimiting q pos := by
  intro bs a c hq
  rw [h] at hq
  obtain ⟨g, rest, hbs, hc, hs⟩ := hr bs a c hq
  exact ⟨g, rest, hbs, hc, fun rest => (h _).trans (hs.whole rest), hs.cut.congr h⟩

theorem SelfDelimiting.bind {r : Reader α} {f : α → Reader β} (hr : SelfDelimiting r pos)
    (hf : ∀ a p, SelfDelimiting (f a) p) :
    SelfDelimiting (fun c => r c >>= fun x => f x.1 x.2) pos := by
  intro bs b c h
  obtain ⟨⟨a, c₁⟩, h₁, h₂⟩ := bind_eq_ok.mp h
  obtain ⟨g₁, rest₁, rfl, rfl, hs₁⟩ := hr bs a c₁ h₁
  obtain ⟨g₂, rest₂, rfl, rfl, hs₂⟩ := hf a _ _ b c h₂
  exact ⟨g₁ ++ g₂, rest₂, (List.append_assoc ..).symm, by rw [List.length_append, Nat.add_assoc],
    hs₁.bind hs₂⟩

theorem selfDelimiting_ok (a : α) (pos : Nat) : SelfDelimiting (fun c => .ok (a, c)) pos := by
  rintro bs _ _ h
  cases h
  exact ⟨[], bs, rfl, rfl, fun _ => rfl, misses_nil _ pos⟩

theorem selfDelimiting_error (f : Fault) (pos : Nat) :
    SelfDelimiting (α := α) (fun _ => .error f) pos :=
  fun _ _ _ h => by cases h

theorem SelfDelimiting.map {r : Reader α} (hr : SelfDelimiting r pos) (f : α → β) :
    SelfDelimiting (fun c => (r c).map fun x => (f x.1, x.2)) pos :=
  (hr.bind fun a => selfDelimiting_ok (f a)).congr fun bs => by
    cases r ⟨pos, bs⟩ <;> rfl

theorem selfDelimiting_byte (pos : Nat) : SelfDelimiting byte pos := by
  intro bs b c h
  cases bs with
  | nil => cases h
  | cons b' bs =>
      cases h
      refine ⟨[b], bs, rfl, rfl, fun rest => rfl, fun h t he ht => ?_⟩
      cases h with
      | nil => rfl
      | cons b' h =>
          rw [List.cons_append, List.cons.injEq] at he
          exact absurd (List.append_eq_nil_iff.mp he.2.symm).2 ht

theorem selfDelimiting_take (n pos : Nat) : SelfDelimiting (take n) pos := by
  intro bs g c h
  unfold take at h
  split at h
  · next hl =>
      cases h
      refine ⟨bs.take n, bs.drop n, (List.take_append_drop n bs).symm, by rw [hl], ?_, ?_⟩
      · intro rest
        simp [take, List.take_left' hl, List.drop_left' hl, hl]
      · intro h t he ht
        have := List.length_pos_iff.mpr ht
        have hlen := congrArg List.length he
        rw [hl, List.length_append] at hlen
        rw [take, if_neg]
        rw [List.length_take]
        dsimp only
        omega
  · cases h

theorem selfDelimiting_group (limit : Nat) (e : Fault) (pos : Nat) :
    SelfDelimiting (group limit e) pos := by
  intro bs g c h
  unfold group at h
  split at h
  · cases h
  · cases h
  · next rest hs =>
      cases h
      obtain ⟨ht, hl, rfl⟩ := Leb.split_eq_ok_iff.mp hs
      refine ⟨g, rest, rfl, rfl, fun rest => group_append pos rest e ht hl, ?_⟩
      rintro h t rfl hne
      simp [group, Leb.split_of_cut ht hne hl]

theorem selfDelimiting_unsigned (pos : Nat) : SelfDelimiting unsigned pos := by
  have hr := (selfDelimiting_group 5 (.unsignedTooLong pos) pos).bind
    (f := fun g c => if Leb.value g < UInt32.size then .ok (Leb.value g, c)
      else .error (.unsignedOverflow pos)) fun g p => by
        split
        · exact selfDelimiting_ok _ p
        · exact selfDelimiting_error _ p
  refine hr.congr fun bs => ?_
  unfold unsigned
  cases (Cursor.mk pos bs).group 5 (.unsignedTooLong pos) <;> rfl

theorem selfDelimiting_signed (pos : Nat) : SelfDelimiting signed pos := by
  have hr := (selfDelimiting_group 10 (.signedTooLong pos) pos).map
    fun g => Int64.ofInt (Leb.signedValue g)
  refine hr.congr fun bs => ?_
  unfold signed
  cases (Cursor.mk pos bs).group 10 (.signedTooLong pos) <;> rfl

theorem selfDelimiting_signed32 (pos : Nat) : SelfDelimiting signed32 pos := by
  have hr := (selfDelimiting_signed pos).bind
    (f := fun v c => if Numeral.InRange true 32 v.toInt then .ok (Int32.ofInt v.toInt, c)
      else .error (.immediateOverflow pos)) fun v p => by
        split
        · exact selfDelimiting_ok _ p
        · exact selfDelimiting_error _ p
  refine hr.congr fun bs => ?_
  unfold signed32
  cases (Cursor.mk pos bs).signed <;> rfl

theorem selfDelimiting_word (width pos : Nat) : SelfDelimiting (word width) pos := by
  refine ((selfDelimiting_take width pos).map ofLittleEndian).congr fun bs => ?_
  unfold word
  cases (Cursor.mk pos bs).take width <;> rfl

theorem selfDelimiting_valType (pos : Nat) : SelfDelimiting valType pos := by
  have hr := (selfDelimiting_byte pos).bind
    (f := fun b c => (ValType.ofByte? b).elim (.error (.valueType b pos)) fun t => .ok (t, c))
    fun b p => by
      cases ValType.ofByte? b with
      | some t => exact selfDelimiting_ok t p
      | none => exact selfDelimiting_error _ p
  refine hr.congr fun bs => ?_
  unfold valType
  cases (Cursor.mk pos bs).byte with
  | ok p => cases h : ValType.ofByte? p.1 <;> simp [bind, Except.bind, h]
  | error e => rfl

theorem selfDelimiting_localRuns (n pos : Nat) : SelfDelimiting (localRuns n) pos := by
  induction n generalizing pos with
  | zero => exact selfDelimiting_ok [] pos
  | succ n ih =>
      have hr := (selfDelimiting_unsigned pos).bind fun count p =>
        (selfDelimiting_valType p).bind fun ty p =>
          (ih p).bind fun runs p => selfDelimiting_ok ((count, ty) :: runs) p
      exact hr.congr fun _ => rfl

/-- A call either has an index, or there is nothing to be read. -/
theorem selfDelimiting_callee (relocs : List Reloc) (pos : Nat) :
    SelfDelimiting (callee relocs) pos := by
  cases hr : relocs.find? fun r => r.offset == UInt32.ofNat pos with
  | some r =>
      refine (selfDelimiting_ok (Op.callReloc r.target) pos).congr fun bs => ?_
      simp only [callee, hr]
  | none =>
      refine ((selfDelimiting_unsigned pos).map Op.call).congr fun bs => ?_
      simp only [callee, hr]

theorem selfDelimiting_operation (relocs : List Reloc) (offset : Nat) (code : UInt8) (pos : Nat) :
    SelfDelimiting (operation relocs offset code) pos := by
  intro bs o c h
  unfold operation at h
  split at h
  · exact (selfDelimiting_unsigned pos).map Op.localGet bs o c h
  · exact (selfDelimiting_unsigned pos).map Op.localSet bs o c h
  · exact (selfDelimiting_signed32 pos).map Op.i32Const bs o c h
  · exact (selfDelimiting_signed pos).map Op.i64Const bs o c h
  · exact (selfDelimiting_word 4 pos).map (fun n => .f32Const ⟨UInt32.ofNat n⟩) bs o c h
  · exact (selfDelimiting_word 8 pos).map (fun n => .f64Const ⟨UInt64.ofNat n⟩) bs o c h
  · exact selfDelimiting_ok (.add .i32) pos bs o c h
  · exact selfDelimiting_ok (.add .i64) pos bs o c h
  · exact selfDelimiting_ok (.add .f32) pos bs o c h
  · exact selfDelimiting_ok (.add .f64) pos bs o c h
  · exact selfDelimiting_callee relocs pos bs o c h
  · exact selfDelimiting_ok .endMark pos bs o c h
  · cases h

theorem selfDelimiting_op (relocs : List Reloc) (pos : Nat) : SelfDelimiting (op relocs) pos := by
  have hr := (selfDelimiting_byte pos).bind
    (f := fun code => operation relocs pos code) fun code => selfDelimiting_operation relocs pos code
  refine hr.congr fun bs => ?_
  unfold op
  cases (Cursor.mk pos bs).byte <;> rfl

/-! ## Inputs -/

/-- The input `bs` from `pos` on is read to its end: less of it ends too early, and of more of it the
rest trails. -/
structure Settles (q : Cursor → Except Fault γ) (pos : Nat) (bs : List UInt8) : Prop where
  trailing : ∀ rest, rest ≠ [] → q ⟨pos, bs ++ rest⟩ = .error (.trailing rest.length)
  cut : Misses q pos bs

theorem Settles.congr {q q' : Cursor → Except Fault γ} (h : Settles q' pos bs)
    (hq : ∀ bs, q ⟨pos, bs⟩ = q' ⟨pos, bs⟩) : Settles q pos bs :=
  ⟨fun rest hne => (hq _).trans (h.trailing rest hne), h.cut.congr hq⟩

theorem Settles.map {q : Cursor → Except Fault β} (h : Settles q pos bs) (f : β → γ) :
    Settles (fun c => (q c).map f) pos bs :=
  ⟨fun rest hne => congrArg (Except.map f) (h.trailing rest hne),
    fun l t he ht => congrArg (Except.map f) (h.cut l t he ht)⟩

theorem Spans.settles_bind {r : Reader α} {f : α → Cursor → Except Fault γ} {a : α}
    (hr : Spans r pos g a) (hf : Settles (f a) (pos + g.length) bs) :
    Settles (fun c => r c >>= fun x => f x.1 x.2) pos (g ++ bs) where
  trailing rest hne := by
    simp only [List.append_assoc, hr.whole]
    exact hf.trailing rest hne
  cut := hr.misses_bind hf.cut

/-- What is read to the end is all that can be read. -/
def Final (q : Cursor → Except Fault γ) : Prop :=
  ∀ pos bs v, q ⟨pos, bs⟩ = .ok v → Settles q pos bs

theorem Final.map {q : Cursor → Except Fault β} (hq : Final q) (f : β → γ) :
    Final fun c => (q c).map f := by
  intro pos bs v h
  cases hb : q ⟨pos, bs⟩ with
  | error e => simp [hb, Except.map] at h
  | ok b => exact (hq pos bs b hb).map f

theorem Final.bind {r : Reader α} {f : α → Cursor → Except Fault γ}
    (hr : ∀ pos, SelfDelimiting r pos) (hf : ∀ a, Final (f a)) :
    Final fun c => r c >>= fun x => f x.1 x.2 := by
  intro pos bs v h
  obtain ⟨⟨a, c⟩, ha, hv⟩ := bind_eq_ok.mp h
  obtain ⟨g, rest, rfl, rfl, hs⟩ := hr pos bs a c ha
  exact hs.settles_bind (hf a _ rest v hv)

/-- What follows the operation `o`, whose opcode stands at `pos`. -/
def opsBehind (relocs : List Reloc) (pos : Nat) (o : Op) (c : Cursor) :
    Except Fault (List (Nat × Op)) :=
  if o = .endMark then
    if c.rest = [] then .ok [(pos, o)] else .error (.trailing c.rest.length)
  else (c.ops relocs).map ((pos, o) :: ·)

theorem ops_eq (relocs : List Reloc) (c : Cursor) :
    c.ops relocs = c.op relocs >>= fun x => opsBehind relocs c.pos x.1 x.2 := by
  rw [ops]
  split
  · next h => rw [h]; rfl
  · next h => rw [h]; rfl
  · next hne h =>
      rw [h]
      exact (if_neg hne).symm

theorem settles_endMark (relocs : List Reloc) (offset pos : Nat) :
    Settles (opsBehind relocs offset .endMark) pos [] :=
  ⟨fun _ hne => if_neg hne, misses_nil _ pos⟩

theorem final_ops (relocs : List Reloc) : Final (ops relocs) := by
  intro pos bs os h
  -- by induction on the number of bytes still to be read
  induction hn : bs.length using Nat.strongRecOn generalizing pos bs os with
  | ind n ih =>
      rw [ops_eq] at h
      obtain ⟨⟨o, c⟩, hop, hbehind⟩ := bind_eq_ok.mp h
      have hlt := op_rest hop
      obtain ⟨g, rest, rfl, rfl, hs⟩ := selfDelimiting_op relocs pos bs o c hop
      have hk : Settles (opsBehind relocs pos o) (pos + g.length) rest := by
        unfold opsBehind at hbehind
        split at hbehind
        · next ho =>
            subst ho
            split at hbehind
            · next hnil =>
                obtain rfl : rest = [] := hnil
                exact settles_endMark relocs pos _
            · cases hbehind
        · next ho =>
            cases hos : (Cursor.mk (pos + g.length) rest).ops relocs with
            | error e => simp [hos, Except.map] at hbehind
            | ok os' =>
                have htail := ih rest.length (hn ▸ hlt) _ rest os' hos rfl
                exact (htail.map ((pos, o) :: ·)).congr fun bs => if_neg ho
      exact (hs.settles_bind hk).congr fun bs => ops_eq relocs ⟨pos, bs⟩

end Cursor

/-! ## Bodies -/

namespace DecodedBody

/-- A body that starts at the cursor. -/
def readAt (relocs : List Reloc) (c : Cursor) : Except Fault DecodedBody :=
  c.unsigned >>= fun size => size.2.unsigned >>= fun runs =>
    runs.2.localRuns runs.1 >>= fun locals =>
      (locals.2.ops relocs).map fun os => ⟨size.1, locals.1, os⟩

theorem read_eq_readAt (bytes : List UInt8) (relocs : List Reloc) :
    read bytes relocs = readAt relocs ⟨0, bytes⟩ := rfl

theorem final_readAt (relocs : List Reloc) : Cursor.Final (readAt relocs) :=
  .bind Cursor.selfDelimiting_unsigned fun size =>
    .bind Cursor.selfDelimiting_unsigned fun runs =>
      .bind (Cursor.selfDelimiting_localRuns runs) fun locals =>
        (Cursor.final_ops relocs).map fun os => DecodedBody.mk size locals os

end DecodedBody

/-- If a body is read, then it is refused as soon as any number of bytes is cut off its end, and
with any bytes added. -/
theorem DecodedBody.read_eq_error_of_prefix {bytes : List UInt8} {relocs : List Reloc}
    {d : DecodedBody} (h : DecodedBody.read bytes relocs = .ok d) :
    (∀ front, front <+: bytes → front ≠ bytes →
      DecodedBody.read front relocs = .error (.truncated front.length)) ∧
    ∀ longer, bytes <+: longer → longer ≠ bytes →
      DecodedBody.read longer relocs = .error (.trailing (longer.length - bytes.length)) := by
  have hs := final_readAt relocs 0 bytes d h
  constructor
  · rintro front ⟨t, rfl⟩ hne
    have ht : t ≠ [] := by
      rintro rfl
      simp at hne
    simpa [read_eq_readAt] using hs.cut front t rfl ht
  · rintro longer ⟨rest, rfl⟩ hne
    have hr : rest ≠ [] := by
      rintro rfl
      simp at hne
    simpa [read_eq_readAt] using hs.trailing rest hr

/-- The code of a call is cut right behind its opcode, where its index is still missing, and a
second end marker is added. -/
theorem DecodedBody.read_eq_error_of_prefix_settle :
    ∃ fc dec, generateFunction ⟨3⟩ .settle = .ok fc ∧
      DecodedBody.read fc.body fc.relocs = .ok dec ∧
      fc.body.drop 19 = [0x10, 0x0B] ∧
      DecodedBody.read (fc.body.take 20) fc.relocs = .error (.truncated 20) ∧
      DecodedBody.read (fc.body ++ [0x0B]) fc.relocs = .error (.trailing 1) ∧
      (Error.body (.truncated 20)).text = "Generic error: unexpected end of body at offset 20" := by
  obtain ⟨fc, hg⟩ := exists_generates_settle ⟨3⟩
  have hbody : fc.body.length = 21 ∧ fc.body.drop 19 = [0x10, 0x0B] := by
    rw [hg.code]
    decide +kernel
  obtain ⟨hcut, hlonger⟩ := DecodedBody.read_eq_error_of_prefix hg.read
  have hfront : (fc.body.take 20).length = 20 := by rw [List.length_take, hbody.1]; rfl
  have htake := hcut (fc.body.take 20) (List.take_prefix ..) fun he => by
    rw [he, hbody.1] at hfront
    cases hfront
  rw [hfront] at htake
  have happend := hlonger (fc.body ++ [0x0B]) (List.prefix_append ..) (by simp)
  exact ⟨fc, _, generateFunction_eq_ok_iff.mpr ⟨_, _, _, hg⟩, hg.read, hbody.2, htake,
    by simpa using happend, by decide +kernel⟩

end WasmLowering
