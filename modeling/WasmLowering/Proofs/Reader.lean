import WasmLowering.Proofs.Leb
import WasmLowering.Wasm.Reader

/-!
# Reading undoes writing

Each item of a body is read back from its bytes, whatever stands behind them. The operations of a
block follow by one induction over the pieces that encode them.
-/

namespace WasmLowering

open Numeral (Binary32 Binary64 InRange)

namespace Op

def Encodable : Op → Prop
  | localGet n | localSet n | call n => n < UInt32.size
  | _ => True

/-- A call whose function index is still missing. -/
def isPending : Op → Bool
  | callReloc _ => true
  | _ => false

def isCall : Op → Bool
  | callReloc _ | call _ => true
  | _ => false

/-- The bytes of an operation of a linked body, where function indices have full width. -/
def paddedBytes : Op → List UInt8
  | call n => (call n).opcode :: Leb.padded 5 n
  | o => o.bytes

/-- Operations from `pos` on with the offsets of their opcodes, `enc` giving the bytes of each. -/
def placed (enc : Op → List UInt8) (pos : Nat) : List Op → List (Nat × Op)
  | [] => []
  | o :: os => (pos, o) :: placed enc (pos + (enc o).length) os

end Op

namespace Cursor

variable {relocs : List Reloc} (pos : Nat)

/-! ## Numbers -/

theorem group_append {g : List UInt8} {limit : Nat} (rest : List UInt8) (e : Fault)
    (h : Leb.Terminated g) (hl : g.length ≤ limit) :
    (Cursor.mk pos (g ++ rest)).group limit e = .ok (g, ⟨pos + g.length, rest⟩) := by
  simp [group, Leb.split_append rest h hl]

theorem unsigned_append {g : List UInt8} (rest : List UInt8) (h : Leb.Terminated g)
    (hl : g.length ≤ 5) (hv : Leb.value g < UInt32.size) :
    (Cursor.mk pos (g ++ rest)).unsigned = .ok (Leb.value g, ⟨pos + g.length, rest⟩) := by
  simp [unsigned, group_append pos rest _ h hl, hv]

theorem unsigned_unsigned {n : Nat} (rest : List UInt8) (h : n < UInt32.size) :
    (Cursor.mk pos (Leb.unsigned n ++ rest)).unsigned
      = .ok (n, ⟨pos + (Leb.unsigned n).length, rest⟩) := by
  have hl := Leb.length_unsigned_le (n := n) (k := 4) (by simp [UInt32.size] at h; omega)
  have := unsigned_append pos rest (Leb.terminated_unsigned n) hl
    (by rwa [Leb.value_unsigned])
  rwa [Leb.value_unsigned] at this

theorem unsigned_padded {n : Nat} (rest : List UInt8) (h : n < UInt32.size) :
    (Cursor.mk pos (Leb.padded 5 n ++ rest)).unsigned = .ok (n, ⟨pos + 5, rest⟩) := by
  have hv : Leb.value (Leb.padded 5 n) = n :=
    Leb.value_padded (by simp [UInt32.size] at h; omega)
  have := unsigned_append pos rest (Leb.terminated_padded 4 n) (by simp) (by rwa [hv])
  rwa [hv, Leb.length_padded] at this

theorem signed_signed (v : Int64) (rest : List UInt8) :
    (Cursor.mk pos (Leb.signed v.toInt ++ rest)).signed
      = .ok (v, ⟨pos + (Leb.signed v.toInt).length, rest⟩) := by
  have hlo := v.le_toInt
  have hhi := v.toInt_lt
  have hl := Leb.length_signed_le (v := v.toInt) (k := 9) (by omega) (by omega)
  simp [signed, group_append pos rest _ (Leb.terminated_signed _) hl, Leb.signedValue_signed]

theorem inRange_toInt (w : Int32) : InRange true 32 w.toInt := by
  have hlo := w.le_toInt
  have hhi := w.toInt_lt
  simp only [InRange, if_true]
  exact ⟨by simpa using hlo, by simpa using hhi⟩

theorem signed32_signed (v : Int32) (rest : List UInt8) :
    (Cursor.mk pos (Leb.signed v.toInt ++ rest)).signed32
      = .ok (v, ⟨pos + (Leb.signed v.toInt).length, rest⟩) := by
  have hv : v.toInt64.toInt = v.toInt := Int32.toInt_toInt64 v
  have hs := signed_signed pos v.toInt64 rest
  rw [hv] at hs
  simp [signed32, hs, hv, inRange_toInt]

theorem length_littleEndian (w n : Nat) : (Op.littleEndian w n).length = w := by
  induction w generalizing n with
  | zero => rfl
  | succ w ih => simp [Op.littleEndian, ih]

theorem ofLittleEndian_littleEndian {w n : Nat} (h : n < 256 ^ w) :
    ofLittleEndian (Op.littleEndian w n) = n := by
  induction w generalizing n with
  | zero => simp at h; simp [Op.littleEndian, ofLittleEndian, h]
  | succ w ih =>
      have hn : n / 256 < 256 ^ w := by
        rw [Nat.div_lt_iff_lt_mul (by decide)]
        rwa [Nat.pow_succ] at h
      have hr := ih hn
      unfold ofLittleEndian at hr
      rw [Op.littleEndian, ofLittleEndian, List.foldr_cons, hr, UInt8.toNat_ofNat']
      omega

theorem word_littleEndian {w n : Nat} (rest : List UInt8) (h : n < 256 ^ w) :
    (Cursor.mk pos (Op.littleEndian w n ++ rest)).word w = .ok (n, ⟨pos + w, rest⟩) := by
  have ht : (Op.littleEndian w n ++ rest).take w = Op.littleEndian w n :=
    List.take_left' (length_littleEndian w n)
  have hd : (Op.littleEndian w n ++ rest).drop w = rest :=
    List.drop_left' (length_littleEndian w n)
  simp [word, take, ht, hd, length_littleEndian, ofLittleEndian_littleEndian h]

/-! ## Local runs -/

variable {pos}

theorem localRuns_append (types : List ValType) (rest : List UInt8) :
    (Cursor.mk pos ((types.flatMap fun t => Leb.unsigned 1 ++ [t.byte]) ++ rest)).localRuns
        types.length
      = .ok (types.map ((1, ·)),
          ⟨pos + (types.flatMap fun t => Leb.unsigned 1 ++ [t.byte]).length, rest⟩) := by
  induction types generalizing pos with
  | nil => rfl
  | cons t ts ih =>
      have h1 := unsigned_unsigned pos (n := 1)
        ([t.byte] ++ ((ts.flatMap fun t => Leb.unsigned 1 ++ [t.byte]) ++ rest)) (by decide)
      simp only [List.flatMap_cons, List.append_assoc, List.length_cons, localRuns, h1]
      simp [bind, Except.bind, valType, byte, ValType.ofByte?_byte, ih, pure, Except.pure,
        Nat.add_assoc]
      omega

/-! ## Operations -/

/-- Whatever stands behind them, the bytes `bs` at `pos` are read as the operation `o`. -/
def Reads (relocs : List Reloc) (pos : Nat) (o : Op) (bs : List UInt8) : Prop :=
  ∀ rest, (Cursor.mk pos (bs ++ rest)).op relocs = .ok (o, ⟨pos + bs.length, rest⟩)

theorem reads_opcode {o : Op} {code : UInt8} {bs : List UInt8}
    (h : ∀ rest, (Cursor.mk (pos + 1) (bs ++ rest)).operation relocs pos code
      = .ok (o, ⟨pos + 1 + bs.length, rest⟩)) : Reads relocs pos o (code :: bs) := by
  intro rest
  have hl : pos + 1 + bs.length = pos + (code :: bs).length := by simp; omega
  rw [← hl, ← h rest]
  rfl

/-- The relocation for the call whose opcode stands at `pos`. -/
def relocAt? (relocs : List Reloc) (pos : Nat) : Option Reloc :=
  relocs.find? fun r => r.offset == UInt32.ofNat (pos + 1)

theorem reads_bytes {o : Op} (h : o.Encodable) (hc : o.isCall = false) :
    Reads relocs pos o o.bytes := by
  apply reads_opcode
  intro rest
  cases o with
  | localGet n => simp [Op.opcode, Op.immediate, operation, unsigned_unsigned _ rest h, Except.map]
  | localSet n => simp [Op.opcode, Op.immediate, operation, unsigned_unsigned _ rest h, Except.map]
  | i32Const v => simp [Op.opcode, Op.immediate, operation, signed32_signed, Except.map]
  | i64Const v => simp [Op.opcode, Op.immediate, operation, signed_signed, Except.map]
  | f32Const v =>
      have hw := word_littleEndian (pos + 1) (w := 4) rest v.bits.toNat_lt
      simp [Op.opcode, Op.immediate, operation, hw, Except.map, length_littleEndian]
  | f64Const v =>
      have hw := word_littleEndian (pos + 1) (w := 8) rest v.bits.toNat_lt
      simp [Op.opcode, Op.immediate, operation, hw, Except.map, length_littleEndian]
  | add t => cases t <;> rfl
  | callReloc d => simp [Op.isCall] at hc
  | call n => simp [Op.isCall] at hc
  | endMark => rfl

theorem reads_callReloc {r : Reloc} (h : relocAt? relocs pos = some r) :
    Reads relocs pos (.callReloc r.target) (Op.callReloc r.target).bytes := by
  apply reads_opcode
  intro rest
  unfold relocAt? at h
  change (Cursor.mk (pos + 1) rest).callee relocs = _
  simp only [callee, h]
  rfl

theorem reads_paddedBytes {o : Op} (h : o.Encodable) (hr : o.isPending = false) :
    Reads [] pos o o.paddedBytes := by
  cases o with
  | call n =>
      apply reads_opcode
      intro rest
      simp [Op.opcode, operation, callee, unsigned_padded _ rest h, Except.map]
  | callReloc d => simp [Op.isPending] at hr
  | _ => exact reads_bytes h rfl

def ReadsAll (relocs : List Reloc) (enc : Op → List UInt8) (pos : Nat) : List Op → Prop
  | [] => True
  | o :: os => o ≠ .endMark ∧ Reads relocs pos o (enc o)
      ∧ ReadsAll relocs enc (pos + (enc o).length) os

theorem ops_of_op {c c' : Cursor} {o : Op} (h : c.op relocs = .ok (o, c')) (ho : o ≠ .endMark) :
    c.ops relocs = (c'.ops relocs).map ((c.pos, o) :: ·) := by
  rw [ops]
  split
  · next he => rw [h] at he; cases he
  · next he =>
      rw [h] at he
      simp only [Except.ok.injEq, Prod.mk.injEq] at he
      exact absurd he.1 ho
  · next he =>
      rw [h] at he
      simp only [Except.ok.injEq, Prod.mk.injEq] at he
      obtain ⟨rfl, rfl⟩ := he
      rfl

theorem ops_of_endMark {c c' : Cursor} (h : c.op relocs = .ok (.endMark, c'))
    (hr : c'.rest = []) : c.ops relocs = .ok [(c.pos, .endMark)] := by
  rw [ops]
  split
  · next he =>
      rw [h] at he
      cases he
  · next he =>
      rw [h] at he
      cases he
      exact if_pos hr
  · next hn he =>
      rw [h] at he
      cases he
      exact (hn rfl).elim

theorem ops_endMark : (Cursor.mk pos Op.endMark.bytes).ops relocs = .ok [(pos, .endMark)] := by
  have hr : Reads relocs pos .endMark Op.endMark.bytes := reads_bytes trivial rfl
  have h := hr []
  rw [List.append_nil] at h
  exact ops_of_endMark h rfl

theorem ops_of_readsAll {enc : Op → List UInt8} {os : List Op}
    (h : ReadsAll relocs enc pos os) :
    (Cursor.mk pos (os.flatMap enc ++ Op.endMark.bytes)).ops relocs
      = .ok (Op.placed enc pos (os ++ [.endMark])) := by
  induction os generalizing pos with
  | nil => exact ops_endMark
  | cons o os ih =>
      obtain ⟨hne, hr, hrs⟩ := h
      rw [List.flatMap_cons, List.append_assoc, ops_of_op (hr _) hne, ih hrs]
      rfl

end Cursor

end WasmLowering
