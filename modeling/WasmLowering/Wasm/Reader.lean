import WasmLowering.Ir.Decl
import WasmLowering.Text.Hex
import WasmLowering.Wasm.Op

/-! Reading function bodies back, with the calls whose function index is still missing. -/
namespace WasmLowering

open Numeral (Binary32 Binary64 InRange)

inductive Fault where
  | truncated (offset : Nat)
  | unsignedTooLong (start : Nat)
  | unsignedOverflow (start : Nat)
  | signedTooLong (start : Nat)
  | immediateOverflow (start : Nat)
  | valueType (byte : UInt8) (offset : Nat)
  | opcode (byte : UInt8) (offset : Nat)
  | trailing (count : Nat)
deriving DecidableEq, Inhabited, Repr

def Fault.message : Fault → String
  | truncated offset => "unexpected end of body at offset " ++ toString offset
  | unsignedTooLong start => "unsigned LEB128 at offset " ++ toString start ++ " is too long"
  | unsignedOverflow start => "unsigned LEB128 at offset " ++ toString start ++ " overflows u32"
  | signedTooLong start => "signed LEB128 at offset " ++ toString start ++ " is too long"
  | immediateOverflow start =>
    "i32.const immediate at offset " ++ toString start ++ " overflows i32"
  | valueType byte offset =>
    "unknown value type 0x" ++ Hex.text Hex.upper [byte] ++ " at offset " ++ toString offset
  | opcode byte offset =>
    "unknown opcode 0x" ++ Hex.text Hex.upper [byte] ++ " at offset " ++ toString offset
  | trailing count => toString count ++ " trailing bytes after end marker"

/-- The bytes still to be read, and the offset of the first of them. -/
structure Cursor where
  pos : Nat
  rest : List UInt8
deriving DecidableEq, Repr

namespace Cursor

def byte (c : Cursor) : Except Fault (UInt8 × Cursor) :=
  match c.rest with
  | [] => .error (.truncated c.pos)
  | b :: bs => .ok (b, ⟨c.pos + 1, bs⟩)

def take (n : Nat) (c : Cursor) : Except Fault (List UInt8 × Cursor) :=
  if (c.rest.take n).length = n then .ok (c.rest.take n, ⟨c.pos + n, c.rest.drop n⟩)
  else .error (.truncated (c.pos + c.rest.length))

def group (limit : Nat) (tooLong : Fault) (c : Cursor) : Except Fault (List UInt8 × Cursor) :=
  match Leb.split limit c.rest with
  | .error .truncated => .error (.truncated (c.pos + c.rest.length))
  | .error .tooLong => .error tooLong
  | .ok (g, rest) => .ok (g, ⟨c.pos + g.length, rest⟩)

def unsigned (c : Cursor) : Except Fault (Nat × Cursor) :=
  match c.group 5 (.unsignedTooLong c.pos) with
  | .error e => .error e
  | .ok (g, c') =>
    if Leb.value g < UInt32.size then .ok (Leb.value g, c') else .error (.unsignedOverflow c.pos)

/-- What does not fit 64 bits is reduced to them. -/
def signed (c : Cursor) : Except Fault (Int64 × Cursor) :=
  match c.group 10 (.signedTooLong c.pos) with
  | .error e => .error e
  | .ok (g, c') => .ok (Int64.ofInt (Leb.signedValue g), c')

def signed32 (c : Cursor) : Except Fault (Int32 × Cursor) :=
  match c.signed with
  | .error e => .error e
  | .ok (v, c') =>
    if InRange true 32 v.toInt then .ok (Int32.ofInt v.toInt, c')
    else .error (.immediateOverflow c.pos)

def ofLittleEndian (bs : List UInt8) : Nat := bs.foldr (fun b n => b.toNat + 256 * n) 0

def word (width : Nat) (c : Cursor) : Except Fault (Nat × Cursor) :=
  match c.take width with
  | .error e => .error e
  | .ok (bs, c') => .ok (ofLittleEndian bs, c')

/-- A call carries no index where a relocation says that it is still missing. -/
def callee (relocs : List Reloc) (c : Cursor) : Except Fault (Op × Cursor) :=
  match relocs.find? fun r => r.offset == UInt32.ofNat c.pos with
  | some r => .ok (.callReloc r.target, c)
  | none => c.unsigned.map fun (n, c') => (.call n, c')

/-- The operation with the given opcode, which stands at `offset`. -/
def operation (relocs : List Reloc) (offset : Nat) (code : UInt8) (c : Cursor) :
    Except Fault (Op × Cursor) :=
  match code with
  | 0x20 => c.unsigned.map fun (n, c') => (.localGet n, c')
  | 0x21 => c.unsigned.map fun (n, c') => (.localSet n, c')
  | 0x41 => c.signed32.map fun (v, c') => (.i32Const v, c')
  | 0x42 => c.signed.map fun (v, c') => (.i64Const v, c')
  | 0x43 => (c.word 4).map fun (n, c') => (.f32Const ⟨UInt32.ofNat n⟩, c')
  | 0x44 => (c.word 8).map fun (n, c') => (.f64Const ⟨UInt64.ofNat n⟩, c')
  | 0x6A => .ok (.add .i32, c)
  | 0x7C => .ok (.add .i64, c)
  | 0x92 => .ok (.add .f32, c)
  | 0xA0 => .ok (.add .f64, c)
  | 0x10 => c.callee relocs
  | 0x0B => .ok (.endMark, c)
  | other => .error (.opcode other offset)

def op (relocs : List Reloc) (c : Cursor) : Except Fault (Op × Cursor) :=
  match c.byte with
  | .error e => .error e
  | .ok (code, c') => c'.operation relocs c.pos code

def valType (c : Cursor) : Except Fault (ValType × Cursor) :=
  match c.byte with
  | .error e => .error e
  | .ok (b, c') =>
    match ValType.ofByte? b with
    | some t => .ok (t, c')
    | none => .error (.valueType b c.pos)

/-- `n` runs of locals: a count and a type each. -/
def localRuns : (n : Nat) → Cursor → Except Fault (List (Nat × ValType) × Cursor)
  | 0, c => .ok ([], c)
  | n + 1, c => do
    let (count, c) ← c.unsigned
    let (ty, c) ← c.valType
    let (runs, c) ← localRuns n c
    return ((count, ty) :: runs, c)

/-! ## Reading moves forward -/

theorem byte_rest {c c' : Cursor} {b} (h : c.byte = .ok (b, c')) :
    c'.rest.length + 1 = c.rest.length := by
  unfold byte at h
  split at h
  · cases h
  · next hr => cases h; simp [hr]

theorem take_rest {n} {c c' : Cursor} {bs} (h : c.take n = .ok (bs, c')) :
    c'.rest.length ≤ c.rest.length := by
  unfold take at h
  split at h
  · cases h; simp
  · cases h

theorem group_rest {limit e} {c c' : Cursor} {g} (h : c.group limit e = .ok (g, c')) :
    c'.rest.length ≤ c.rest.length := by
  unfold group at h
  split at h
  · cases h
  · cases h
  · next hs => cases h; simp [(Leb.append_of_split hs).1]

theorem unsigned_rest {c c' : Cursor} {n} (h : c.unsigned = .ok (n, c')) :
    c'.rest.length ≤ c.rest.length := by
  unfold unsigned at h
  split at h
  · cases h
  · next hg =>
    split at h
    · cases h; exact group_rest hg
    · cases h

theorem signed_rest {c c' : Cursor} {v} (h : c.signed = .ok (v, c')) :
    c'.rest.length ≤ c.rest.length := by
  unfold signed at h
  split at h
  · cases h
  · next hg => cases h; exact group_rest hg

theorem signed32_rest {c c' : Cursor} {v} (h : c.signed32 = .ok (v, c')) :
    c'.rest.length ≤ c.rest.length := by
  unfold signed32 at h
  split at h
  · cases h
  · next hs =>
    split at h
    · cases h; exact signed_rest hs
    · cases h

theorem word_rest {width} {c c' : Cursor} {n} (h : c.word width = .ok (n, c')) :
    c'.rest.length ≤ c.rest.length := by
  unfold word at h
  split at h
  · cases h
  · next ht => cases h; exact take_rest ht

theorem map_rest {α : Type} {r : Except Fault (α × Cursor)} {f : α → Op} {o : Op} {c c' : Cursor}
    (hr : ∀ a d, r = .ok (a, d) → d.rest.length ≤ c.rest.length)
    (h : r.map (fun x => (f x.1, x.2)) = .ok (o, c')) : c'.rest.length ≤ c.rest.length := by
  cases r with
  | error e => cases h
  | ok p =>
    simp only [Except.map, Except.ok.injEq, Prod.mk.injEq] at h
    exact h.2 ▸ hr p.1 p.2 rfl

theorem callee_rest {relocs} {c c' : Cursor} {o} (h : c.callee relocs = .ok (o, c')) :
    c'.rest.length ≤ c.rest.length := by
  unfold callee at h
  split at h
  · cases h; exact Nat.le_refl _
  · exact map_rest (fun _ _ => unsigned_rest) h

theorem operation_rest {relocs offset code} {c c' : Cursor} {o}
    (h : c.operation relocs offset code = .ok (o, c')) : c'.rest.length ≤ c.rest.length := by
  unfold operation at h
  split at h
  · exact map_rest (fun _ _ => unsigned_rest) h
  · exact map_rest (fun _ _ => unsigned_rest) h
  · exact map_rest (fun _ _ => signed32_rest) h
  · exact map_rest (fun _ _ => signed_rest) h
  · exact map_rest (f := fun n => .f32Const ⟨UInt32.ofNat n⟩) (fun _ _ => word_rest) h
  · exact map_rest (f := fun n => .f64Const ⟨UInt64.ofNat n⟩) (fun _ _ => word_rest) h
  · cases h; exact Nat.le_refl _
  · cases h; exact Nat.le_refl _
  · cases h; exact Nat.le_refl _
  · cases h; exact Nat.le_refl _
  · exact callee_rest h
  · cases h; exact Nat.le_refl _
  · cases h

theorem op_rest {relocs} {c c' : Cursor} {o} (h : c.op relocs = .ok (o, c')) :
    c'.rest.length < c.rest.length := by
  unfold op at h
  split at h
  · cases h
  · next hb =>
    have := byte_rest hb
    have := operation_rest h
    omega

/-- The operations up to the end marker, which has to be the last byte, each with the offset of
its opcode. -/
def ops (relocs : List Reloc) (c : Cursor) : Except Fault (List (Nat × Op)) :=
  match _h : c.op relocs with
  | .error e => .error e
  | .ok (.endMark, c') =>
    if c'.rest = [] then .ok [(c.pos, .endMark)] else .error (.trailing c'.rest.length)
  | .ok (o, c') => (c'.ops relocs).map ((c.pos, o) :: ·)
termination_by c.rest.length
decreasing_by exact op_rest _h

end Cursor

structure DecodedBody where
  size : Nat
  /-- Runs of locals: how many, and of which type. -/
  locals : List (Nat × ValType)
  /-- Operations with the offsets of their opcodes. -/
  ops : List (Nat × Op)
deriving DecidableEq, Inhabited, Repr

namespace DecodedBody

def read (bytes : List UInt8) (relocs : List Reloc) : Except Fault DecodedBody := do
  let (size, c) ← (Cursor.mk 0 bytes).unsigned
  let (runs, c) ← c.unsigned
  let (locals, c) ← c.localRuns runs
  let ops ← c.ops relocs
  return ⟨size, locals, ops⟩

/-- Right-aligned in six columns. -/
def offsetText (offset : Nat) : String :=
  let digits := toString offset
  String.ofList (List.replicate (6 - digits.length) ' ') ++ digits

/-- One line for the size, each run of locals and each operation. -/
def listing (d : DecodedBody) : List String :=
  ("size " ++ toString d.size)
    :: (d.locals.map fun (count, ty) => "local " ++ toString count ++ " x " ++ ty.text)
    ++ d.ops.map fun (offset, o) => offsetText offset ++ ": " ++ o.text

end DecodedBody

end WasmLowering
