import WasmLowering.Proofs.Reader
import WasmLowering.Wasm.TypeEntry

/-!
# Function type entries

An entry is written to its end exactly when all types that it names have a value type, and then its
parameters and results are read back from it.
-/

namespace WasmLowering

/-! ## Signatures with an entry -/

namespace Signature

/-- The parameters have value types, and what is returned has one if it is a value. -/
structure Mapped (s : Signature) : Prop where
  params : ∀ p ∈ s.params, p.valType?.isSome
  ret : s.ret.isVoid = true ∨ s.ret.valType?.isSome

theorem paramBytes_snd_eq_none_iff (ps : List Ty) :
    (paramBytes ps).2 = none ↔ ∀ p ∈ ps, p.valType?.isSome := by
  induction ps with
  | nil => simp [paramBytes]
  | cons p ps ih => cases hp : p.valType? <;> simp [paramBytes, hp, ih]

theorem resultBytes_snd_eq_none_iff (ret : Ty) :
    (resultBytes ret).2 = none ↔ ret.isVoid = true ∨ ret.valType?.isSome := by
  cases hv : ret.isVoid <;> cases ht : ret.valType? <;> simp [resultBytes, hv, ht]

theorem entry_snd_eq_none_iff {s : Signature} : s.entry.2 = none ↔ s.Mapped := by
  have hp := paramBytes_snd_eq_none_iff s.params
  have hr := resultBytes_snd_eq_none_iff s.ret
  unfold entry
  cases hb : paramBytes s.params with
  | mk bs c =>
      rw [hb] at hp
      cases c with
      | some c =>
          simp only [reduceCtorEq, false_iff] at hp ⊢
          exact fun h => hp h.params
      | none =>
          exact ⟨fun h => ⟨hp.mp rfl, hr.mp h⟩, fun h => hr.mpr h.ret⟩

def paramTypes (s : Signature) : List ValType := s.params.filterMap Ty.valType?

/-- One result or none. -/
def resultTypes (s : Signature) : List ValType :=
  if s.ret.isVoid then [] else s.ret.valType?.toList

def resultCount (s : Signature) : Nat := if s.ret.isVoid then 0 else 1

theorem Mapped.length_paramTypes {s : Signature} (h : s.Mapped) :
    s.paramTypes.length = s.params.length :=
  List.filterMap_length_eq_length.mpr h.params

theorem Mapped.length_resultTypes {s : Signature} (h : s.Mapped) :
    s.resultTypes.length = s.resultCount := by
  unfold resultTypes resultCount
  split
  · rfl
  · next hv =>
      obtain ⟨t, ht⟩ := Option.isSome_iff_exists.mp (h.ret.resolve_left hv)
      simp [ht]

theorem paramBytes_fst {ps : List Ty} (h : ∀ p ∈ ps, p.valType?.isSome) :
    (paramBytes ps).1 = (ps.filterMap Ty.valType?).map ValType.byte := by
  induction ps with
  | nil => rfl
  | cons p ps ih =>
      obtain ⟨t, ht⟩ := Option.isSome_iff_exists.mp (h p (List.mem_cons_self ..))
      simp [paramBytes, ht, ih fun q hq => h q (List.mem_cons_of_mem _ hq)]

theorem resultBytes_fst {s : Signature} (h : s.Mapped) :
    (resultBytes s.ret).1
      = Leb.unsigned s.resultTypes.length ++ s.resultTypes.map ValType.byte := by
  unfold resultBytes resultTypes
  split
  · simp
  · next hv =>
      obtain ⟨t, ht⟩ := Option.isSome_iff_exists.mp (h.ret.resolve_left hv)
      simp [ht]

theorem paramCount_of_lt {s : Signature} (h : s.params.length < UInt32.size) :
    s.paramCount = s.params.length :=
  Nat.mod_eq_of_lt h

theorem entry_fst {s : Signature} (h : s.Mapped) :
    s.entry.1 = 0x60 :: (Leb.unsigned s.paramCount ++ s.paramTypes.map ValType.byte
      ++ (Leb.unsigned s.resultTypes.length ++ s.resultTypes.map ValType.byte)) := by
  have hn := (paramBytes_snd_eq_none_iff s.params).mpr h.params
  have hp := paramBytes_fst h.params
  unfold entry
  cases hb : paramBytes s.params with
  | mk bs c =>
      rw [hb] at hn hp
      obtain rfl : c = none := hn
      obtain rfl : bs = s.paramTypes.map ValType.byte := hp
      simp [resultBytes_fst h]

end Signature

/-! ## Reading an entry -/

structure FunctionType where
  params : List ValType
  results : List ValType
deriving DecidableEq, Inhabited, Repr

namespace Cursor

def valTypes : (n : Nat) → Cursor → Except Fault (List ValType × Cursor)
  | 0, c => .ok ([], c)
  | n + 1, c => do
    let (t, c) ← c.valType
    let (ts, c) ← valTypes n c
    return (t :: ts, c)

/-- A number of types, and the types. -/
def typeVector (c : Cursor) : Except Fault (List ValType × Cursor) := do
  let (n, c) ← c.unsigned
  c.valTypes n

/-- The function type whose entry starts at the cursor. -/
def functionType (c : Cursor) : Except Fault (FunctionType × Cursor) := do
  let (tag, c) ← c.byte
  if tag = 0x60 then
    let (params, c) ← c.typeVector
    let (results, c) ← c.typeVector
    return (⟨params, results⟩, c)
  else throw (.opcode tag (c.pos - 1))

theorem valTypes_append (pos : Nat) (ts : List ValType) (rest : List UInt8) :
    (Cursor.mk pos (ts.map ValType.byte ++ rest)).valTypes ts.length
      = .ok (ts, ⟨pos + ts.length, rest⟩) := by
  induction ts generalizing pos with
  | nil => rfl
  | cons t ts ih =>
      simp [valTypes, bind, Except.bind, valType, byte, ValType.ofByte?_byte, ih (pos + 1), pure,
        Except.pure]
      omega

theorem typeVector_append (pos : Nat) (ts : List ValType) (rest : List UInt8)
    (h : ts.length < UInt32.size) :
    (Cursor.mk pos (Leb.unsigned ts.length ++ ts.map ValType.byte ++ rest)).typeVector
      = .ok (ts, ⟨pos + (Leb.unsigned ts.length ++ ts.map ValType.byte).length, rest⟩) := by
  unfold typeVector
  rw [List.append_assoc, unsigned_unsigned pos _ h]
  simp only [bind, Except.bind, valTypes_append]
  simp [Nat.add_assoc]

/-- The entry of a signature is read back, whatever stands behind it. -/
theorem functionType_entry (pos : Nat) {s : Signature} (rest : List UInt8) (h : s.Mapped)
    (hn : s.params.length < UInt32.size) :
    (Cursor.mk pos (s.entry.1 ++ rest)).functionType
      = .ok (⟨s.paramTypes, s.resultTypes⟩, ⟨pos + s.entry.1.length, rest⟩) := by
  have hr : s.resultTypes.length < UInt32.size := by
    rw [h.length_resultTypes, Signature.resultCount]
    split <;> decide
  have he := Signature.entry_fst h
  rw [Signature.paramCount_of_lt hn, ← h.length_paramTypes] at he
  rw [← h.length_paramTypes] at hn
  have hp := typeVector_append (pos + 1) s.paramTypes
    (Leb.unsigned s.resultTypes.length ++ s.resultTypes.map ValType.byte ++ rest) hn
  have hq := typeVector_append
    (pos + 1 + (Leb.unsigned s.paramTypes.length ++ s.paramTypes.map ValType.byte).length)
    s.resultTypes rest hr
  unfold functionType
  rw [he, List.cons_append, List.append_assoc]
  simp only [byte, bind, Except.bind, if_true, hp, hq, pure, Except.pure]
  simp [Nat.add_assoc, Nat.add_comm 1]

end Cursor

end WasmLowering
