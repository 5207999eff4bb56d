import WasmLowering.Proofs.Constants
import WasmLowering.Proofs.SignedRange

/-!
# Forms of a number with a sign

A signed constant is written in as few bytes as possible, and in the same bytes whether it has 32 or
64 bits. They are read back whatever follows. Reading comes to the same as putting the number
together in a word of 64 bits, where nothing is shifted by the width of the word or more.
-/

namespace WasmLowering

/-- A word cannot be shifted by its width or more. -/
def shiftLeft? (x : BitVec 64) (n : Nat) : Option (BitVec 64) :=
  if n < 64 then some (x <<< n) else none

namespace Cursor

/-- The bits of each byte are shifted to their place in a word, and what the last byte leaves of the
word is filled with its sign. -/
def shiftIn (start : Nat) (word : BitVec 64) (shift pos : Nat) :
    List UInt8 → Option (Except Fault (Int64 × Cursor))
  | [] => some (.error (.truncated pos))
  | b :: bs => do
    let word := word ||| (← shiftLeft? (.ofInt 64 (Leb.payload b)) shift)
    let shift := shift + 7
    if Leb.continues b then
      if 70 ≤ shift then some (.error (.signedTooLong start))
      else shiftIn start word shift (pos + 1) bs
    else if shift < 64 ∧ 64 ≤ Leb.payload b then
      let sign ← shiftLeft? (.ofInt 64 (-1)) shift
      some (.ok (.ofBitVec (word ||| sign), ⟨pos + 1, bs⟩))
    else some (.ok (.ofBitVec word, ⟨pos + 1, bs⟩))

/-- The number in front, put together in a word. There is no result if a shift is too wide. -/
def shifted (c : Cursor) : Option (Except Fault (Int64 × Cursor)) := shiftIn c.pos 0 0 c.pos c.rest

end Cursor

/-- Every constant that the operation pushes is written as `bs`. -/
def Op.WrittenAs (o : Op) (bs : List UInt8) : Prop :=
  ∀ (inst : Inst) l sink, inst.kind = .constant l → o.Pushes l inst.ty →
    inst.emitConstant.into sink = (sink ++ bs, .ok ())

/-- The bytes `g` are the immediate of `v`, also of a constant of 32 bits. -/
structure Leb.Immediate (v : Int64) (g : List UInt8) : Prop where
  wide : (Op.i64Const v).Pushes (.int v) (.int true 64) ∧ (Op.i64Const v).WrittenAs (0x42 :: g)
  narrow : ∀ w : Int32, w.toInt64 = v →
    (Op.i32Const w).Pushes (.int v) (.int true 32) ∧ (Op.i32Const w).WrittenAs (0x41 :: g)
  read : ∀ pos rest, (Cursor.mk pos (g ++ rest)).signed = .ok (v, ⟨pos + g.length, rest⟩)
  /-- No shift is as wide as the word. -/
  shifted : ∀ pos rest,
    (Cursor.mk pos (g ++ rest)).shifted = some (.ok (v, ⟨pos + g.length, rest⟩))
  shortest : ∀ pos bs c', (Cursor.mk pos bs).signed = .ok (v, c') → g.length ≤ bs.length

namespace Leb

variable {b : UInt8} {bs g : List UInt8}

/-- What is shifted above a number does not touch it, so both add up. -/
theorem ofInt_or_shiftLeft {v n : Nat} (hv : v < 2 ^ n) (p : Int) :
    BitVec.ofInt 64 v ||| BitVec.ofInt 64 p <<< n = BitVec.ofInt 64 (v + 2 ^ n * p) := by
  have hdisj : BitVec.ofInt 64 v &&& BitVec.ofInt 64 p <<< n = 0 := by
    refine BitVec.eq_of_getLsbD_eq fun i hi => ?_
    by_cases hin : i < n
    · simp [hin]
    · have hbit : v.testBit i = false :=
        Nat.testBit_lt_two_pow (Nat.lt_of_lt_of_le hv (Nat.pow_le_pow_right (by decide) (by omega)))
      simp [BitVec.ofInt_natCast, BitVec.getLsbD_ofNat, hbit]
  have hpow : BitVec.ofInt 64 (2 ^ n) = BitVec.twoPow 64 n := by
    have hcast : (2 : Int) ^ n = (2 ^ n : Nat) := by push_cast; rfl
    rw [hcast, BitVec.ofInt_natCast]
    exact BitVec.eq_of_toNat_eq (by simp)
  rw [← BitVec.add_eq_or_of_and_eq_zero _ _ hdisj, BitVec.shiftLeft_eq_mul_twoPow, BitVec.ofInt_add,
    BitVec.ofInt_mul, hpow, BitVec.mul_comm]

theorem two_pow_seven_mul (n : Nat) : 2 ^ (7 * n) = 128 ^ n := by
  rw [pow_mul]
  rfl

theorem word_concat (bs : List UInt8) (b : UInt8) :
    BitVec.ofInt 64 (value bs) ||| BitVec.ofInt 64 (payload b) <<< (7 * bs.length)
      = BitVec.ofInt 64 (value (bs ++ [b])) := by
  have hv : value bs < 2 ^ (7 * bs.length) := by
    rw [two_pow_seven_mul]
    exact value_lt bs
  rw [ofInt_or_shiftLeft hv, value_append_singleton, ← two_pow_seven_mul]
  push_cast
  rfl

theorem signedValue_concat (bs : List UInt8) (b : UInt8) : signedValue (bs ++ [b])
    = value (bs ++ [b]) + if 64 ≤ payload b then -2 ^ (7 * (bs.length + 1)) else 0 := by
  have hpow : (2 : Int) ^ (7 * (bs.length + 1)) = 128 ^ bs.length * 128 := by
    exact_mod_cast two_pow_seven_mul (bs.length + 1)
  rw [signedValue_append_singleton, value_append_singleton, signedPayload, hpow]
  push_cast
  split <;> ring

theorem word_of_room (bs : List UInt8) (hs : 64 ≤ payload b) :
    BitVec.ofInt 64 (value (bs ++ [b])) ||| BitVec.ofInt 64 (-1) <<< (7 * bs.length + 7)
      = BitVec.ofInt 64 (signedValue (bs ++ [b])) := by
  have hv : value (bs ++ [b]) < 2 ^ (7 * bs.length + 7) := by
    have h := value_lt (bs ++ [b])
    rwa [List.length_append, List.length_singleton, ← two_pow_seven_mul] at h
  rw [ofInt_or_shiftLeft hv, signedValue_concat, if_pos hs]
  congr 1
  ring

/-- A sign for which there is no room is lost with all bits above the word. -/
theorem word_of_no_room (hl : bs.length ≤ 9) (h : ¬(7 * bs.length + 7 < 64 ∧ 64 ≤ payload b)) :
    BitVec.ofInt 64 (value (bs ++ [b])) = BitVec.ofInt 64 (signedValue (bs ++ [b])) := by
  rw [signedValue_concat]
  by_cases hs : 64 ≤ payload b
  · have hfull : bs.length = 9 := by omega
    have hlost : BitVec.ofInt 64 (-2 ^ (7 * (9 + 1))) = 0#64 := by decide
    rw [if_pos hs, hfull, BitVec.ofInt_add, hlost, BitVec.add_zero]
  · rw [if_neg hs, Int.add_zero]

theorem shortest_signed (h : Terminated g) : (signed (signedValue g)).length ≤ g.length := by
  induction g with
  | nil => exact h.elim
  | cons b bs ih =>
      cases bs with
      | nil =>
          have hb := signedPayload_bounds b
          have hv : signedValue [b] = signedPayload b := signedValue_singleton b
          rw [hv, signed, if_pos (by omega)]
          simp
      | cons c bs =>
          have hp := payload_lt b
          have hdiv : signedValue (b :: c :: bs) / 128 = signedValue (c :: bs) := by
            rw [signedValue_cons]
            omega
          rw [signed]
          split
          · simp
          · rw [hdiv]
            exact Nat.succ_le_succ (ih h.2)

end Leb

namespace Cursor

theorem group_cons_of_continues {b : UInt8} {bs : List UInt8} {pos n : Nat} {e : Fault}
    (hb : Leb.continues b = true) : (Cursor.mk pos (b :: bs)).group (n + 1) e
      = ((Cursor.mk (pos + 1) bs).group n e).map fun (g, c') => (b :: g, c') := by
  unfold group
  dsimp only
  rw [Leb.split, if_pos hb]
  cases Leb.split n bs with
  | ok p => simp [Except.map, Nat.add_assoc, Nat.add_comm 1]
  | error cut => cases cut <;> simp [Except.map, Nat.add_assoc, Nat.add_comm 1]

/-- The word holds the bytes `front`, of which there are at most nine. -/
theorem shiftIn_eq (start : Nat) {front bs : List UInt8} {pos n : Nat} (hl : front.length + n = 9) :
    shiftIn start (.ofInt 64 (Leb.value front)) (7 * front.length) pos bs
      = some (((Cursor.mk pos bs).group (n + 1) (.signedTooLong start)).map fun (g, c') =>
          (Int64.ofInt (Leb.signedValue (front ++ g)), c')) := by
  induction bs generalizing front pos n with
  | nil => rfl
  | cons b bs ih =>
      rw [shiftIn, shiftLeft?, if_pos (by omega)]
      simp only [Option.bind_eq_bind, Option.bind_some, Leb.word_concat]
      by_cases hb : Leb.continues b = true
      · rw [if_pos hb, group_cons_of_continues hb]
        cases n with
        | zero =>
            rw [if_pos (by omega)]
            rfl
        | succ n =>
            have hrest := @ih (front ++ [b]) (pos + 1) n (by simp; omega)
            rw [List.length_append, List.length_singleton, Nat.mul_add_one] at hrest
            rw [if_neg (by omega), hrest]
            cases (Cursor.mk (pos + 1) bs).group (n + 1) (.signedTooLong start) <;>
              simp [Except.map]
      · have hgroup : (Cursor.mk pos (b :: bs)).group (n + 1) (.signedTooLong start)
            = .ok ([b], ⟨pos + 1, bs⟩) := by
          simp [group, Leb.split, hb]
        rw [if_neg hb, hgroup]
        split
        · next hs =>
          rw [shiftLeft?, if_pos hs.1, Option.bind_some, Leb.word_of_room front hs.2,
            Int64.ofBitVec_ofInt]
          rfl
        · next hs =>
          rw [Leb.word_of_no_room (by omega) hs, Int64.ofBitVec_ofInt]
          rfl

/-- Whatever is read, no shift is too wide. -/
theorem shifted_eq (c : Cursor) : c.shifted = some c.signed := by
  have h := @shiftIn_eq c.pos [] c.rest c.pos 9 rfl
  refine Eq.trans h ?_
  unfold signed
  cases c.group 10 (.signedTooLong c.pos) <;> rfl

end Cursor

/-! ## Constants -/

theorem Op.writtenAs_bytes (o : Op) : o.WrittenAs o.bytes :=
  fun _ _ sink hk h => Inst.into_of_pushes hk h sink

theorem Op.pushes_int64 (v : Int64) : (i64Const v).Pushes (.int v) (.int true 64) :=
  ⟨rfl, v.toInt, rfl, Leb.inRange_iff.mpr ⟨v.le_toInt, v.toInt_lt⟩, rfl, fun _ => rfl⟩

theorem Op.pushes_int32 (w : Int32) : (i32Const w).Pushes (.int w.toInt64) (.int true 32) := by
  refine ⟨rfl, w.toInt, ?_, Cursor.inRange_toInt w, rfl, fun _ => rfl⟩
  rw [Literal.integer?, Int32.toInt_toInt64]

/-- Only a number of ten bytes can be read as another one than it is, and no immediate is longer. -/
theorem Cursor.length_signed_le_of_signed {v : Int64} {c c' : Cursor}
    (h : c.signed = .ok (v, c')) : (Leb.signed v.toInt).length ≤ c.rest.length := by
  obtain ⟨g, hg, hb, -⟩ := signed_eq_ok_iff.mp h
  have hle : g.length ≤ c.rest.length := by
    rw [hb, List.length_append]
    exact Nat.le_add_right _ _
  refine Nat.le_trans ?_ hle
  by_cases ho : Leb.Oversized g
  · have hlo := v.le_toInt
    have hhi := v.toInt_lt
    rw [ho.2.1]
    exact Leb.length_signed_le (k := 9) (by omega) (by omega)
  · have hv : Leb.signedValue g = v.toInt := by
      rw [← hg.value]
      exact ((Leb.toInt_ofInt_signedValue hg.terminated hg.short).mpr ho).symm
    rw [← hv]
    exact Leb.shortest_signed hg.terminated

/-- Every signed number of 64 bits has an immediate, from which it is read back whatever follows, and
nothing shorter is read as that number. -/
theorem exists_immediate (v : Int64) : ∃ g, Leb.Immediate v g := by
  refine ⟨Leb.signed v.toInt, ?_⟩
  have hread : ∀ pos rest, (Cursor.mk pos (Leb.signed v.toInt ++ rest)).signed
      = .ok (v, ⟨pos + (Leb.signed v.toInt).length, rest⟩) :=
    fun pos rest => Cursor.signed_signed pos v rest
  exact {
    wide := ⟨Op.pushes_int64 v, Op.writtenAs_bytes _⟩
    narrow := by
      rintro w rfl
      refine ⟨Op.pushes_int32 w, ?_⟩
      rw [Int32.toInt_toInt64]
      exact Op.writtenAs_bytes _
    read := hread
    shifted := fun pos rest => by rw [Cursor.shifted_eq, hread]
    shortest := fun pos bs c' h => Cursor.length_signed_le_of_signed h }

/-- The first negative number that one byte does not hold. -/
theorem exists_immediate_negative : ∃ g, Leb.Immediate (-65) g ∧ g = [0xBF, 0x7F] ∧
    (Inst.mk (.int true 64) (.constant (.int (-65))) .synthetic).emitConstant.into []
      = ([0x42, 0xBF, 0x7F], .ok ()) ∧
    (Inst.mk (.int true 32) (.constant (.int (-65))) .synthetic).emitConstant.into []
      = ([0x41, 0xBF, 0x7F], .ok ()) ∧
    (Cursor.mk 1 [0xBF, 0x7F, 0x0B]).shifted = some (.ok (-65, ⟨3, [0x0B]⟩)) := by
  obtain ⟨g, hg⟩ := exists_immediate (-65)
  have hwide := hg.wide.2 ⟨.int true 64, .constant (.int (-65)), .synthetic⟩ _ [] rfl hg.wide.1
  obtain ⟨hpush, hwritten⟩ := hg.narrow (-65) (by decide)
  have hnarrow := hwritten ⟨.int true 32, .constant (.int (-65)), .synthetic⟩ _ [] rfl hpush
  have hbytes : ((Inst.mk (.int true 64) (.constant (.int (-65))) .synthetic).emitConstant.into
      []).1 = [0x42, 0xBF, 0x7F] := by
    decide +kernel
  rw [hwide] at hbytes
  obtain rfl : g = [0xBF, 0x7F] := (List.cons.inj hbytes).2
  exact ⟨_, hg, rfl, hwide, hnarrow, hg.shifted 1 [0x0B]⟩

end WasmLowering
