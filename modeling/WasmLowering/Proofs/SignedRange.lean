import Mathlib.Algebra.BigOperators.Fin
import Mathlib.Algebra.Order.Ring.Int
import Mathlib.Tactic.Linarith
import Mathlib.Tactic.Ring
import WasmLowering.Proofs.Grammar

/-!
# Signed numbers of ten bytes

Ten groups of seven bits hold more than 64. A signed number is read as it is written unless its
tenth byte has bits that are not copies of the sign; then its lowest 64 bits are read, and nothing
is refused.
-/

namespace WasmLowering

open Numeral (InRange)

namespace Leb

/-- The number that the bytes stand for: seven bits of each, the lowest first. Bit 6 of the last
byte counts negatively from there on. -/
def exactValue (bs : List UInt8) : Int :=
  ∑ i : Fin bs.length, (bs[i].toNat % 128 * 2 ^ (7 * i.val) : Nat)
    - if bs.getLast?.any (fun b => b.toNat.testBit 6) then (2 : Int) ^ (7 * bs.length) else 0

/-- Ten bytes, the last of which has bits that are neither all clear nor all set. -/
def Oversized (bs : List UInt8) : Prop :=
  Terminated bs ∧ bs.length = 10 ∧ bs.getLast? ≠ some 0x00 ∧ bs.getLast? ≠ some 0x7F

variable {b : UInt8} {bs : List UInt8}

theorem value_eq_sum (bs : List UInt8) :
    value bs = ∑ i : Fin bs.length, bs[i].toNat % 128 * 2 ^ (7 * i.val) := by
  induction bs with
  | nil => rfl
  | cons b bs ih =>
      have htail : 128 * value bs
          = ∑ i : Fin bs.length, bs[i].toNat % 128 * 2 ^ (7 * (i.val + 1)) := by
        rw [ih, Finset.mul_sum]
        refine Finset.sum_congr rfl fun i _ => ?_
        rw [Nat.mul_add, pow_add]
        ring
      rw [value, htail]
      simp [Fin.sum_univ_succ, payload]

theorem testBit_six (b : UInt8) : b.toNat.testBit 6 = decide (64 ≤ payload b) := by
  have hb := b.toNat_lt
  rw [Nat.testBit_eq_decide_div_mod_eq, payload, decide_eq_decide]
  omega

theorem exactValue_eq_signedValue (bs : List UInt8) : exactValue bs = signedValue bs := by
  unfold exactValue signedValue
  simp only [testBit_six, Nat.shiftLeft_eq, Nat.one_mul, value_eq_sum]
  split <;> simp

theorem payload_lt (b : UInt8) : payload b < 128 := Nat.mod_lt _ (by decide)

theorem value_lt (bs : List UInt8) : value bs < 128 ^ bs.length := by
  induction bs with
  | nil => decide
  | cons b bs ih =>
      have hb := payload_lt b
      rw [value, List.length_cons, pow_succ]
      omega

theorem value_append_singleton (bs : List UInt8) (b : UInt8) :
    value (bs ++ [b]) = value bs + 128 ^ bs.length * payload b := by
  induction bs with
  | nil => simp [value]
  | cons c bs ih =>
      rw [List.cons_append, value, ih, value, List.length_cons, pow_succ]
      ring

/-! ## The last byte -/

/-- Seven bits with a sign. -/
def signedPayload (b : UInt8) : Int := if 64 ≤ payload b then (payload b : Int) - 128 else payload b

theorem signedPayload_bounds (b : UInt8) : -64 ≤ signedPayload b ∧ signedPayload b < 64 := by
  have hb := payload_lt b
  unfold signedPayload
  split <;> omega

/-- Of a signed number only the last byte is signed. -/
theorem signedValue_append_singleton (bs : List UInt8) (b : UInt8) :
    signedValue (bs ++ [b]) = value bs + 128 ^ bs.length * signedPayload b := by
  have hpow : ((1 <<< (7 * (bs ++ [b]).length) : Nat) : Int) = 128 ^ bs.length * 128 := by
    rw [Nat.shiftLeft_eq, Nat.one_mul, List.length_append, pow_mul, List.length_singleton, pow_succ]
    simp
  unfold signedValue signedPayload
  rw [value_append_singleton, List.getLast?_concat, hpow]
  by_cases h : 64 ≤ payload b
  · simp [h]
    ring
  · simp [h]

theorem exists_append_of_terminated (h : Terminated bs) :
    ∃ front b, bs = front ++ [b] ∧ continues b = false := by
  induction bs with
  | nil => exact h.elim
  | cons c bs ih =>
      cases bs with
      | nil => exact ⟨[], c, rfl, h⟩
      | cons d bs =>
          obtain ⟨front, b, hf, hb⟩ := ih h.2
          exact ⟨c :: front, b, by rw [hf, List.cons_append], hb⟩

theorem signedPayload_inj {c : UInt8} (hb : continues b = false) (hc : continues c = false) :
    signedPayload b = signedPayload c ↔ b = c := by
  have hb : b.toNat < 128 := by simpa [continues] using hb
  have hc : c.toNat < 128 := by simpa [continues] using hc
  rw [← UInt8.toNat_inj]
  simp only [signedPayload, payload, Nat.mod_eq_of_lt hb, Nat.mod_eq_of_lt hc]
  split <;> split <;> omega

/-! ## Numbers of 64 bits -/

theorem inRange_iff {v : Int} : InRange true 64 v ↔ -2 ^ 63 ≤ v ∧ v < 2 ^ 63 := by
  simp [InRange, Nat.shiftLeft_eq]

/-- At most nine bytes have no more than 63 bits. -/
theorem inRange_of_length_le (h : bs.length ≤ 8) : InRange true 64 (signedValue (bs ++ [b])) := by
  obtain ⟨hlo, hhi⟩ := signedPayload_bounds b
  have hv : (value bs : Int) < 128 ^ bs.length := by exact_mod_cast value_lt bs
  have hp : (128 : Int) ^ bs.length ≤ 128 ^ 8 := pow_le_pow_right₀ (by decide) h
  have hpos : (0 : Int) < 128 ^ bs.length := by positivity
  rw [signedValue_append_singleton, inRange_iff]
  constructor
  · nlinarith
  · nlinarith

/-- The first nine bytes have 63 bits, so the tenth one can only add the sign. -/
theorem inRange_iff_of_length (h : bs.length = 9) (hb : continues b = false) :
    InRange true 64 (signedValue (bs ++ [b])) ↔ b = 0x00 ∨ b = 0x7F := by
  have hv := value_lt bs
  rw [h] at hv
  have hclear : signedPayload b = 0 ↔ b = 0x00 := signedPayload_inj (c := 0x00) hb rfl
  have hset : signedPayload b = -1 ↔ b = 0x7F := signedPayload_inj (c := 0x7F) hb rfl
  rw [signedValue_append_singleton, h, inRange_iff, ← hclear, ← hset]
  omega

/-- A number of at most ten bytes has 64 bits unless it is oversized. -/
theorem inRange_signedValue_iff (ht : Terminated bs) (hl : bs.length ≤ 10) :
    InRange true 64 (signedValue bs) ↔ ¬Oversized bs := by
  obtain ⟨front, b, rfl, hb⟩ := exists_append_of_terminated ht
  rw [List.length_append, List.length_singleton] at hl
  by_cases h : front.length = 9
  · rw [inRange_iff_of_length h hb]
    have hover : Oversized (front ++ [b]) ↔ ¬(b = 0x00 ∨ b = 0x7F) := by
      simp [Oversized, ht, h]
    rw [hover, not_not]
  · have hshort : ¬Oversized (front ++ [b]) := by
      rintro ⟨-, hlen, -⟩
      rw [List.length_append, List.length_singleton] at hlen
      omega
    exact iff_of_true (inRange_of_length_le (by omega)) hshort

theorem toInt_ofInt_signedValue (ht : Terminated bs) (hl : bs.length ≤ 10) :
    (Int64.ofInt (signedValue bs)).toInt = signedValue bs ↔ ¬Oversized bs := by
  rw [← inRange_signedValue_iff ht hl]
  constructor
  · intro h
    rw [← h, inRange_iff]
    exact ⟨Int64.le_toInt _, Int64.toInt_lt _⟩
  · intro h
    obtain ⟨hlo, hhi⟩ := inRange_iff.mp h
    exact Int64.toInt_ofInt_of_le hlo hhi

end Leb

/-! ## Readers -/

/-- The number in front of the bytes is read as it is written or refused, and a constant of 32 bits
is accepted only if it has no more. -/
structure ReadsSigned (bs : List UInt8) : Prop where
  exact : ∀ pos v c', (Cursor.mk pos bs).signed = .ok (v, c') →
    ∃ g, bs = g ++ c'.rest ∧ c'.pos = pos + g.length ∧ v.toInt = Leb.exactValue g
  refused : ∀ pos g rest, bs = g ++ rest → Leb.Terminated g → g.length ≤ 10 →
    ¬InRange true 64 (Leb.exactValue g) → ∃ f, (Cursor.mk pos bs).signed = .error f
  narrow : ∀ relocs pos w c', (Cursor.mk pos (0x41 :: bs)).op relocs = .ok (.i32Const w, c') →
    ∃ g, bs = g ++ c'.rest ∧ c'.pos = pos + 1 + g.length ∧ InRange true 32 (Leb.exactValue g) ∧
      w.toInt = Leb.exactValue g

namespace Cursor

variable {c c' : Cursor} {g bs rest : List UInt8} {relocs : List Reloc} {pos : Nat}

/-- No terminated number of at most ten bytes is refused. -/
theorem signed_of_terminated (pos : Nat) (rest : List UInt8) (ht : Leb.Terminated g)
    (hl : g.length ≤ 10) : (Cursor.mk pos (g ++ rest)).signed
      = .ok (Int64.ofInt (Leb.exactValue g), ⟨pos + g.length, rest⟩) := by
  rw [Leb.exactValue_eq_signedValue]
  exact signed_eq_ok_iff.mpr ⟨g, ⟨ht, hl, rfl⟩, rfl, rfl⟩

theorem toInt_of_spells {v : Int64} (h : SpellsSigned g v) (ho : ¬Leb.Oversized g) :
    v.toInt = Leb.exactValue g := by
  rw [Leb.exactValue_eq_signedValue, ← h.value]
  exact (Leb.toInt_ofInt_signedValue h.terminated h.short).mpr ho

theorem signed32_of_op_i32Const {w : Int32}
    (h : (Cursor.mk pos (0x41 :: bs)).op relocs = .ok (.i32Const w, c')) :
    (Cursor.mk (pos + 1) bs).signed32 = .ok (w, c') := by
  change (Cursor.mk (pos + 1) bs).signed32.map (fun x => (Op.i32Const x.1, x.2)) = _ at h
  cases hs : (Cursor.mk (pos + 1) bs).signed32 with
  | error f => simp [hs, Except.map] at h
  | ok x =>
      rw [hs] at h
      cases h
      rfl

end Cursor

theorem readsSigned_of_not_oversized {bs : List UInt8}
    (h : ∀ g rest, bs = g ++ rest → ¬Leb.Oversized g) : ReadsSigned bs where
  exact pos v c' hr := by
    obtain ⟨g, hg, hb, hp⟩ := Cursor.signed_eq_ok_iff.mp hr
    exact ⟨g, hb, hp, Cursor.toInt_of_spells hg (h g _ hb)⟩
  refused pos g rest hb ht hl hn := by
    rw [Leb.exactValue_eq_signedValue, Leb.inRange_signedValue_iff ht hl] at hn
    exact absurd (h g rest hb) hn
  narrow relocs pos w c' hr := by
    obtain ⟨g, ⟨v, hg, hv⟩, hb, hp⟩ :=
      Cursor.signed32_eq_ok_iff.mp (Cursor.signed32_of_op_i32Const hr)
    have he : w.toInt = Leb.exactValue g := hv.symm.trans (Cursor.toInt_of_spells hg (h g _ hb))
    exact ⟨g, hb, hp, he ▸ Cursor.inRange_toInt w, he⟩

/-- Signed numbers are read exactly unless an oversized one stands in front, and any number of at
most ten bytes is read as its lowest 64 bits. -/
theorem readsSigned_iff (bs : List UInt8) :
    (ReadsSigned bs ↔ ∀ g rest, bs = g ++ rest → ¬Leb.Oversized g) ∧
      ∀ pos g rest, bs = g ++ rest → Leb.Terminated g → g.length ≤ 10 →
        (Cursor.mk pos bs).signed
          = .ok (Int64.ofInt (Leb.exactValue g), ⟨pos + g.length, rest⟩) := by
  refine ⟨⟨?_, readsSigned_of_not_oversized⟩, ?_⟩
  · rintro h g rest rfl ho
    have hl : g.length ≤ 10 := Nat.le_of_eq ho.2.1
    have hn : ¬InRange true 64 (Leb.exactValue g) := by
      rw [Leb.exactValue_eq_signedValue, Leb.inRange_signedValue_iff ho.1 hl]
      exact not_not.mpr ho
    obtain ⟨f, hf⟩ := h.refused 0 g rest rfl ho.1 hl hn
    rw [Cursor.signed_of_terminated 0 rest ho.1 hl] at hf
    cases hf
  · rintro pos g rest rfl ht hl
    exact Cursor.signed_of_terminated pos rest ht hl

/-! ## A constant that wraps -/

/-- Two to the power of 64 in ten bytes. -/
def oversized : List UInt8 := [0x80, 0x80, 0x80, 0x80, 0x80, 0x80, 0x80, 0x80, 0x80, 0x02]

/-- A body of one constant of 32 bits. -/
def oversizedBody : List UInt8 :=
  [0x8D, 0x80, 0x80, 0x80, 0x00, 0x00, 0x41] ++ oversized ++ [0x0B]

theorem spellsSigned_oversized : SpellsSigned oversized 0 where
  terminated := by simp [oversized, Leb.Terminated, Leb.continues]
  short := by decide
  value := by decide

theorem exists_read_oversized :
    Leb.Oversized oversized ∧ Leb.exactValue oversized = 2 ^ 64 ∧
      (Cursor.mk 0 oversized).signed = .ok (0, ⟨10, []⟩) ∧
      DecodedBody.read oversizedBody [] = .ok ⟨13, [], [(6, .i32Const 0), (17, .endMark)]⟩ ∧
      ¬ReadsSigned oversized := by
  have hexact : Leb.exactValue oversized = 2 ^ 64 := by
    rw [Leb.exactValue_eq_signedValue]
    decide
  have hsigned : (Cursor.mk 0 oversized).signed = .ok (0, ⟨10, []⟩) :=
    Cursor.signed_eq_ok_iff.mpr ⟨oversized, spellsSigned_oversized, rfl, rfl⟩
  refine ⟨⟨spellsSigned_oversized.terminated, rfl, by decide, by decide⟩, hexact, hsigned, ?_, ?_⟩
  · refine DecodedBody.read_of_spelled (by decide) ⟨[0x8D, 0x80, 0x80, 0x80, 0x00], [0x00], [],
      0x41 :: oversized ++ [0x0B], rfl, ?size, ?count, .nil, ?ops⟩
    case size => exact ⟨⟨rfl, rfl, rfl, rfl, rfl⟩, by decide, rfl, by decide⟩
    case count => exact ⟨rfl, by decide, rfl, by decide⟩
    case ops =>
      exact .cons (g := 0x41 :: oversized) (.i32Const spellsSigned_oversized rfl) (by decide)
        (.last .endMark)
  · intro h
    obtain ⟨f, hf⟩ := h.refused 0 oversized [] rfl spellsSigned_oversized.terminated
      spellsSigned_oversized.short (by rw [hexact, Leb.inRange_iff]; decide)
    rw [hsigned] at hf
    cases hf

end WasmLowering
