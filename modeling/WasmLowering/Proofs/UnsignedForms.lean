import WasmLowering.Proofs.SignedRange

/-!
# Forms of a number without a sign

A number is written in as few bytes as possible or in five, and both forms are read back whatever
follows. No other bytes that are read as the number are as few. What the reader takes is any
terminated group of five bytes whose exact value has 32 bits; each way to refuse says what is wrong
with the bytes.
-/

namespace WasmLowering

/-- How `v` is written, and what is read as `v`. -/
structure Leb.Forms (v : UInt32) : Prop where
  padded : ∀ slot, slot.length = paddedWidth → ∃ g, overwrite slot v.toNat = .ok g ∧
    g.length = 5 ∧ ∀ pos rest,
      (Cursor.mk pos (g ++ rest)).unsigned = .ok (v.toNat, ⟨pos + 5, rest⟩)
  unpadded : ∀ pos rest, (Cursor.mk pos (unsigned v.toNat ++ rest)).unsigned
    = .ok (v.toNat, ⟨pos + (unsigned v.toNat).length, rest⟩)
  shortest : ∀ pos bs c', (Cursor.mk pos bs).unsigned = .ok (v.toNat, c') →
    (unsigned v.toNat).length ≤ bs.length ∧
      (bs.length = (unsigned v.toNat).length → bs = unsigned v.toNat)

/-- What becomes of reading a number in front of `bs`. -/
structure Cursor.ReadsUnsigned (pos : Nat) (bs : List UInt8) : Prop where
  accepted : ∀ n c', (Cursor.mk pos bs).unsigned = .ok (n, c') ↔
    ∃ g, bs = g ++ c'.rest ∧ c'.pos = pos + g.length ∧ Leb.Terminated g ∧ g.length ≤ 5 ∧
      ∑ i : Fin g.length, (g.get i).toNat % 128 * 2 ^ (7 * i.val) = n ∧ n < 2 ^ 32
  tooLong : (Cursor.mk pos bs).unsigned = .error (.unsignedTooLong pos) ↔
    5 ≤ bs.length ∧ ∀ b ∈ bs.take 5, Leb.continues b = true
  overflow : (Cursor.mk pos bs).unsigned = .error (.unsignedOverflow pos) ↔
    ∃ g rest, bs = g ++ rest ∧ Leb.Terminated g ∧ g.length ≤ 5 ∧
      2 ^ 32 ≤ ∑ i : Fin g.length, (g.get i).toNat % 128 * 2 ^ (7 * i.val)
  truncated : (Cursor.mk pos bs).unsigned = .error (.truncated (pos + bs.length)) ↔
    bs.length < 5 ∧ ∀ b ∈ bs, Leb.continues b = true

theorem map_eq_error_iff {ε α β : Type} {f : α → β} {x : Except ε α} {e : ε} :
    x.map f = .error e ↔ x = .error e := by
  cases x <;> simp [Except.map]

namespace Leb

variable {g bs : List UInt8} {limit : Nat}

/-! ## Groups that are cut off -/

theorem split_eq_tooLong_iff : split limit bs = .error .tooLong ↔
    limit ≤ bs.length ∧ ∀ b ∈ bs.take limit, continues b = true := by
  fun_induction split limit bs with
  | case1 bs => simp
  | case2 n => simp
  | case3 n b bs hb ih =>
      rw [map_eq_error_iff, ih, List.take_succ_cons, List.forall_mem_cons, List.length_cons]
      simp [hb]
  | case4 n b bs hb => simp [hb]

theorem split_eq_truncated_iff : split limit bs = .error .truncated ↔
    bs.length < limit ∧ ∀ b ∈ bs, continues b = true := by
  fun_induction split limit bs with
  | case1 bs => simp
  | case2 n => simp
  | case3 n b bs hb ih =>
      rw [map_eq_error_iff, ih, List.forall_mem_cons, List.length_cons]
      simp [hb]
  | case4 n b bs hb => simp [hb]

/-! ## The shortest form -/

/-- A group that is no longer than the shortest form of its value is that form. -/
theorem shortest_unsigned (h : Terminated g) :
    (unsigned (value g)).length ≤ g.length ∧
      (g.length ≤ (unsigned (value g)).length → g = unsigned (value g)) := by
  induction g with
  | nil => exact h.elim
  | cons b bs ih =>
      have hb := b.toNat_lt
      cases bs with
      | nil =>
          have hend : b.toNat < 128 := by simpa [Terminated, continues] using h
          have hv : value [b] = b.toNat := by simp [value, payload, Nat.mod_eq_of_lt hend]
          rw [hv, unsigned, if_pos hend]
          exact ⟨Nat.le_refl _, fun _ => by rw [UInt8.ofNat_toNat]⟩
      | cons c bs =>
          obtain ⟨hle, heq⟩ := ih h.2
          have hcont : 128 ≤ b.toNat := by simpa [continues] using h.1
          have hv : value (b :: c :: bs) = payload b + 128 * value (c :: bs) := rfl
          have hp : payload b = b.toNat - 128 := by unfold payload; omega
          rw [unsigned]
          split
          · exact ⟨by simp, fun hl => by simp at hl⟩
          · have hdiv : value (b :: c :: bs) / 128 = value (c :: bs) := by omega
            have hmod : value (b :: c :: bs) % 128 + 128 = b.toNat := by omega
            rw [hdiv, hmod, UInt8.ofNat_toNat]
            refine ⟨Nat.succ_le_succ hle, fun hl => ?_⟩
            rw [← heq (Nat.le_of_succ_le_succ hl)]

end Leb

namespace Cursor

variable {pos : Nat} {bs : List UInt8}

/-! ## What is refused -/

theorem unsigned_eq_error_iff {e : Fault} : (Cursor.mk pos bs).unsigned = .error e ↔
    (e = .unsignedTooLong pos ∧ Leb.split 5 bs = .error .tooLong) ∨
    (e = .truncated (pos + bs.length) ∧ Leb.split 5 bs = .error .truncated) ∨
    (e = .unsignedOverflow pos ∧
      ∃ g rest, Leb.split 5 bs = .ok (g, rest) ∧ UInt32.size ≤ Leb.value g) := by
  unfold unsigned group
  cases Leb.split 5 bs with
  | error cut => cases cut <;> simp [eq_comm]
  | ok p =>
      obtain ⟨g, rest⟩ := p
      by_cases hv : Leb.value g < UInt32.size
      · simp [hv]
      · simp [hv, Nat.le_of_not_lt hv, eq_comm]

theorem readsUnsigned (pos : Nat) (bs : List UInt8) : ReadsUnsigned pos bs where
  accepted n c' := by
    rw [unsigned_eq_ok_iff]
    constructor
    · rintro ⟨g, hg, hb, hp⟩
      exact ⟨g, hb, hp, hg.terminated, hg.short, (Leb.value_eq_sum g).symm.trans hg.value, hg.bound⟩
    · rintro ⟨g, hb, hp, ht, hl, hv, hn⟩
      exact ⟨g, ⟨ht, hl, (Leb.value_eq_sum g).trans hv, hn⟩, hb, hp⟩
  tooLong := by simp [unsigned_eq_error_iff, Leb.split_eq_tooLong_iff]
  overflow := by
    simp only [unsigned_eq_error_iff, reduceCtorEq, true_and, false_and, false_or,
      Leb.split_eq_ok_iff]
    constructor
    · rintro ⟨g, rest, ⟨ht, hl, hb⟩, hv⟩
      exact ⟨g, rest, hb, ht, hl, hv.trans_eq (Leb.value_eq_sum g)⟩
    · rintro ⟨g, rest, hb, ht, hl, hv⟩
      exact ⟨g, rest, ⟨ht, hl, hb⟩, hv.trans_eq (Leb.value_eq_sum g).symm⟩
  truncated := by simp [unsigned_eq_error_iff, Leb.split_eq_truncated_iff]

end Cursor

theorem Leb.forms (v : UInt32) : Forms v where
  padded slot hs := ⟨padded paddedWidth v.toNat, if_pos hs, length_padded _ _,
    fun pos rest => Cursor.unsigned_padded pos rest v.toNat_lt⟩
  unpadded pos rest := Cursor.unsigned_unsigned pos rest v.toNat_lt
  shortest pos bs c' h := by
    obtain ⟨g, hg, hb, -⟩ := Cursor.unsigned_eq_ok_iff.mp h
    obtain ⟨hle, heq⟩ := shortest_unsigned hg.terminated
    rw [hg.value] at hle heq
    have hlen : bs.length = g.length + c'.rest.length := by
      rw [← List.length_append, ← hb]
    refine ⟨by omega, fun hl => ?_⟩
    have hrest : c'.rest = [] := List.eq_nil_of_length_eq_zero (by omega)
    rw [← heq (by omega)]
    simpa [hrest] using hb

/-- Every number of 32 bits is read back from both its forms, of which one is the shortest of all,
and the reader takes a number exactly where one of 32 bits is written in at most five bytes. -/
theorem unsigned_forms :
    (∀ v, Leb.Forms v) ∧ ∀ pos bs, Cursor.ReadsUnsigned pos bs :=
  ⟨Leb.forms, Cursor.readsUnsigned⟩

end WasmLowering
