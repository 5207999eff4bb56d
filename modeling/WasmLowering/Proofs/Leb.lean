import Mathlib.Tactic.Ring
import WasmLowering.Wasm.Leb

/-!
# Groups of seven bits

What a writer of numbers puts down is one terminated group, and its value is the number written.
A terminated group is split off whatever follows it.
-/

namespace WasmLowering.Leb

/-- Every byte but the last continues. -/
def Terminated : List UInt8 → Prop
  | [] => False
  | [b] => continues b = false
  | b :: c :: bs => continues b = true ∧ Terminated (c :: bs)

theorem terminated_cons {b : UInt8} {bs : List UInt8} (hb : continues b = true)
    (h : Terminated bs) : Terminated (b :: bs) := by
  cases bs with
  | nil => exact h.elim
  | cons c bs => exact ⟨hb, h⟩

theorem split_append {g : List UInt8} (rest : List UInt8) {limit : Nat} (h : Terminated g)
    (hl : g.length ≤ limit) : split limit (g ++ rest) = .ok (g, rest) := by
  induction g generalizing limit with
  | nil => exact h.elim
  | cons b bs ih =>
      obtain ⟨n, rfl⟩ : ∃ n, limit = n + 1 := ⟨limit - 1, by simp at hl; omega⟩
      cases bs with
      | nil =>
          have hb : continues b = false := h
          simp [split, hb]
      | cons c bs =>
          have hr : split n (c :: bs ++ rest) = .ok (c :: bs, rest) := ih h.2 (by simpa using hl)
          rw [List.cons_append, split, if_pos h.1, hr]
          rfl

theorem split_eq_ok_iff {limit : Nat} {bs g rest : List UInt8} :
    split limit bs = .ok (g, rest) ↔ Terminated g ∧ g.length ≤ limit ∧ bs = g ++ rest := by
  constructor
  · intro h
    fun_induction split limit bs generalizing g rest with
    | case1 => cases h
    | case2 => cases h
    | case3 n b bs hb ih =>
        cases hs : split n bs with
        | error e => simp [hs, Except.map] at h
        | ok p =>
            simp only [hs, Except.map, Except.ok.injEq, Prod.mk.injEq] at h
            obtain ⟨rfl, rfl⟩ := h
            obtain ⟨ht, hl, he⟩ := ih hs
            exact ⟨terminated_cons hb ht, Nat.succ_le_succ hl, by rw [he, List.cons_append]⟩
    | case4 n b bs hb =>
        cases h
        exact ⟨Bool.eq_false_iff.mpr hb, Nat.succ_le_succ (Nat.zero_le _), rfl⟩
  · rintro ⟨ht, hl, rfl⟩
    exact split_append rest ht hl

/-! ## Single bytes -/

theorem payload_ofNat {n : Nat} (h : n < 256) : payload (UInt8.ofNat n) = n % 128 := by
  simp [payload, Nat.mod_eq_of_lt h]

theorem continues_ofNat {n : Nat} (h : n < 256) : continues (UInt8.ofNat n) = decide (128 ≤ n) := by
  simp [continues, Nat.mod_eq_of_lt h]

/-! ## Numbers without a sign -/

theorem terminated_unsigned (n : Nat) : Terminated (unsigned n) := by
  fun_induction unsigned n with
  | case1 n h => simp [Terminated, continues_ofNat (by omega : n < 256), h]
  | case2 n h ih =>
      refine terminated_cons ?_ ih
      rw [continues_ofNat (by omega)]
      simp

theorem value_unsigned (n : Nat) : value (unsigned n) = n := by
  fun_induction unsigned n with
  | case1 n h => simp [value, payload_ofNat (by omega : n < 256), Nat.mod_eq_of_lt h]
  | case2 n h ih =>
      rw [value, ih, payload_ofNat (by omega)]
      omega

theorem length_unsigned_le {n k : Nat} (h : n < 128 ^ (k + 1)) : (unsigned n).length ≤ k + 1 := by
  induction k generalizing n with
  | zero => rw [unsigned, if_pos (by omega)]; simp
  | succ k ih =>
      rw [unsigned]
      split
      · simp
      · have hn : n / 128 < 128 ^ (k + 1) := by
          rw [Nat.div_lt_iff_lt_mul (by decide)]
          rwa [Nat.pow_succ] at h
        simpa using ih hn

theorem terminated_padded (w n : Nat) : Terminated (padded (w + 1) n) := by
  induction w generalizing n with
  | zero => simp [padded, Terminated, continues_ofNat (by omega : n % 128 < 256)]; omega
  | succ w ih =>
      rw [padded]
      refine terminated_cons ?_ (ih (n / 128))
      rw [continues_ofNat (by omega)]
      simp

theorem value_padded {w n : Nat} (h : n < 128 ^ w) : value (padded w n) = n := by
  induction w using Nat.strongRecOn generalizing n with
  | ind w ih =>
    match w with
    | 0 => simp at h; simp [padded, value, h]
    | 1 => simp [padded, value, payload_ofNat (by omega : n % 128 < 256)]; omega
    | w + 2 =>
        have hn : n / 128 < 128 ^ (w + 1) := by
          rw [Nat.div_lt_iff_lt_mul (by decide)]
          rwa [Nat.pow_succ] at h
        rw [padded, value, ih (w + 1) (by omega) hn, payload_ofNat (by omega)]
        omega

/-! ## Numbers with a sign -/

theorem signedValue_singleton (b : UInt8) :
    signedValue [b] = if 64 ≤ payload b then (payload b : Int) - 128 else payload b := by
  simp [signedValue, value]

theorem signedValue_cons (b c : UInt8) (bs : List UInt8) :
    signedValue (b :: c :: bs) = payload b + 128 * signedValue (c :: bs) := by
  have hs : 7 * (b :: c :: bs).length = 7 * (c :: bs).length + 7 := by simp; omega
  unfold signedValue
  rw [List.getLast?_cons_cons, hs, value]
  split
  · simp only [Nat.shiftLeft_eq, pow_add]
    push_cast
    ring
  · push_cast
    ring

theorem signed_ne_nil (v : Int) : signed v ≠ [] := by
  rw [signed]; split <;> simp

theorem terminated_signed (v : Int) : Terminated (signed v) := by
  fun_induction signed v with
  | case1 v h =>
      simp [Terminated, continues_ofNat (by omega : (v % 128).toNat < 256)]
      omega
  | case2 v h ih =>
      refine terminated_cons ?_ ih
      rw [continues_ofNat (by omega)]
      simp

theorem signedValue_signed (v : Int) : signedValue (signed v) = v := by
  fun_induction signed v with
  | case1 v h =>
      rw [signedValue_singleton, payload_ofNat (by omega)]
      split <;> omega
  | case2 v h ih =>
      obtain ⟨c, bs, hs⟩ := List.exists_cons_of_ne_nil (signed_ne_nil (v / 128))
      rw [hs] at ih ⊢
      rw [signedValue_cons, ih, payload_ofNat (by omega)]
      omega

theorem length_signed_le {v : Int} {k : Nat} (hl : -(64 * 128 ^ k) ≤ v) (hu : v < 64 * 128 ^ k) :
    (signed v).length ≤ k + 1 := by
  induction k generalizing v with
  | zero => rw [signed, if_pos (by omega)]; simp
  | succ k ih =>
      rw [signed]
      split
      · simp
      · rw [pow_succ] at hl hu
        have := ih (v := v / 128) (by omega) (by omega)
        simpa using this

end WasmLowering.Leb
