/-!
# Decimal numbers in a text

A number is written in decimal digits. Where no digit stands behind it, both the number and the
place where it ends are known from the text.
-/

namespace WasmLowering

/-- A number in front of `rest` ends there. -/
def EndsNumber (rest : List Char) : Prop := ∀ c ∈ rest.head?, c.isDigit = false

theorem isDigit_of_mem_toDigits {n : Nat} {c : Char} (h : c ∈ Nat.toDigits 10 n) : c.isDigit :=
  Nat.isDigit_of_mem_toDigits (by decide) (by decide) h

theorem exists_toDigits (n : Nat) : ∃ c cs, Nat.toDigits 10 n = c :: cs ∧ c.isDigit := by
  obtain ⟨c, cs, hcs⟩ := List.exists_cons_of_ne_nil (Nat.toDigits_ne_nil (n := n) (b := 10))
  exact ⟨c, cs, hcs, isDigit_of_mem_toDigits (hcs ▸ List.mem_cons_self)⟩

theorem digit_ne {c d : Char} (hc : c.isDigit) (hd : d.isDigit = false) : c ≠ d := by
  rintro rfl
  simp [hc] at hd

theorem toDigits_inj {m n : Nat} (h : Nat.toDigits 10 m = Nat.toDigits 10 n) : m = n := by
  rw [← Nat.ofDigitChars_ten_toDigits (n := m), h, Nat.ofDigitChars_ten_toDigits]

namespace EndsNumber

variable {rest : List Char}

theorem takeWhile_append (h : EndsNumber rest) (n : Nat) :
    (Nat.toDigits 10 n ++ rest).takeWhile Char.isDigit = Nat.toDigits 10 n := by
  have hr : rest.takeWhile Char.isDigit = [] := by
    cases rest with
    | nil => rfl
    | cons c cs => simp [h c rfl]
  rw [List.takeWhile_append_of_pos fun _ => isDigit_of_mem_toDigits, hr, List.append_nil]

theorem dropWhile_append (h : EndsNumber rest) (n : Nat) :
    (Nat.toDigits 10 n ++ rest).dropWhile Char.isDigit = rest := by
  rw [List.dropWhile_append_of_pos fun _ => isDigit_of_mem_toDigits]
  cases rest with
  | nil => rfl
  | cons c cs => simp [h c rfl]

theorem toDigits_append_inj {r s : List Char} (hr : EndsNumber r) (hs : EndsNumber s) {m n : Nat}
    (h : Nat.toDigits 10 m ++ r = Nat.toDigits 10 n ++ s) : m = n ∧ r = s := by
  have hd : Nat.toDigits 10 m = Nat.toDigits 10 n := by
    rw [← hr.takeWhile_append, h, hs.takeWhile_append]
  rw [hd] at h
  exact ⟨toDigits_inj hd, List.append_cancel_left h⟩

end EndsNumber

end WasmLowering
