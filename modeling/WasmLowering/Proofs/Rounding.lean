import Mathlib.Algebra.Order.Field.Power
import Mathlib.Tactic.Linarith
import Mathlib.Tactic.Positivity
import Mathlib.Tactic.Ring
import WasmLowering.Numeral.Binary

/-!
# Rounding to the nearest word

The words of the positive numbers of a format stand in the order of the numbers, and the infinite
word comes next: it counts as the power of two behind the largest number. In these terms a ratio is
rounded to the nearest word, and to the even one of two that are equally near.
-/

namespace WasmLowering.Numeral

/-! ## Numbers of a format -/

namespace Format

variable (F : Format)

/-- What a word without a sign counts as. -/
def magnitude (word : Nat) : ℚ :=
  match F.decode word with
  | .finite _ significand exponent => significand * 2 ^ exponent
  | .infinite _ => 2 ^ (1 <<< (F.exponentBits - 1))
  | .nan => 0

/-- No word is nearer to `q`. The word is even if that of another number is equally near. -/
structure Nearest (q : ℚ) (word : Nat) : Prop where
  le : word ≤ F.infinity
  nearest : ∀ w ≤ F.infinity, |q - F.magnitude word| ≤ |q - F.magnitude w|
  even : ∀ w ≤ F.infinity, F.magnitude w ≠ F.magnitude word →
    |q - F.magnitude w| = |q - F.magnitude word| → word % 2 = 0

/-- Exponents and fractions have bits. -/
structure Proper : Prop where
  fraction : 1 ≤ F.fractionBits
  exponent : 2 ≤ F.exponentBits

end Format

theorem proper_single : single.Proper := ⟨by decide, by decide⟩

/-- The 32-bit number is the 64-bit number, rounded: its word is the one that is nearest. -/
structure Binary32.Rounds (x : Binary64) (y : Binary32) : Prop where
  sign : single.negative y.bits.toNat = double.negative x.bits.toNat
  nan : x.datum = .nan → y.datum = .nan
  infinite : ∀ s, x.datum = .infinite s → y.datum = .infinite s
  finite : ∀ s m e, x.datum = .finite s m e →
    ∀ w, single.Nearest (m * 2 ^ e) w ↔ w = y.bits.toNat % single.signBit

/-! ## Integers -/

/-- `m` is nearest to `x`, and even if it is half a unit away. -/
structure RoundsInt (x : ℚ) (m : Nat) : Prop where
  half : |x - m| ≤ 1 / 2
  even : |x - m| = 1 / 2 → m % 2 = 0

namespace RoundsInt

variable {x : ℚ} {m : Nat}

/-- The other integers are half a unit away at least. -/
theorem half_le (h : RoundsInt x m) {n : Nat} (hn : n ≠ m) : 1 / 2 ≤ |x - n| := by
  have hone : (1 : ℚ) ≤ |(m : ℚ) - n| := by
    have : (1 : ℤ) ≤ |(m : ℤ) - n| := Int.one_le_abs (by omega)
    exact_mod_cast this
  have htri := abs_sub_le (m : ℚ) x n
  rw [abs_sub_comm (m : ℚ) x] at htri
  linarith [h.half]

theorem nearest (h : RoundsInt x m) (n : Nat) : |x - m| ≤ |x - n| := by
  by_cases hn : n = m
  · rw [hn]
  · exact h.half.trans (h.half_le hn)

theorem even_of_eq (h : RoundsInt x m) {n : Nat} (hn : n ≠ m) (he : |x - n| = |x - m|) :
    m % 2 = 0 :=
  h.even (le_antisymm h.half (he ▸ h.half_le hn))

theorem le_of_le (h : RoundsInt x m) {n : Nat} (hx : (n : ℚ) ≤ x) : n ≤ m := by
  by_contra hlt
  have hlt : (m : ℚ) + 1 ≤ n := by exact_mod_cast Nat.lt_of_not_le hlt
  have := (abs_le.mp h.half).2
  linarith

theorem le_of_lt (h : RoundsInt x m) {n : Nat} (hx : x < n) : m ≤ n := by
  by_contra hlt
  have hlt : (n : ℚ) + 1 ≤ m := by exact_mod_cast Nat.lt_of_not_le hlt
  have := (abs_le.mp h.half).1
  linarith

end RoundsInt

theorem roundsInt_of_dist {x : ℚ} {m d den : Nat} (hd : 0 < den) (hx : |x - m| = d / den)
    (hle : 2 * d ≤ den) (he : 2 * d = den → m % 2 = 0) : RoundsInt x m := by
  have hden : (0 : ℚ) < den := by exact_mod_cast hd
  constructor
  case half =>
    rw [hx, div_le_div_iff₀ hden two_pos, mul_comm, one_mul]
    exact_mod_cast hle
  case even =>
    intro hhalf
    rw [hx, div_eq_div_iff hden.ne' two_ne_zero, mul_comm, one_mul] at hhalf
    exact he (by exact_mod_cast hhalf)

theorem ratio_sub_div (num : Nat) {den : Nat} (hd : 0 < den) :
    (num / den : ℚ) - (num / den : Nat) = (num % den : Nat) / den := by
  have hd : (den : ℚ) ≠ 0 := by exact_mod_cast hd.ne'
  have hnum : (num : ℚ) = den * (num / den : Nat) + (num % den : Nat) := by
    exact_mod_cast (Nat.div_add_mod num den).symm
  rw [eq_div_iff hd, sub_mul, div_mul_cancel₀ _ hd]
  linarith

theorem roundsInt_divNearest (num : Nat) {den : Nat} (hd : 0 < den) :
    RoundsInt (num / den) (divNearest num den) := by
  have hsub := ratio_sub_div num hd
  have hden : (0 : ℚ) < den := by exact_mod_cast hd
  have hr : num % den < den := Nat.mod_lt num hd
  unfold divNearest
  dsimp only
  split
  case isTrue hup =>
    refine roundsInt_of_dist hd (d := den - num % den) ?_ (by omega) (by omega)
    have hle : ((num % den : Nat) : ℚ) ≤ den := by exact_mod_cast hr.le
    rw [Nat.cast_add, Nat.cast_one, ← sub_sub, hsub, ← div_self hden.ne', ← sub_div, abs_div,
      abs_of_pos hden, abs_of_nonpos (by linarith), neg_sub, Nat.cast_sub hr.le]
  case isFalse hdown =>
    refine roundsInt_of_dist hd (d := num % den) ?_ (by omega) (by omega)
    rw [hsub, abs_of_nonneg (by positivity)]

/-! ## The exponent of a ratio -/

theorem ratio_shiftLeft (num den : Nat) (n : ℤ) :
    ((num <<< (-n).toNat : Nat) : ℚ) / (den <<< n.toNat : Nat) = num / den / 2 ^ n := by
  rw [Nat.shiftLeft_eq, Nat.shiftLeft_eq, Nat.cast_mul, Nat.cast_mul, Nat.cast_pow, Nat.cast_pow,
    Nat.cast_ofNat]
  rcases le_total 0 n with hn | hn
  · obtain ⟨k, rfl⟩ := Int.eq_ofNat_of_zero_le hn
    simp [div_div]
  · obtain ⟨k, hk⟩ := Int.eq_ofNat_of_zero_le (Int.neg_nonneg_of_nonpos hn)
    obtain rfl : n = -(k : ℤ) := by omega
    rw [neg_neg, Int.toNat_natCast, Int.toNat_of_nonpos hn, pow_zero, mul_one, zpow_neg,
      zpow_natCast, div_inv_eq_mul, div_mul_eq_mul_div]

theorem roundsInt_divNearest_shiftLeft (num : Nat) {den : Nat} (hd : 0 < den) (n : ℤ) :
    RoundsInt (num / den / 2 ^ n) (divNearest (num <<< (-n).toNat) (den <<< n.toNat)) := by
  rw [← ratio_shiftLeft]
  refine roundsInt_divNearest _ ?_
  rw [Nat.shiftLeft_eq]
  positivity

theorem ratio_between (num : Nat) {den : Nat} (hd : 0 < den) (hn : 0 < num):
    (2 : ℚ) ^ ((num.log2 : ℤ) - den.log2 - 1) ≤ num / den ∧
      (num / den : ℚ) < 2 ^ ((num.log2 : ℤ) - den.log2 + 1) := by
  have hden : (0 : ℚ) < den := by exact_mod_cast hd
  have hnlo : (2 : ℚ) ^ (num.log2 : ℤ) ≤ num := by exact_mod_cast Nat.log2_self_le hn.ne'
  have hnhi : (num : ℚ) < 2 ^ ((num.log2 : ℤ) + 1) := by exact_mod_cast Nat.lt_log2_self
  have hdlo : (2 : ℚ) ^ (den.log2 : ℤ) ≤ den := by exact_mod_cast Nat.log2_self_le hd.ne'
  have hdhi : (den : ℚ) < 2 ^ ((den.log2 : ℤ) + 1) := by exact_mod_cast Nat.lt_log2_self
  constructor
  · rw [le_div_iff₀ hden]
    calc (2 : ℚ) ^ ((num.log2 : ℤ) - den.log2 - 1) * den
        ≤ 2 ^ ((num.log2 : ℤ) - den.log2 - 1) * 2 ^ ((den.log2 : ℤ) + 1) := by gcongr
      _ = 2 ^ (num.log2 : ℤ) := by rw [← zpow_add₀ two_ne_zero]; congr 1; ring
      _ ≤ num := hnlo
  · rw [div_lt_iff₀ hden]
    calc (num : ℚ) < 2 ^ ((num.log2 : ℤ) + 1) := hnhi
      _ = 2 ^ ((num.log2 : ℤ) - den.log2 + 1) * 2 ^ (den.log2 : ℤ) := by
          rw [← zpow_add₀ two_ne_zero]; congr 1; ring
      _ ≤ 2 ^ ((num.log2 : ℤ) - den.log2 + 1) * den := by gcongr

theorem floorLog2_spec {num den : Nat} (hn : 0 < num) (hd : 0 < den) :
    (2 : ℚ) ^ floorLog2 num den ≤ num / den ∧ (num / den : ℚ) < 2 ^ (floorLog2 num den + 1) := by
  obtain ⟨hlo, hhi⟩ := ratio_between num hd hn
  unfold floorLog2
  dsimp only
  generalize (num.log2 : ℤ) - den.log2 = n at *
  have hiff : den <<< n.toNat ≤ num <<< (-n).toNat ↔ (2 : ℚ) ^ n ≤ num / den := by
    have hden : (0 : ℚ) < (den <<< n.toNat : Nat) := by
      rw [Nat.shiftLeft_eq]
      positivity
    have hpow : (0 : ℚ) < 2 ^ n := zpow_pos two_pos n
    rw [← one_le_div hpow, ← ratio_shiftLeft, one_le_div hden, Nat.cast_le]
  split
  case isTrue h => exact ⟨hiff.mp h, hhi⟩
  case isFalse h =>
    rw [hiff, not_le] at h
    exact ⟨hlo, by rwa [sub_add_cancel]⟩

/-! ## Words in place -/

namespace Format

variable {F : Format} {k m f : Nat}

theorem infinity_eq : F.infinity = (2 ^ F.exponentBits - 1) * 2 ^ F.fractionBits := by
  rw [infinity, Nat.shiftLeft_eq, Nat.shiftLeft_eq, one_mul]

theorem le_infinity_iff (h : f < 2 ^ F.fractionBits) :
    k * 2 ^ F.fractionBits + f ≤ F.infinity ↔
      k < 2 ^ F.exponentBits - 1 ∨ k = 2 ^ F.exponentBits - 1 ∧ f = 0 := by
  rw [infinity_eq]
  rcases lt_trichotomy k (2 ^ F.exponentBits - 1) with hk | rfl | hk
  · have := Nat.mul_le_mul_right (2 ^ F.fractionBits) (Nat.succ_le_of_lt hk)
    rw [Nat.succ_mul] at this
    simp only [hk, true_or, iff_true]
    omega
  · simp
  · have := Nat.mul_le_mul_right (2 ^ F.fractionBits) (Nat.succ_le_of_lt hk)
    rw [Nat.succ_mul] at this
    have : 0 < 2 ^ F.fractionBits := by positivity
    omega

theorem decode_eq (h : f < 2 ^ F.fractionBits) (hk : k < 2 ^ F.exponentBits) :
    F.decode (k * 2 ^ F.fractionBits + f)
      = if k = 2 ^ F.exponentBits - 1 then
          if f = 0 then .infinite false else .nan
        else if k = 0 then .finite false f F.least
        else .finite false (2 ^ F.fractionBits + f) (F.least + (k - 1 : Nat)) := by
  have hp : 0 < 2 ^ F.fractionBits := by positivity
  have hdiv : (k * 2 ^ F.fractionBits + f) / 2 ^ F.fractionBits = k := by
    rw [Nat.add_comm, Nat.add_mul_div_right _ _ hp, Nat.div_eq_of_lt h, Nat.zero_add]
  have hmod : (k * 2 ^ F.fractionBits + f) % 2 ^ F.fractionBits = f := by
    rw [Nat.add_comm, Nat.add_mul_mod_self_right, Nat.mod_eq_of_lt h]
  have hneg : F.negative (k * 2 ^ F.fractionBits + f) = false := by
    have hlt : k * 2 ^ F.fractionBits + f < F.signBit := by
      have := Nat.mul_le_mul_right (2 ^ F.fractionBits) (Nat.succ_le_of_lt hk)
      rw [Nat.succ_mul] at this
      rw [signBit, Nat.shiftLeft_eq, one_mul, Nat.add_comm F.fractionBits, Nat.pow_add]
      omega
    rw [negative, Nat.div_eq_of_lt hlt]
    rfl
  unfold decode fraction
  simp only [Nat.shiftRight_eq_div_pow, Nat.shiftLeft_eq, one_mul, hdiv, hmod, hneg,
    Nat.mod_eq_of_lt hk]

theorem magnitude_of_lt (hF : F.Proper) (hf : f < 2 ^ F.fractionBits) :
    F.magnitude f = f * 2 ^ F.least := by
  have hk : 2 ^ 2 ≤ 2 ^ F.exponentBits := Nat.pow_le_pow_right two_pos hF.exponent
  have h := decode_eq (F := F) (k := 0) hf (by positivity)
  rw [Nat.zero_mul, Nat.zero_add, if_neg (by omega), if_pos rfl] at h
  rw [magnitude, h]

theorem magnitude_of_normal (hF : F.Proper) (hf : f < 2 ^ F.fractionBits)
    (hw : (k + 1) * 2 ^ F.fractionBits + f ≤ F.infinity) :
    F.magnitude ((k + 1) * 2 ^ F.fractionBits + f)
      = (2 ^ F.fractionBits + f : Nat) * 2 ^ (F.least + k) := by
  rcases (le_infinity_iff hf).mp hw with hk | ⟨hk, rfl⟩
  · have h := decode_eq (F := F) (k := k + 1) hf (by omega)
    rw [if_neg (by omega), if_neg (by omega), Nat.add_sub_cancel] at h
    rw [magnitude, h]
  · have h := decode_eq (F := F) (k := k + 1) hf (by omega)
    rw [if_pos hk, if_pos rfl] at h
    have hexp : (F.fractionBits : ℤ) + (F.least + k) = (2 ^ (F.exponentBits - 1) : Nat) := by
      obtain ⟨n, hn⟩ := Nat.exists_eq_add_of_le' hF.exponent
      rw [least, Nat.shiftLeft_eq, one_mul]
      rw [hn] at hk ⊢
      rw [show n + 2 - 1 = n + 1 from rfl]
      rw [show n + 2 = (n + 1) + 1 from rfl, Nat.pow_succ] at hk
      omega
    rw [magnitude, h]
    calc (2 : ℚ) ^ (1 <<< (F.exponentBits - 1))
        = 2 ^ ((2 ^ (F.exponentBits - 1) : Nat) : ℤ) := by
          rw [zpow_natCast, Nat.shiftLeft_eq, one_mul]
      _ = 2 ^ ((F.fractionBits : ℤ) + (F.least + k)) := by rw [hexp]
      _ = (2 ^ F.fractionBits + 0 : Nat) * 2 ^ (F.least + k) := by
          rw [zpow_add₀ two_ne_zero, zpow_natCast]
          push_cast
          rw [add_zero]

/-- A carry out of the fraction goes to the exponent, and the number is the same. -/
theorem magnitude_place (hF : F.Proper) (hm : m ≤ 2 ^ (F.fractionBits + 1))
    (hk : k = 0 ∨ 2 ^ F.fractionBits ≤ m) (hw : k * 2 ^ F.fractionBits + m ≤ F.infinity) :
    F.magnitude (k * 2 ^ F.fractionBits + m) = m * 2 ^ (F.least + k) := by
  rw [Nat.pow_succ] at hm
  rcases Nat.lt_or_ge m (2 ^ F.fractionBits) with hlt | hge
  · obtain rfl : k = 0 := hk.resolve_right (by omega)
    rw [Nat.zero_mul, Nat.zero_add, magnitude_of_lt hF hlt]
    simp
  · obtain ⟨f, rfl⟩ := Nat.exists_eq_add_of_le hge
    rcases Nat.lt_or_ge f (2 ^ F.fractionBits) with hlt | hge
    · have hword : k * 2 ^ F.fractionBits + (2 ^ F.fractionBits + f)
          = (k + 1) * 2 ^ F.fractionBits + f := by ring
      rw [hword] at hw ⊢
      exact magnitude_of_normal hF hlt hw
    · obtain rfl : f = 2 ^ F.fractionBits := by omega
      have hword : k * 2 ^ F.fractionBits + (2 ^ F.fractionBits + 2 ^ F.fractionBits)
          = (k + 1 + 1) * 2 ^ F.fractionBits + 0 := by ring
      rw [hword] at hw ⊢
      rw [magnitude_of_normal hF (by positivity) hw]
      push_cast
      rw [← add_assoc, zpow_add_one₀ two_ne_zero]
      ring

theorem exists_place (w : Nat) : ∃ k m, w = k * 2 ^ F.fractionBits + m ∧
    m < 2 ^ (F.fractionBits + 1) ∧ (k = 0 ∨ 2 ^ F.fractionBits ≤ m) := by
  rw [Nat.pow_succ]
  rcases Nat.lt_or_ge w (2 ^ F.fractionBits) with hlt | hge
  · exact ⟨0, w, by omega, by omega, .inl rfl⟩
  · have hp : 0 < 2 ^ F.fractionBits := by positivity
    obtain ⟨k, hk⟩ := Nat.exists_eq_add_of_le' (Nat.div_pos hge hp)
    have hlt := Nat.mod_lt w hp
    refine ⟨k, 2 ^ F.fractionBits + w % 2 ^ F.fractionBits, ?_, by omega, .inr (by omega)⟩
    calc w = w / 2 ^ F.fractionBits * 2 ^ F.fractionBits + w % 2 ^ F.fractionBits := by
          rw [Nat.mul_comm, Nat.div_add_mod]
      _ = k * 2 ^ F.fractionBits + (2 ^ F.fractionBits + w % 2 ^ F.fractionBits) := by
          rw [hk]
          ring

/-! ## The nearest word -/

theorem infinity_eq_place (hF : F.Proper) :
    F.infinity = (2 ^ F.exponentBits - 2) * 2 ^ F.fractionBits + 2 ^ F.fractionBits := by
  have hk : 2 ^ 2 ≤ 2 ^ F.exponentBits := Nat.pow_le_pow_right two_pos hF.exponent
  rw [infinity_eq, ← Nat.succ_mul]
  congr 1
  omega

theorem magnitude_infinity (hF : F.Proper) : F.magnitude F.infinity
    = (2 ^ F.fractionBits : Nat) * 2 ^ (F.least + (2 ^ F.exponentBits - 2 : Nat)) := by
  have h := infinity_eq_place hF
  conv_lhs => rw [h]
  exact magnitude_place hF (Nat.pow_le_pow_right two_pos (Nat.le_succ _)) (.inr (Nat.le_refl _))
    (Nat.le_of_eq h.symm)

/-- A place below another one holds smaller numbers. -/
theorem place_lt {k' m' : Nat} (hk : k' < k) (hm : m' < 2 ^ (F.fractionBits + 1)) :
    (m' : ℚ) * 2 ^ (F.least + k') < 2 ^ F.fractionBits * 2 ^ (F.least + k) := by
  have hm : (m' : ℚ) < 2 ^ (F.fractionBits + 1) := by exact_mod_cast hm
  calc (m' : ℚ) * 2 ^ (F.least + k') < 2 ^ (F.fractionBits + 1) * 2 ^ (F.least + k') := by gcongr
    _ = 2 ^ F.fractionBits * 2 ^ (F.least + k' + 1) := by
        rw [pow_succ, zpow_add_one₀ two_ne_zero]
        ring
    _ ≤ 2 ^ F.fractionBits * 2 ^ (F.least + k) :=
        mul_le_mul_of_nonneg_left (zpow_le_zpow_right₀ one_le_two (by omega)) (by positivity)

theorem magnitude_lt (hF : F.Proper) {w w' : Nat} (hlt : w < w') (hw : w' ≤ F.infinity) :
    F.magnitude w < F.magnitude w' := by
  obtain ⟨k, m, rfl, hm, hk⟩ := exists_place (F := F) w
  obtain ⟨k', m', rfl, hm', hk'⟩ := exists_place (F := F) w'
  rw [magnitude_place hF hm.le hk (hlt.le.trans hw), magnitude_place hF hm'.le hk' hw]
  rcases lt_trichotomy k k' with h | rfl | h
  · refine (place_lt h hm).trans_le (mul_le_mul_of_nonneg_right ?_ (zpow_pos two_pos _).le)
    exact_mod_cast hk'.resolve_left (by omega)
  · have hmm : (m : ℚ) < m' := by exact_mod_cast Nat.lt_of_add_lt_add_left hlt
    exact mul_lt_mul_of_pos_right hmm (zpow_pos two_pos _)
  · have hle := Nat.mul_le_mul_right (2 ^ F.fractionBits) (Nat.succ_le_of_lt h)
    have hge := hk.resolve_left (by omega)
    rw [Nat.succ_mul] at hle
    rw [Nat.pow_succ] at hm'
    omega

theorem magnitude_le_infinity (hF : F.Proper) {w : Nat} (hw : w ≤ F.infinity) :
    F.magnitude w ≤ F.magnitude F.infinity := by
  rcases hw.eq_or_lt with rfl | hlt
  · exact le_rfl
  · exact (magnitude_lt hF hlt le_rfl).le

section

variable {x : ℚ}

theorem abs_mul_sub_mul {u : ℚ} (hu : 0 < u) (x y : ℚ) : |x * u - y * u| = |x - y| * u := by
  rw [← sub_mul, abs_mul, abs_of_pos hu]

/-- The numbers at lower places are further away than the nearest one at the place of `x`. -/
theorem dist_lt_of_place_lt (h : RoundsInt x m) (hx : (2 : ℚ) ^ F.fractionBits ≤ x) {k' m' : Nat}
    (hk : k' < k) (hm : m' < 2 ^ (F.fractionBits + 1)) :
    |x * 2 ^ (F.least + k) - m * 2 ^ (F.least + k)|
      < |x * 2 ^ (F.least + k) - m' * 2 ^ (F.least + k')| := by
  have hu : (0 : ℚ) < 2 ^ (F.least + k) := zpow_pos two_pos _
  have hlt := place_lt hk hm
  have hnear : |x - m| ≤ x - 2 ^ F.fractionBits := by
    have := h.nearest (2 ^ F.fractionBits)
    rw [Nat.cast_pow, Nat.cast_ofNat] at this
    exact this.trans_eq (abs_of_nonneg (by linarith))
  calc |x * 2 ^ (F.least + k) - m * 2 ^ (F.least + k)|
      = |x - m| * 2 ^ (F.least + k) := abs_mul_sub_mul hu x m
    _ ≤ (x - 2 ^ F.fractionBits) * 2 ^ (F.least + k) := mul_le_mul_of_nonneg_right hnear hu.le
    _ < x * 2 ^ (F.least + k) - m' * 2 ^ (F.least + k') := by
        rw [sub_mul]
        linarith
    _ ≤ |x * 2 ^ (F.least + k) - m' * 2 ^ (F.least + k')| := le_abs_self _

theorem nearest_place (hF : F.Proper) (h : RoundsInt x m) (hx : x < 2 ^ (F.fractionBits + 1))
    (hk : k = 0 ∨ 2 ^ F.fractionBits ≤ x) (hw : k * 2 ^ F.fractionBits + m ≤ F.infinity) :
    F.Nearest (x * 2 ^ (F.least + k)) (k * 2 ^ F.fractionBits + m) := by
  have hu : (0 : ℚ) < 2 ^ (F.least + k) := zpow_pos two_pos _
  have hm : m ≤ 2 ^ (F.fractionBits + 1) := h.le_of_lt (by exact_mod_cast hx)
  have hkm : k = 0 ∨ 2 ^ F.fractionBits ≤ m :=
    hk.imp_right fun hx => h.le_of_le (by exact_mod_cast hx)
  have hval := magnitude_place hF hm hkm hw
  -- a number at a higher place is a multiple of the unit of `x`, one at a lower place is far away
  have hplace : ∀ w ≤ F.infinity, (∃ n : Nat, F.magnitude w = n * 2 ^ (F.least + k)) ∨
      |x * 2 ^ (F.least + k) - F.magnitude (k * 2 ^ F.fractionBits + m)|
        < |x * 2 ^ (F.least + k) - F.magnitude w| := by
    intro w hle
    obtain ⟨k', m', rfl, hm', hk'⟩ := exists_place (F := F) w
    rw [magnitude_place hF hm'.le hk' hle, hval]
    rcases Nat.lt_or_ge k' k with hlt | hge
    · exact .inr (dist_lt_of_place_lt h (hk.resolve_left (by omega)) hlt hm')
    · obtain ⟨j, rfl⟩ := Nat.exists_eq_add_of_le hge
      refine .inl ⟨m' * 2 ^ j, ?_⟩
      rw [Nat.cast_add, ← add_assoc, zpow_add₀ two_ne_zero, zpow_natCast]
      push_cast
      ring
  constructor
  case le => exact hw
  case nearest =>
    intro w hle
    rcases hplace w hle with ⟨n, hn⟩ | hlt
    · rw [hval, hn, abs_mul_sub_mul hu, abs_mul_sub_mul hu]
      exact mul_le_mul_of_nonneg_right (h.nearest n) hu.le
    · exact hlt.le
  case even =>
    intro w hle hne he
    rcases hplace w hle with ⟨n, hn⟩ | hlt
    · rw [hval, hn] at hne he
      rw [abs_mul_sub_mul hu, abs_mul_sub_mul hu] at he
      have hme := h.even_of_eq (fun hnm => hne (by rw [hnm])) (mul_right_cancel₀ hu.ne' he)
      obtain ⟨p, hp⟩ := Nat.exists_eq_add_of_le' hF.fraction
      rw [hp, Nat.pow_succ, ← Nat.mul_assoc]
      omega
    · exact absurd he hlt.ne'

/-- What is not below the infinite word is rounded to it. -/
theorem nearest_infinity (hF : F.Proper) {q : ℚ} (hq : F.magnitude F.infinity ≤ q) :
    F.Nearest q F.infinity where
  le := Nat.le_refl _
  nearest w hw := by
    have hle := magnitude_le_infinity hF hw
    rw [abs_of_nonneg (by linarith), abs_of_nonneg (by linarith)]
    linarith
  even _ _ _ _ := by
    obtain ⟨p, hp⟩ := Nat.exists_eq_add_of_le' hF.fraction
    rw [infinity_eq, hp, Nat.pow_succ, ← Nat.mul_assoc]
    exact Nat.mul_mod_left _ _

theorem nearest_min_place (hF : F.Proper) (h : RoundsInt x m) (hx : x < 2 ^ (F.fractionBits + 1))
    (hk : k = 0 ∨ 2 ^ F.fractionBits ≤ x) : F.Nearest (x * 2 ^ (F.least + k))
      (min F.infinity (k * 2 ^ F.fractionBits + m)) := by
  rcases Nat.le_total (k * 2 ^ F.fractionBits + m) F.infinity with hw | hw
  · rw [Nat.min_eq_right hw]
    exact nearest_place hF h hx hk hw
  · rw [Nat.min_eq_left hw]
    rcases hw.eq_or_lt with he | hlt
    · rw [he]
      exact nearest_place hF h hx hk he.ge
    · refine nearest_infinity hF ?_
      have hm : m ≤ 2 ^ (F.fractionBits + 1) := h.le_of_lt (by exact_mod_cast hx)
      have hfour : 2 ^ 2 ≤ 2 ^ F.exponentBits := Nat.pow_le_pow_right two_pos hF.exponent
      have hge : 2 ^ F.exponentBits - 2 ≤ k := by
        by_contra hlt'
        have := Nat.mul_le_mul_right (2 ^ F.fractionBits) (Nat.lt_of_not_le hlt')
        rw [Nat.succ_mul] at this
        rw [infinity_eq_place hF] at hlt
        rw [Nat.pow_succ] at hm
        omega
      have hx := hk.resolve_left (by omega)
      rw [magnitude_infinity hF, Nat.cast_pow, Nat.cast_ofNat]
      exact mul_le_mul hx (zpow_le_zpow_right₀ one_le_two (by omega)) (by positivity)
        (le_trans (by positivity) hx)

end

theorem nearest_nearest (hF : F.Proper) (num : Nat) {den : Nat} (hd : 0 < den) :
    F.Nearest (num / den) (F.nearest num den) := by
  unfold nearest
  split
  case isTrue h =>
    subst h
    have hzero : F.magnitude 0 = 0 := by
      have h := magnitude_of_lt (f := 0) hF (by positivity)
      rwa [Nat.cast_zero, zero_mul] at h
    refine ⟨Nat.zero_le _, fun w _ => ?_, fun _ _ _ _ => rfl⟩
    rw [hzero, Nat.cast_zero, zero_div, sub_zero, abs_zero]
    exact abs_nonneg _
  case isFalse h =>
    obtain ⟨hlo, hhi⟩ := floorLog2_spec (Nat.pos_of_ne_zero h) hd
    dsimp only
    obtain ⟨k, hk⟩ := Int.le.dest (le_max_left F.least (floorLog2 num den - F.fractionBits))
    rw [← hk, Nat.shiftLeft_eq, add_sub_cancel_left, Int.toNat_natCast]
    have hround := roundsInt_divNearest_shiftLeft num hd (F.least + k)
    have hu : (0 : ℚ) < 2 ^ (F.least + (k : ℤ)) := zpow_pos two_pos _
    have hnear := nearest_min_place (k := k) hF hround ?below ?normal
    case below =>
      rw [div_lt_iff₀ hu, ← zpow_natCast, ← zpow_add₀ two_ne_zero]
      refine hhi.trans_le (zpow_le_zpow_right₀ one_le_two ?_)
      push_cast
      omega
    case normal =>
      rw [le_div_iff₀ hu, ← zpow_natCast, ← zpow_add₀ two_ne_zero]
      refine (Nat.eq_zero_or_pos k).imp_right fun hpos => ?_
      refine le_trans (zpow_le_zpow_right₀ one_le_two ?_) hlo
      omega
    rwa [div_mul_cancel₀ _ hu.ne'] at hnear

/-! ## One nearest word -/

theorem Nearest.not_lt (hF : F.Proper) {q : ℚ} {w w' : Nat} (h : F.Nearest q w)
    (h' : F.Nearest q w') : ¬w < w' := by
  intro hlt
  have hab := magnitude_lt hF hlt h'.le
  have he : |q - F.magnitude w'| = |q - F.magnitude w| :=
    le_antisymm (h'.nearest w h.le) (h.nearest w' h'.le)
  -- both words are even, and the odd one between them is nearer
  have hw := h.even w' h'.le hab.ne' he
  have hw' := h'.even w h.le hab.ne he.symm
  have hle := h'.le
  have hac := magnitude_lt hF (Nat.lt_succ_self w) (by omega : w + 1 ≤ F.infinity)
  have hcb := magnitude_lt hF (by omega : w + 1 < w') hle
  have hmid : q - F.magnitude w = F.magnitude w' - q := by
    rcases abs_eq_abs.mp he with he | he <;> linarith
  refine (h.nearest (w + 1) (by omega)).not_gt ?_
  rw [abs_of_nonneg (by linarith : 0 ≤ q - F.magnitude w)]
  exact abs_lt.mpr ⟨by linarith, by linarith⟩

/-- The word that is computed is the only one that is nearest. -/
theorem nearest_iff (hF : F.Proper) (num : Nat) {den w : Nat} (hd : 0 < den) :
    F.Nearest (num / den) w ↔ w = F.nearest num den := by
  have h := nearest_nearest hF num hd
  constructor
  · intro hw
    exact Nat.le_antisymm (Nat.le_of_not_lt (h.not_lt hF hw)) (Nat.le_of_not_lt (hw.not_lt hF h))
  · rintro rfl
    exact h

/-! ## Signs -/

section

variable {word : Nat} {s : Bool}

theorem negative_withSign (s : Bool) (h : word < F.signBit) :
    F.negative (F.withSign s word) = s := by
  have hpos : 0 < F.signBit := Nat.zero_lt_of_lt h
  cases s with
  | false => simp [negative, withSign, Nat.div_eq_of_lt h]
  | true => simp [negative, withSign, Nat.add_div_right word hpos, Nat.div_eq_of_lt h]

theorem withSign_mod (s : Bool) (h : word < F.signBit) :
    F.withSign s word % F.signBit = word := by
  cases s with
  | false => exact Nat.mod_eq_of_lt h
  | true => rw [withSign, if_pos rfl, Nat.add_mod_right, Nat.mod_eq_of_lt h]

theorem withSign_lt (s : Bool) (h : word < F.signBit) :
    F.withSign s word < 2 * F.signBit := by
  cases s with
  | false => exact Nat.lt_trans h (by omega)
  | true =>
      rw [withSign, if_pos rfl]
      omega

theorem eq_negative_of_infinite (h : F.decode word = .infinite s) :
    F.negative word = s := by
  unfold decode at h
  grind

/-- The sign of a word has no part in what else it denotes. -/
theorem decode_withSign (s : Bool) (h : word < F.signBit) :
    F.decode (F.withSign s word) = match F.decode word with
      | .nan => .nan
      | .infinite _ => .infinite s
      | .finite _ m e => .finite s m e := by
  have hneg := negative_withSign s h
  have hp : 0 < 2 ^ F.fractionBits := by positivity
  have hbit : F.signBit = 2 ^ F.exponentBits * 2 ^ F.fractionBits := by
    rw [signBit, Nat.shiftLeft_eq, one_mul, Nat.add_comm, Nat.pow_add]
  have hfield : F.withSign s word / 2 ^ F.fractionBits % 2 ^ F.exponentBits
      = word / 2 ^ F.fractionBits % 2 ^ F.exponentBits := by
    cases s with
    | false => rfl
    | true => rw [withSign, if_pos rfl, hbit, Nat.add_mul_div_right _ _ hp, Nat.add_mod_right]
  have hfraction : F.withSign s word % 2 ^ F.fractionBits = word % 2 ^ F.fractionBits := by
    cases s with
    | false => rfl
    | true => rw [withSign, if_pos rfl, hbit, Nat.add_mul_mod_self_right]
  unfold decode fraction
  simp only [Nat.shiftRight_eq_div_pow, Nat.shiftLeft_eq, one_mul, hneg, hfield, hfraction]
  split
  · split <;> rfl
  · split <;> rfl

end

theorem infinity_lt_signBit : F.infinity < F.signBit := by
  rw [infinity_eq, signBit, Nat.shiftLeft_eq, one_mul, Nat.add_comm, Nat.pow_add]
  exact Nat.mul_lt_mul_of_pos_right (Nat.sub_lt (by positivity) Nat.one_pos) (by positivity)

end Format

/-! ## Narrowing -/

/-- The highest bit of a payload is set, and it stays a payload. -/
theorem exists_quiet {payload : Nat} (h : payload < 2 ^ 23) : ∃ f < 2 ^ 23, 0 < f ∧
    (if payload / 2 ^ 22 % 2 = 1 then payload else payload + 2 ^ 22) = f := by
  split
  · exact ⟨payload, h, by omega, rfl⟩
  · exact ⟨payload + 2 ^ 22, by omega, by omega, rfl⟩

/-- What is converted is the word without its sign. -/
theorem exists_convert (word : Nat) : ∃ w < single.signBit,
    convert double single word = single.withSign (double.negative word) w ∧
      match double.decode word with
      | .nan => single.decode w = .nan
      | .infinite _ => single.decode w = .infinite false
      | .finite _ m e => ∀ w', single.Nearest (m * 2 ^ e) w' ↔ w' = w := by
  unfold convert
  cases hd : double.decode word with
  | nan =>
      have hpayload : double.fraction word >>> (double.fractionBits - single.fractionBits)
          < 2 ^ 23 := by
        have : double.fraction word < 2 ^ 52 := Nat.mod_lt _ (by decide)
        rw [Nat.shiftRight_eq_div_pow, Nat.div_lt_iff_lt_mul (by decide)]
        exact this
      obtain ⟨f, hf, hpos, he⟩ := exists_quiet hpayload
      have hdecode := Format.decode_eq (F := single) (k := 255) hf (by decide)
      rw [if_pos (by decide), if_neg hpos.ne'] at hdecode
      refine ⟨single.infinity + f, ?_, ?_, hdecode⟩
      · have : single.infinity + 2 ^ 23 = single.signBit := rfl
        omega
      · rw [← he]
        rfl
  | infinite s => exact ⟨single.infinity, Format.infinity_lt_signBit, rfl, rfl⟩
  | finite s m e =>
      have hden : 0 < 1 <<< (-e).toNat := by
        rw [Nat.shiftLeft_eq]
        positivity
      have hratio := ratio_shiftLeft m 1 (-e)
      rw [neg_neg, Nat.cast_one, div_one, zpow_neg, div_inv_eq_mul] at hratio
      have hnear := Format.nearest_nearest proper_single (m <<< e.toNat) hden
      refine ⟨_, hnear.le.trans_lt Format.infinity_lt_signBit, rfl, fun w' => ?_⟩
      have hiff := Format.nearest_iff (w := w') proper_single (m <<< e.toNat) hden
      rwa [hratio] at hiff

/-- Narrowing keeps the sign and rounds to the nearest number, and to the even one of two. -/
theorem rounds_narrow (x : Binary64) : Binary32.Rounds x x.narrow := by
  obtain ⟨w, hw, hconvert, hcase⟩ := exists_convert x.bits.toNat
  have hbits : x.narrow.bits.toNat = single.withSign (double.negative x.bits.toNat) w := by
    rw [Binary64.narrow, hconvert]
    exact UInt32.toNat_ofNat_of_lt' (Format.withSign_lt _ hw)
  have hdatum : x.narrow.datum = _ := congrArg single.decode hbits |>.trans
    (Format.decode_withSign _ hw)
  constructor
  case sign => rw [hbits, Format.negative_withSign _ hw]
  case nan =>
    intro hx
    rw [Binary64.datum] at hx
    rw [hx] at hcase
    rw [hdatum, hcase]
  case infinite =>
    intro s hx
    rw [Binary64.datum] at hx
    rw [hx] at hcase
    rw [hdatum, hcase, Format.eq_negative_of_infinite hx]
  case finite =>
    intro s m e hx
    rw [Binary64.datum] at hx
    rw [hx] at hcase
    rwa [hbits, Format.withSign_mod _ hw]

end WasmLowering.Numeral
