/-! Numbers in groups of seven bits, the lowest first; every byte but the last has its top bit
set. -/
namespace WasmLowering.Leb

/-- The bits of a byte that belong to the number. -/
def payload (b : UInt8) : Nat := b.toNat % 128

def continues (b : UInt8) : Bool := 128 ≤ b.toNat

def value : List UInt8 → Nat
  | [] => 0
  | b :: bs => payload b + 128 * value bs

/-- Bit 6 of the last byte is the sign. -/
def signedValue (bs : List UInt8) : Int :=
  if bs.getLast?.any (fun b => 64 ≤ payload b) then (value bs : Int) - (1 <<< (7 * bs.length) : Nat)
  else value bs

/-! ## Writing -/

def unsigned (n : Nat) : List UInt8 :=
  if n < 128 then [UInt8.ofNat n] else UInt8.ofNat (n % 128 + 128) :: unsigned (n / 128)
termination_by n
decreasing_by omega

def signed (v : Int) : List UInt8 :=
  if -64 ≤ v ∧ v < 64 then [UInt8.ofNat (v % 128).toNat]
  else UInt8.ofNat ((v % 128).toNat + 128) :: signed (v / 128)
termination_by v.natAbs
decreasing_by omega

/-- Exactly `width` bytes, with groups of zeros at the end where `n` is short. -/
def padded : (width : Nat) → (n : Nat) → List UInt8
  | 0, _ => []
  | 1, n => [UInt8.ofNat (n % 128)]
  | w + 2, n => UInt8.ofNat (n % 128 + 128) :: padded (w + 1) (n / 128)

@[simp] theorem length_padded (width n : Nat) : (padded width n).length = width := by
  fun_induction padded width n with
  | case1 => rfl
  | case2 => rfl
  | case3 w n ih => simp [ih]

/-! ## Reading -/

inductive Cut where
  | truncated
  | tooLong
deriving DecidableEq, Repr

/-- The bytes of the number that stands first, at most `limit` of them, and what follows. -/
def split : (limit : Nat) → List UInt8 → Except Cut (List UInt8 × List UInt8)
  | 0, _ => .error .tooLong
  | _ + 1, [] => .error .truncated
  | n + 1, b :: bs =>
    if continues b then (split n bs).map fun (group, rest) => (b :: group, rest)
    else .ok ([b], bs)

/-- What is split off is the front of the input, and it is not empty. -/
theorem append_of_split {limit bs group rest} (h : split limit bs = .ok (group, rest)) :
    bs = group ++ rest ∧ group ≠ [] := by
  fun_induction split limit bs generalizing group rest with
  | case1 => cases h
  | case2 => cases h
  | case3 n b bs _ ih =>
    cases hs : split n bs with
    | error e => simp [hs, Except.map] at h
    | ok p =>
      obtain ⟨g, r⟩ := p
      simp only [hs, Except.map, Except.ok.injEq, Prod.mk.injEq] at h
      obtain ⟨rfl, rfl⟩ := h
      simp [(ih hs).1]
  | case4 => simp only [Except.ok.injEq, Prod.mk.injEq] at h; simp [← h.1, ← h.2]

end WasmLowering.Leb
