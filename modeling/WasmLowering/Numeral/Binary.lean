/-! Binary floating formats: what the bits of a word denote, and the word nearest to a ratio. -/
namespace WasmLowering.Numeral

/-- A format with one sign bit, `exponentBits` of exponent and `fractionBits` after a hidden leading
bit. -/
structure Format where
  fractionBits : Nat
  exponentBits : Nat

def single : Format := ⟨23, 8⟩

def double : Format := ⟨52, 11⟩

/-- What a word denotes; a finite one is `significand * 2 ^ exponent` up to its sign. -/
inductive Datum where
  | nan
  | infinite (negative : Bool)
  | finite (negative : Bool) (significand : Nat) (exponent : Int)
deriving DecidableEq, Repr

/-- The largest `n` with `2 ^ n ≤ num / den`, for positive arguments. -/
def floorLog2 (num den : Nat) : Int :=
  let n : Int := (num.log2 : Int) - den.log2
  if den <<< n.toNat ≤ num <<< (-n).toNat then n else n - 1

/-- Division rounded to the nearest integer, a half to the even one. -/
def divNearest (num den : Nat) : Nat :=
  let q := num / den
  let r := num % den
  if den < 2 * r ∨ (2 * r = den ∧ q % 2 = 1) then q + 1 else q

namespace Format

variable (F : Format)

/-- Exponent of the unit in which the smallest numbers are counted. -/
def least : Int := 2 - (1 <<< (F.exponentBits - 1) : Nat) - F.fractionBits

def signBit : Nat := 1 <<< (F.fractionBits + F.exponentBits)

def infinity : Nat := (1 <<< F.exponentBits - 1) <<< F.fractionBits

def negative (word : Nat) : Bool := word / F.signBit % 2 == 1

def fraction (word : Nat) : Nat := word % (1 <<< F.fractionBits)

def decode (word : Nat) : Datum :=
  let field := (word >>> F.fractionBits) % (1 <<< F.exponentBits)
  if field = 1 <<< F.exponentBits - 1 then
    if F.fraction word = 0 then .infinite (F.negative word) else .nan
  else if field = 0 then .finite (F.negative word) (F.fraction word) F.least
  else
    .finite (F.negative word) (1 <<< F.fractionBits + F.fraction word) (F.least + (field - 1 : Nat))

/-- The word of the positive number nearest to `num / den`, a half going to the even word.
From half a unit above the largest number on it is the infinite one. -/
def nearest (num den : Nat) : Nat :=
  if num = 0 then 0 else
  let e := max F.least (floorLog2 num den - F.fractionBits)
  let m := divNearest (num <<< (-e).toNat) (den <<< e.toNat)
  min F.infinity ((e - F.least).toNat <<< F.fractionBits + m)

def withSign (negative : Bool) (word : Nat) : Nat :=
  if negative then word + F.signBit else word

end Format

/-- The nearest word of format `G`. A NaN keeps its sign and the upper bits of its payload and
becomes quiet. -/
def convert (F G : Format) (word : Nat) : Nat :=
  G.withSign (F.negative word) <|
    match F.decode word with
    | .nan =>
      let payload := F.fraction word >>> (F.fractionBits - G.fractionBits)
      let quiet := 1 <<< (G.fractionBits - 1)
      G.infinity + (if payload / quiet % 2 = 1 then payload else payload + quiet)
    | .infinite _ => G.infinity
    | .finite _ m e => G.nearest (m <<< e.toNat) (1 <<< (-e).toNat)

structure Binary32 where
  bits : UInt32
deriving DecidableEq, Inhabited, Repr

structure Binary64 where
  bits : UInt64
deriving DecidableEq, Inhabited, Repr

def Binary32.datum (x : Binary32) : Datum := single.decode x.bits.toNat

namespace Binary64

def datum (x : Binary64) : Datum := double.decode x.bits.toNat

def narrow (x : Binary64) : Binary32 := ⟨UInt32.ofNat (convert double single x.bits.toNat)⟩

def ofRatio (negative : Bool) (num den : Nat) : Binary64 :=
  ⟨UInt64.ofNat (double.withSign negative (double.nearest num den))⟩

def ofInt (v : Int) : Binary64 := ofRatio (v < 0) v.natAbs 1

end Binary64

end WasmLowering.Numeral
