/-! Ranges of integers of a fixed width. -/
namespace WasmLowering.Numeral

/-- The integers of `bits` bits, in two's complement or without a sign. -/
def InRange (signed : Bool) (bits : Nat) (v : Int) : Prop :=
  if signed then -(1 <<< (bits - 1) : Nat) ≤ v ∧ v < (1 <<< (bits - 1) : Nat)
  else 0 ≤ v ∧ v < (1 <<< bits : Nat)

instance (signed : Bool) (bits : Nat) (v : Int) : Decidable (InRange signed bits v) := by
  unfold InRange; infer_instance

end WasmLowering.Numeral
