import Mathlib.Data.Int.ModEq
import WasmLowering.Proofs.Acceptance
import WasmLowering.Proofs.Reader
import WasmLowering.Proofs.Rounding

/-!
# Literals in a sink

A literal that fits its type is appended to a sink as one operation, and that is read back with the
value of the literal. A literal that does not fit leaves the sink as it was.
-/

namespace WasmLowering

open Numeral (Binary32 Binary64 InRange)

/-- What the sink holds in the end, and how the computation ends. -/
def Emission.into {α : Type} (m : Emission α) (sink : List UInt8) : List UInt8 × Except Stop α :=
  (sink ++ m.ops.flatMap Op.bytes, m.result)

/-- The signed integer `v` has the bits of `n`, which has a width and may lack a sign. -/
structure Numeral.SameBits (signed : Bool) (bits : Nat) (n v : Int) : Prop where
  range : InRange signed bits n
  congruent : v ≡ n [ZMOD 2 ^ bits]
  exact : signed = true → v = n

/-- The operation pushes the literal at its type. -/
def Op.Pushes (o : Op) (l : Literal) (ty : Ty) : Prop :=
  match o with
  | i32Const v => ty.valType? = some .i32 ∧
      ∃ n, l.integer? = some n ∧ Numeral.SameBits ty.isSignedInt 32 n v.toInt
  | i64Const v => ty.valType? = some .i64 ∧
      ∃ n, l.integer? = some n ∧ Numeral.SameBits ty.isSignedInt 64 n v.toInt
  | f32Const y => ty.valType? = some .f32 ∧ ∃ x, l = .float x ∧ y = x.narrow ∧ y.Rounds x
  | f64Const x => ty.valType? = some .f64 ∧ l = .float x
  | _ => False

/-- Why a literal cannot be pushed. -/
def Literal.refusal (l : Literal) (ty : Ty) : Cause :=
  match ty.valType? with
  | none => .constantType ty
  | some _ => .constantRange l ty

/-- What a constant does to a sink: at a type other than `void` the sink grows by one operation if
the literal fits, and else it stays. At `noReturn` no literal fits. -/
structure Inst.Appends (inst : Inst) (l : Literal) (sink : List UInt8) : Prop where
  void : inst.ty = .void → inst.emitConstant.into sink = (sink, .ok ())
  succeeds : inst.ty ≠ .void → ((inst.emitConstant.into sink).2 = .ok () ↔ l.Fits inst.ty)
  appended : inst.ty ≠ .void → (inst.emitConstant.into sink).2 = .ok () → ∃ o bs,
    (inst.emitConstant.into sink).1 = sink ++ bs ∧ o.Pushes l inst.ty ∧
      ∀ relocs pos, Cursor.Reads relocs pos o bs
  failed : (inst.emitConstant.into sink).2 ≠ .ok () → inst.emitConstant.into sink
    = (sink, .error (.failed ⟨inst.span, l.refusal inst.ty⟩))

theorem Numeral.sameBits_bmod {signed : Bool} {bits : Nat} {n : Int} (hb : 0 < bits)
    (h : InRange signed bits n) : SameBits signed bits n (n.bmod (2 ^ bits)) where
  range := h
  congruent := by
    have hmod : n.bmod (2 ^ bits) % (2 ^ bits : Nat) = n % (2 ^ bits : Nat) := Int.bmod_emod
    exact_mod_cast hmod
  exact hs := by
    obtain ⟨k, rfl⟩ := Nat.exists_eq_add_of_le' hb
    simp only [InRange, hs, if_true, Nat.add_sub_cancel, Nat.shiftLeft_eq, Nat.one_mul] at h
    refine Int.bmod_eq_of_le ?_ ?_ <;> rw [Nat.pow_succ] <;> omega

/-- Both numbers have the same lowest bits. -/
theorem Numeral.SameBits.bmod_eq {signed : Bool} {bits : Nat} {n v : Int}
    (h : SameBits signed bits n v) : n.bmod (2 ^ bits) = v.bmod (2 ^ bits) := by
  have hmod : n % (2 ^ bits : Nat) = v % (2 ^ bits : Nat) := by exact_mod_cast h.congruent.symm
  rw [Int.bmod_def, Int.bmod_def, hmod]

theorem Op.Pushes.ne_void {o : Op} {l : Literal} {ty : Ty} (h : o.Pushes l ty) : ty ≠ .void := by
  rintro rfl
  cases o <;> simp [Pushes, Ty.valType?] at h

namespace Literal

variable {l : Literal} {ty : Ty}

theorem integerIn?_eq_some {signed : Bool} {bits : Nat} {n : Int} (hn : l.integer? = some n)
    (hr : InRange signed bits n) : l.integerIn? signed bits = some n :=
  Option.filter_eq_some_iff.mpr ⟨hn, by simpa using hr⟩

/-- A literal that fits becomes one operation. -/
theorem exists_pushes (hv : ty ≠ .void) (h : l.Fits ty) :
    ∃ o : Op, l.ops ty = .ok [o] ∧ o.Pushes l ty ∧ o.Encodable ∧ o.isCall = false := by
  have h := h.resolve_left hv
  unfold Literal.ops
  cases ht : ty.valType? with
  | none => simp [ht] at h
  | some t =>
      simp only [ht] at h
      cases t with
      | i32 =>
          obtain ⟨n, hn, hr⟩ := h
          have hin := integerIn?_eq_some hn hr
          refine ⟨.i32Const (.ofInt n), by simp [hin], ⟨ht, n, hn, ?_⟩, trivial, rfl⟩
          rw [Int32.toInt_ofInt]
          exact Numeral.sameBits_bmod (by decide) hr
      | i64 =>
          obtain ⟨n, hn, hr⟩ := h
          have hin := integerIn?_eq_some hn hr
          refine ⟨.i64Const (.ofInt n), by simp [hin], ⟨ht, n, hn, ?_⟩, trivial, rfl⟩
          rw [Int64.toInt_ofInt]
          exact Numeral.sameBits_bmod (by decide) hr
      | f32 =>
          obtain ⟨x, rfl⟩ := h
          exact ⟨.f32Const x.narrow, by simp [single?, float?],
            ⟨ht, x, rfl, rfl, Numeral.rounds_narrow x⟩, trivial, rfl⟩
      | f64 =>
          obtain ⟨x, rfl⟩ := h
          exact ⟨.f64Const x, by simp [float?], ⟨ht, rfl⟩, trivial, rfl⟩

/-- A literal becomes the only operation that pushes it. -/
theorem ops_of_pushes {o : Op} (h : o.Pushes l ty) : l.ops ty = .ok [o] := by
  have hv := h.ne_void
  cases o with
  | i32Const v =>
      obtain ⟨ht, n, hn, hb⟩ := h
      have hin := integerIn?_eq_some hn hb.range
      have ho : Int32.ofInt n = v :=
        (Int32.ofInt_eq_iff_bmod_eq_toInt n v).mpr (hb.bmod_eq.trans v.toInt_bmod)
      simp [Literal.ops, ht, hin, ho]
  | i64Const v =>
      obtain ⟨ht, n, hn, hb⟩ := h
      have hin := integerIn?_eq_some hn hb.range
      have ho : Int64.ofInt n = v :=
        (Int64.ofInt_eq_iff_bmod_eq_toInt n v).mpr (hb.bmod_eq.trans v.toInt_bmod)
      simp [Literal.ops, ht, hin, ho]
  | f32Const y =>
      obtain ⟨ht, x, rfl, rfl, -⟩ := h
      simp [Literal.ops, ht, single?, float?]
  | f64Const x =>
      obtain ⟨ht, rfl⟩ := h
      simp [Literal.ops, ht, float?]
  | _ => cases h

theorem ops_eq_error (h : ¬l.Fits ty) : l.ops ty = .error (l.refusal ty) := by
  have hv : ty ≠ .void := fun hv => h (.inl hv)
  have hn : ∀ os, l.ops ty ≠ .ok os := fun os hos => h (fits_iff.mpr ⟨os, hos⟩)
  unfold Literal.ops at hn ⊢
  unfold refusal
  cases ht : ty.valType? with
  | none => simp
  | some t =>
      simp only [ht] at hn ⊢
      split
      · next o ho => exact absurd (by rw [ho]) (hn [o])
      · rfl

end Literal

namespace Inst

variable {inst : Inst} {l : Literal}

theorem emitConstant_eq (hk : inst.kind = .constant l) :
    inst.emitConstant = match l.ops inst.ty with
      | .ok os => ⟨os, [], .ok ()⟩
      | .error c => .fail ⟨inst.span, c⟩ := by
  unfold emitConstant
  rw [hk]
  rfl

theorem into_of_pushes {o : Op} (hk : inst.kind = .constant l) (h : o.Pushes l inst.ty)
    (sink : List UInt8) : inst.emitConstant.into sink = (sink ++ o.bytes, .ok ()) := by
  simp [emitConstant_eq hk, Literal.ops_of_pushes h, Emission.into]

/-- What becomes of a sink hangs on whether the literal fits. -/
theorem into_emitConstant (hk : inst.kind = .constant l) (sink : List UInt8) :
    (inst.ty = .void ∧ inst.emitConstant.into sink = (sink, .ok ())) ∨
    (inst.ty ≠ .void ∧ l.Fits inst.ty ∧ ∃ o : Op, o.Pushes l inst.ty ∧ o.Encodable ∧
      o.isCall = false ∧ inst.emitConstant.into sink = (sink ++ o.bytes, .ok ())) ∨
    (inst.ty ≠ .void ∧ ¬l.Fits inst.ty ∧ inst.emitConstant.into sink
      = (sink, .error (.failed ⟨inst.span, l.refusal inst.ty⟩))) := by
  rw [emitConstant_eq hk]
  by_cases hv : inst.ty = .void
  · have hops : l.ops inst.ty = .ok [] := by rw [hv]; rfl
    exact .inl ⟨hv, by simp [hops, Emission.into]⟩
  · by_cases hf : l.Fits inst.ty
    · obtain ⟨o, hops, hp, he, hc⟩ := Literal.exists_pushes hv hf
      exact .inr (.inl ⟨hv, hf, o, hp, he, hc, by simp [hops, Emission.into]⟩)
    · have hops := Literal.ops_eq_error hf
      exact .inr (.inr ⟨hv, hf, by simp [hops, Emission.into, Emission.fail]⟩)

end Inst

/-- A constant is written to every sink as a whole or not at all, and what is written is read back
as the operation that pushes the literal. -/
theorem appends_constant {inst : Inst} {l : Literal} (hk : inst.kind = .constant l)
    (sink : List UInt8) : inst.Appends l sink := by
  rcases Inst.into_emitConstant hk sink with ⟨hv, he⟩ | ⟨hv, hf, o, hp, henc, hc, he⟩ | ⟨hv, hf, he⟩
  · exact ⟨fun _ => he, fun h => absurd hv h, fun h => absurd hv h, fun h => absurd (by rw [he]) h⟩
  · refine ⟨fun h => absurd h hv, fun _ => ?_, fun _ _ => ?_, fun h => absurd (by rw [he]) h⟩
    · rw [he]
      exact iff_of_true rfl hf
    · exact ⟨o, o.bytes, by rw [he], hp, fun relocs pos => Cursor.reads_bytes henc hc⟩
  · refine ⟨fun h => absurd h hv, fun _ => ?_, fun _ h => ?_, fun _ => he⟩
    · rw [he]
      exact iff_of_false nofun hf
    · rw [he] at h
      cases h

/-- The largest number of 32 bits, at the type with a sign or the one without. -/
def Inst.largest (signed : Bool) : Inst :=
  ⟨.int signed 32, .constant (.uInt 4294967295), ⟨0, 10, 12⟩⟩

theorem appends_constant_largest :
    (∃ o bs, ((Inst.largest false).emitConstant.into [0x0B]).1 = [0x0B] ++ bs ∧
      bs = [0x41, 0x7F] ∧ o.Pushes (.uInt 4294967295) (.int false 32) ∧
      ∀ relocs pos, Cursor.Reads relocs pos o bs) ∧
    (Inst.largest true).emitConstant.into [0x0B] = ([0x0B], .error
      (.failed ⟨⟨0, 10, 12⟩, .constantRange (.uInt 4294967295) (.int true 32)⟩)) := by
  have hfits : Literal.Fits (.uInt 4294967295) (.int false 32) :=
    .inr ⟨4294967295, rfl, by decide⟩
  have hunfit : ¬Literal.Fits (.uInt 4294967295) (.int true 32) := by
    rintro (hv | ⟨n, hn, hr⟩)
    · cases hv
    · obtain rfl : 4294967295 = n := Option.some.inj hn
      exact absurd hr (by decide)
  have hl : ∀ signed, (Inst.largest signed).kind = .constant (.uInt 4294967295) := fun _ => rfl
  have hv : ∀ signed, (Inst.largest signed).ty ≠ .void := fun _ => nofun
  have hok := appends_constant (hl false) [0x0B]
  have hfail := appends_constant (hl true) [0x0B]
  refine ⟨?_, hfail.failed fun h => hunfit ((hfail.succeeds (hv true)).mp h)⟩
  obtain ⟨o, bs, hbs, hp, hr⟩ := hok.appended (hv false) ((hok.succeeds (hv false)).mpr hfits)
  have hwritten : ((Inst.largest false).emitConstant.into [0x0B]).1 = [0x0B] ++ [0x41, 0x7F] := by
    decide +kernel
  obtain rfl := List.append_cancel_left (hbs.symm.trans hwritten)
  exact ⟨o, _, hbs, rfl, hp, hr⟩

end WasmLowering
