import WasmLowering.Proofs.Generation
import WasmLowering.Proofs.Reader

/-!
# The grammar of function bodies

The bytes of a body are given by a grammar that knows nothing of a reader. Every reader is shown to
take exactly what its part of the grammar spells, wherever it stands. So a body is read if and only
if the grammar spells it.
-/

namespace WasmLowering

open Numeral (Binary32 Binary64 InRange)

/-! ## The grammar -/

/-- The shortest form of a number is not asked for. -/
structure SpellsUnsigned (g : List UInt8) (n : Nat) : Prop where
  terminated : Leb.Terminated g
  short : g.length ≤ 5
  value : Leb.value g = n
  bound : n < UInt32.size

/-- Ten groups have more than 64 bits, of which the lowest 64 count. -/
structure SpellsSigned (g : List UInt8) (v : Int64) : Prop where
  terminated : Leb.Terminated g
  short : g.length ≤ 10
  value : Int64.ofInt (Leb.signedValue g) = v

/-- The bytes of an operation whose opcode stands at `pos`. A call has no index where a relocation
says that it is still missing. -/
inductive SpellsOp (relocs : List Reloc) (pos : Nat) : List UInt8 → Op → Prop where
  | localGet {g n} : SpellsUnsigned g n → SpellsOp relocs pos (0x20 :: g) (.localGet n)
  | localSet {g n} : SpellsUnsigned g n → SpellsOp relocs pos (0x21 :: g) (.localSet n)
  | i32Const {g v} {w : Int32} : SpellsSigned g v → v.toInt = w.toInt →
      SpellsOp relocs pos (0x41 :: g) (.i32Const w)
  | i64Const {g v} : SpellsSigned g v → SpellsOp relocs pos (0x42 :: g) (.i64Const v)
  | f32Const (v : Binary32) :
      SpellsOp relocs pos (0x43 :: Op.littleEndian 4 v.bits.toNat) (.f32Const v)
  | f64Const (v : Binary64) :
      SpellsOp relocs pos (0x44 :: Op.littleEndian 8 v.bits.toNat) (.f64Const v)
  | add (t : ValType) : SpellsOp relocs pos [Op.addOpcode t] (.add t)
  | callReloc {r} : (relocs.find? fun r => r.offset.toNat == pos + 1) = some r →
      SpellsOp relocs pos [0x10] (.callReloc r.target)
  | call {g n} : (∀ r ∈ relocs, r.offset.toNat ≠ pos + 1) → SpellsUnsigned g n →
      SpellsOp relocs pos (0x10 :: g) (.call n)
  | endMark : SpellsOp relocs pos [0x0B] .endMark

inductive SpellsRuns : List UInt8 → List (Nat × ValType) → Prop where
  | nil : SpellsRuns [] []
  | cons {g n gs runs} (t : ValType) : SpellsUnsigned g n → SpellsRuns gs runs →
      SpellsRuns (g ++ t.byte :: gs) ((n, t) :: runs)

/-- Operations one behind the other from `pos` on, the last of them and no other an end marker. -/
inductive SpellsOps (relocs : List Reloc) : Nat → List UInt8 → List (Nat × Op) → Prop where
  | last {pos g} : SpellsOp relocs pos g .endMark → SpellsOps relocs pos g [(pos, .endMark)]
  | cons {pos g gs o os} : SpellsOp relocs pos g o → o ≠ .endMark →
      SpellsOps relocs (pos + g.length) gs os → SpellsOps relocs pos (g ++ gs) ((pos, o) :: os)

/-- The bytes are a size, a count and as many runs of locals, and operations. -/
def DecodedBody.Spelled (relocs : List Reloc) (bytes : List UInt8) (d : DecodedBody) : Prop :=
  ∃ size count runs code, bytes = size ++ count ++ runs ++ code ∧
    SpellsUnsigned size d.size ∧ SpellsUnsigned count d.locals.length ∧
    SpellsRuns runs d.locals ∧ SpellsOps relocs (size ++ count ++ runs).length code d.ops

theorem spellsOp_call_iff {relocs : List Reloc} {pos : Nat} {g : List UInt8} {o : Op} :
    SpellsOp relocs pos (0x10 :: g) o ↔
      (∃ r, (relocs.find? fun r => r.offset.toNat == pos + 1) = some r ∧ g = [] ∧
        .callReloc r.target = o) ∨
      (relocs.find? fun r => r.offset.toNat == pos + 1) = none ∧
        ∃ n, SpellsUnsigned g n ∧ .call n = o := by
  have hnone : (relocs.find? fun r => r.offset.toNat == pos + 1) = none ↔
      ∀ r ∈ relocs, r.offset.toNat ≠ pos + 1 := by simp
  rw [hnone]
  constructor
  · intro h
    -- an addition has one of four opcodes, so the bytes have to be a variable for the case split
    generalize hb : (0x10 : UInt8) :: g = bs at h
    cases h with
    | callReloc hr => exact .inl ⟨_, hr, (List.cons.inj hb).2, rfl⟩
    | call hn hg => exact .inr ⟨hn, _, (List.cons.inj hb).2 ▸ hg, rfl⟩
    | add t => cases t <;> cases hb
    | _ => cases hb
  · rintro (⟨r, hr, rfl, rfl⟩ | ⟨hn, n, hg, rfl⟩)
    · exact .callReloc hr
    · exact .call hn hg

theorem SpellsOp.exists_opcode {relocs : List Reloc} {pos : Nat} {g : List UInt8} {o : Op}
    (h : SpellsOp relocs pos g o) : ∃ code g', g = code :: g' := by
  cases h <;> exact ⟨_, _, rfl⟩

/-! ## What readers take -/

namespace Cursor

variable {α : Type} {c c' : Cursor} {relocs : List Reloc}

/-- Between the cursors stand bytes that spell `a`. -/
def Takes (G : List UInt8 → α → Prop) (c : Cursor) (a : α) (c' : Cursor) : Prop :=
  ∃ g, G g a ∧ c.rest = g ++ c'.rest ∧ c'.pos = c.pos + g.length

theorem eq_of_rest_of_pos (hr : c.rest = c'.rest) (hp : c'.pos = c.pos) : c' = c := by
  cases c
  cases c'
  cases hr
  cases hp
  rfl

theorem group_eq_ok_iff {limit : Nat} {e : Fault} {g : List UInt8} :
    c.group limit e = .ok (g, c') ↔
      (Leb.Terminated g ∧ g.length ≤ limit) ∧ c.rest = g ++ c'.rest ∧
        c'.pos = c.pos + g.length := by
  constructor
  · intro h
    unfold group at h
    split at h
    · cases h
    · cases h
    · next hs =>
        cases h
        obtain ⟨ht, hl, hr⟩ := Leb.split_eq_ok_iff.mp hs
        exact ⟨⟨ht, hl⟩, hr, rfl⟩
  · rintro ⟨⟨ht, hl⟩, hr, hp⟩
    rw [group, hr, Leb.split_append c'.rest ht hl]
    exact congrArg (fun pos => Except.ok (g, Cursor.mk pos c'.rest)) hp.symm

theorem unsigned_eq_ok_iff {n : Nat} : c.unsigned = .ok (n, c') ↔ Takes SpellsUnsigned c n c' := by
  constructor
  · intro h
    unfold unsigned at h
    split at h
    · cases h
    · next hg =>
        obtain ⟨⟨ht, hl⟩, hr⟩ := group_eq_ok_iff.mp hg
        split at h
        · next hv =>
            cases h
            exact ⟨_, ⟨ht, hl, rfl, hv⟩, hr⟩
        · cases h
  · rintro ⟨g, hg, hr⟩
    have h := group_eq_ok_iff (e := .unsignedTooLong c.pos).mpr ⟨⟨hg.terminated, hg.short⟩, hr⟩
    simp [unsigned, h, hg.value, hg.bound]

theorem signed_eq_ok_iff {v : Int64} : c.signed = .ok (v, c') ↔ Takes SpellsSigned c v c' := by
  constructor
  · intro h
    unfold signed at h
    split at h
    · cases h
    · next hg =>
        obtain ⟨⟨ht, hl⟩, hr⟩ := group_eq_ok_iff.mp hg
        cases h
        exact ⟨_, ⟨ht, hl, rfl⟩, hr⟩
  · rintro ⟨g, hg, hr⟩
    have h := group_eq_ok_iff (e := .signedTooLong c.pos).mpr ⟨⟨hg.terminated, hg.short⟩, hr⟩
    simp [signed, h, hg.value]

theorem signed32_eq_ok_iff {w : Int32} :
    c.signed32 = .ok (w, c') ↔
      Takes (fun g w => ∃ v, SpellsSigned g v ∧ v.toInt = w.toInt) c w c' := by
  constructor
  · intro h
    unfold signed32 at h
    split at h
    · cases h
    · next v _ hs =>
        obtain ⟨g, hg, hr⟩ := signed_eq_ok_iff.mp hs
        split at h
        · next hv =>
            cases h
            simp only [InRange, if_true] at hv
            have hw : (Int32.ofInt v.toInt).toInt = v.toInt :=
              Int32.toInt_ofInt_of_le (by simpa using hv.1) (by simpa using hv.2)
            exact ⟨g, ⟨v, hg, hw.symm⟩, hr⟩
        · cases h
  · rintro ⟨g, ⟨v, hg, hv⟩, hr⟩
    have h := signed_eq_ok_iff.mpr ⟨g, hg, hr⟩
    simp [signed32, h, hv, inRange_toInt]

theorem ofLittleEndian_lt (bs : List UInt8) : ofLittleEndian bs < 256 ^ bs.length := by
  induction bs with
  | nil => decide
  | cons b bs ih =>
      have hb := b.toNat_lt
      simp only [ofLittleEndian, List.foldr_cons, List.length_cons, Nat.pow_succ] at ih ⊢
      omega

theorem littleEndian_ofLittleEndian (bs : List UInt8) :
    Op.littleEndian bs.length (ofLittleEndian bs) = bs := by
  induction bs with
  | nil => rfl
  | cons b bs ih =>
      have hb := b.toNat_lt
      have hmod : ofLittleEndian (b :: bs) % 256 = b.toNat := by
        simp only [ofLittleEndian, List.foldr_cons]
        omega
      have hdiv : ofLittleEndian (b :: bs) / 256 = ofLittleEndian bs := by
        simp only [ofLittleEndian, List.foldr_cons]
        omega
      rw [List.length_cons, Op.littleEndian, hmod, hdiv, ih, UInt8.ofNat_toNat]

theorem word_eq_ok_iff {w n : Nat} :
    c.word w = .ok (n, c') ↔
      Takes (fun g n => n < 256 ^ w ∧ g = Op.littleEndian w n) c n c' := by
  constructor
  · intro h
    unfold word take at h
    split at h
    · cases h
    · next bs _ ht =>
        cases h
        split at ht
        · next hl =>
            cases ht
            refine ⟨c.rest.take w, ⟨?_, ?_⟩, (List.take_append_drop w c.rest).symm, by simp [hl]⟩
            · simpa [hl] using ofLittleEndian_lt (c.rest.take w)
            · simpa [hl] using (littleEndian_ofLittleEndian (c.rest.take w)).symm
        · cases ht
  · rintro ⟨g, ⟨hn, rfl⟩, hr, hp⟩
    have h := word_littleEndian c.pos c'.rest hn
    rw [length_littleEndian] at hp
    rw [← hr, ← hp] at h
    exact h

theorem ofByte?_eq_some_iff {b : UInt8} {t : ValType} :
    ValType.ofByte? b = some t ↔ b = t.byte := by
  constructor
  · intro h
    unfold ValType.ofByte? at h
    split at h <;> cases h <;> rfl
  · rintro rfl
    exact ValType.ofByte?_byte t

theorem byte_eq_ok_iff {b : UInt8} : c.byte = .ok (b, c') ↔ Takes (fun g b => g = [b]) c b c' := by
  constructor
  · intro h
    unfold byte at h
    split at h
    · cases h
    · next hr =>
        cases h
        exact ⟨_, rfl, hr, rfl⟩
  · rintro ⟨g, rfl, hr, hp⟩
    rw [byte, hr]
    exact congrArg (fun pos => Except.ok (b, Cursor.mk pos c'.rest)) hp.symm

theorem valType_eq_ok_iff {t : ValType} :
    c.valType = .ok (t, c') ↔ Takes (fun g t => g = [t.byte]) c t c' := by
  constructor
  · intro h
    unfold valType at h
    split at h
    · cases h
    · next hb =>
        obtain ⟨g, rfl, hr⟩ := byte_eq_ok_iff.mp hb
        split at h
        · next ht =>
            cases h
            exact ⟨_, by rw [ofByte?_eq_some_iff.mp ht], hr⟩
        · cases h
  · rintro ⟨g, rfl, hr⟩
    have h := byte_eq_ok_iff.mpr ⟨_, rfl, hr⟩
    simp [valType, h, ValType.ofByte?_byte]

theorem localRuns_eq_ok_iff {n : Nat} {runs : List (Nat × ValType)} :
    c.localRuns n = .ok (runs, c') ↔
      Takes (fun g runs => SpellsRuns g runs ∧ runs.length = n) c runs c' := by
  induction n generalizing c runs with
  | zero =>
      constructor
      · intro h
        cases h
        exact ⟨[], ⟨.nil, rfl⟩, rfl, rfl⟩
      · rintro ⟨g, ⟨hg, hl⟩, hr, hp⟩
        cases hg with
        | nil =>
            obtain rfl := eq_of_rest_of_pos hr hp
            rfl
        | cons => cases hl
  | succ n ih =>
      simp only [localRuns, bind_eq_ok, Prod.exists]
      constructor
      · rintro ⟨count, c₁, h₁, t, c₂, h₂, rs, c₃, h₃, h₄⟩
        cases h₄
        obtain ⟨g₁, hg₁, hr₁, hp₁⟩ := unsigned_eq_ok_iff.mp h₁
        obtain ⟨_, rfl, hr₂, hp₂⟩ := valType_eq_ok_iff.mp h₂
        obtain ⟨g₃, ⟨hg₃, hl₃⟩, hr₃, hp₃⟩ := ih.mp h₃
        refine ⟨g₁ ++ t.byte :: g₃, ⟨.cons t hg₁ hg₃, by rw [List.length_cons, hl₃]⟩, ?_, ?_⟩
        · simp [hr₁, hr₂, hr₃]
        · simp [hp₁, hp₂, hp₃]
          omega
      · rintro ⟨g, ⟨hg, hl⟩, hr, hp⟩
        cases hg with
        | nil => cases hl
        | @cons g₁ count g₃ rs t hg₁ hg₃ =>
            refine ⟨count, ⟨c.pos + g₁.length, t.byte :: (g₃ ++ c'.rest)⟩, ?_, t,
              ⟨c.pos + g₁.length + 1, g₃ ++ c'.rest⟩, ?_, rs, c', ?_, rfl⟩
            · exact unsigned_eq_ok_iff.mpr ⟨g₁, hg₁, by simp [hr], rfl⟩
            · exact valType_eq_ok_iff.mpr ⟨_, rfl, rfl, rfl⟩
            · refine ih.mpr ⟨g₃, ⟨hg₃, Nat.succ.inj hl⟩, rfl, ?_⟩
              rw [hp]
              simp
              omega

/-! ## Operations -/

/-- The result of a reader is wrapped into an operation. -/
theorem map_eq_ok_iff {r : Except Fault (α × Cursor)} {G : List UInt8 → α → Prop} {f : α → Op}
    {o : Op} (hr : ∀ a, r = .ok (a, c') ↔ Takes G c a c') :
    r.map (fun x => (f x.1, x.2)) = .ok (o, c') ↔
      Takes (fun g o => ∃ a, G g a ∧ f a = o) c o c' := by
  have hmap : r.map (fun x => (f x.1, x.2)) = .ok (o, c') ↔ ∃ a, r = .ok (a, c') ∧ f a = o := by
    cases r with
    | error e => simp [Except.map]
    | ok x => simp [Except.map, Prod.ext_iff, and_comm]
  rw [hmap]
  constructor
  · rintro ⟨a, ha, hf⟩
    obtain ⟨g, hg, ht⟩ := (hr a).mp ha
    exact ⟨g, ⟨a, hg, hf⟩, ht⟩
  · rintro ⟨g, ⟨a, hg, hf⟩, ht⟩
    exact ⟨a, (hr a).mpr ⟨g, hg, ht⟩, hf⟩

theorem callee_eq_ok_iff {offset : Nat} {o : Op} (hp : c.pos = offset + 1)
    (hb : c.pos < UInt32.size) :
    c.callee relocs = .ok (o, c') ↔
      Takes (fun g o => SpellsOp relocs offset (0x10 :: g) o) c o c' := by
  have hfind : (relocs.find? fun r => r.offset == UInt32.ofNat c.pos)
      = relocs.find? fun r => r.offset.toNat == offset + 1 := by
    congr 1
    funext r
    rw [Bool.eq_iff_iff, beq_iff_eq, beq_iff_eq, ← UInt32.toNat_inj, UInt32.toNat_ofNat', ← hp,
      Nat.mod_eq_of_lt hb]
  unfold callee
  simp only [hfind, spellsOp_call_iff]
  cases hr : relocs.find? fun r => r.offset.toNat == offset + 1 with
  | some r =>
      constructor
      · intro h
        cases h
        exact ⟨[], .inl ⟨r, rfl, rfl, rfl⟩, rfl, rfl⟩
      · rintro ⟨g, ⟨r', hr', rfl, rfl⟩ | ⟨hn, -⟩, ht, hp'⟩
        · obtain rfl := Option.some.inj hr'
          obtain rfl := eq_of_rest_of_pos ht hp'
          rfl
        · cases hn
  | none =>
      rw [map_eq_ok_iff (f := Op.call) fun _ => unsigned_eq_ok_iff]
      simp

theorem operation_eq_ok_iff {offset : Nat} {code : UInt8} {o : Op} (hp : c.pos = offset + 1)
    (hb : c.pos < UInt32.size) :
    c.operation relocs offset code = .ok (o, c') ↔
      Takes (fun g o => SpellsOp relocs offset (code :: g) o) c o c' := by
  constructor
  · intro h
    unfold operation at h
    split at h
    · obtain ⟨g, ⟨n, hg, rfl⟩, ht⟩ := (map_eq_ok_iff fun _ => unsigned_eq_ok_iff).mp h
      exact ⟨g, .localGet hg, ht⟩
    · obtain ⟨g, ⟨n, hg, rfl⟩, ht⟩ := (map_eq_ok_iff fun _ => unsigned_eq_ok_iff).mp h
      exact ⟨g, .localSet hg, ht⟩
    · obtain ⟨g, ⟨w, ⟨v, hg, hv⟩, rfl⟩, ht⟩ := (map_eq_ok_iff fun _ => signed32_eq_ok_iff).mp h
      exact ⟨g, .i32Const hg hv, ht⟩
    · obtain ⟨g, ⟨v, hg, rfl⟩, ht⟩ := (map_eq_ok_iff fun _ => signed_eq_ok_iff).mp h
      exact ⟨g, .i64Const hg, ht⟩
    · obtain ⟨g, ⟨n, ⟨hn, rfl⟩, rfl⟩, ht⟩ :=
        (map_eq_ok_iff (f := fun n => .f32Const ⟨UInt32.ofNat n⟩) fun _ => word_eq_ok_iff).mp h
      have hs : SpellsOp relocs offset _ _ := .f32Const ⟨UInt32.ofNat n⟩
      rw [UInt32.toNat_ofNat_of_lt' hn] at hs
      exact ⟨_, hs, ht⟩
    · obtain ⟨g, ⟨n, ⟨hn, rfl⟩, rfl⟩, ht⟩ :=
        (map_eq_ok_iff (f := fun n => .f64Const ⟨UInt64.ofNat n⟩) fun _ => word_eq_ok_iff).mp h
      have hs : SpellsOp relocs offset _ _ := .f64Const ⟨UInt64.ofNat n⟩
      rw [UInt64.toNat_ofNat_of_lt' hn] at hs
      exact ⟨_, hs, ht⟩
    · cases h
      exact ⟨[], .add .i32, rfl, rfl⟩
    · cases h
      exact ⟨[], .add .i64, rfl, rfl⟩
    · cases h
      exact ⟨[], .add .f32, rfl, rfl⟩
    · cases h
      exact ⟨[], .add .f64, rfl, rfl⟩
    · exact (callee_eq_ok_iff hp hb).mp h
    · cases h
      exact ⟨[], .endMark, rfl, rfl⟩
    · cases h
  · rintro ⟨g, hs, ht⟩
    cases hs with
    | localGet hg =>
        exact (map_eq_ok_iff (f := Op.localGet) fun _ => unsigned_eq_ok_iff).mpr
          ⟨g, ⟨_, hg, rfl⟩, ht⟩
    | localSet hg =>
        exact (map_eq_ok_iff (f := Op.localSet) fun _ => unsigned_eq_ok_iff).mpr
          ⟨g, ⟨_, hg, rfl⟩, ht⟩
    | i32Const hg hv =>
        exact (map_eq_ok_iff (f := Op.i32Const) fun _ => signed32_eq_ok_iff).mpr
          ⟨g, ⟨_, ⟨_, hg, hv⟩, rfl⟩, ht⟩
    | i64Const hg =>
        exact (map_eq_ok_iff (f := Op.i64Const) fun _ => signed_eq_ok_iff).mpr
          ⟨g, ⟨_, hg, rfl⟩, ht⟩
    | f32Const v =>
        exact (map_eq_ok_iff (f := fun n => .f32Const ⟨UInt32.ofNat n⟩) fun _ =>
          word_eq_ok_iff).mpr ⟨_, ⟨_, ⟨v.bits.toNat_lt, rfl⟩, by simp⟩, ht⟩
    | f64Const v =>
        exact (map_eq_ok_iff (f := fun n => .f64Const ⟨UInt64.ofNat n⟩) fun _ =>
          word_eq_ok_iff).mpr ⟨_, ⟨_, ⟨v.bits.toNat_lt, rfl⟩, by simp⟩, ht⟩
    | add t =>
        obtain rfl := eq_of_rest_of_pos ht.1 ht.2
        cases t <;> rfl
    | callReloc hr => exact (callee_eq_ok_iff hp hb).mpr ⟨_, .callReloc hr, ht⟩
    | call hn hg => exact (callee_eq_ok_iff hp hb).mpr ⟨_, .call hn hg, ht⟩
    | endMark =>
        obtain rfl := eq_of_rest_of_pos ht.1 ht.2
        rfl

theorem op_eq_ok_iff {o : Op} (hb : c.pos + c.rest.length < UInt32.size) :
    c.op relocs = .ok (o, c') ↔ Takes (SpellsOp relocs c.pos) c o c' := by
  unfold op byte
  cases hc : c.rest with
  | nil =>
      constructor
      · intro h
        cases h
      · rintro ⟨g, hs, hr, -⟩
        obtain ⟨code, g, rfl⟩ := hs.exists_opcode
        rw [hc] at hr
        cases hr
  | cons code bs =>
      have hlt : c.pos + 1 < UInt32.size := by
        rw [hc, List.length_cons] at hb
        omega
      refine (operation_eq_ok_iff (c := ⟨c.pos + 1, bs⟩) rfl hlt).trans ?_
      constructor
      · rintro ⟨g, hs, hr, hp⟩
        refine ⟨code :: g, hs, ?_, ?_⟩
        · exact hc.trans (congrArg (code :: ·) hr)
        · rw [hp, List.length_cons, Nat.add_assoc, Nat.add_comm 1]
      · rintro ⟨g, hs, hr, hp⟩
        obtain ⟨code', g, rfl⟩ := hs.exists_opcode
        rw [hc, List.cons_append] at hr
        cases hr
        refine ⟨g, hs, rfl, ?_⟩
        rw [hp, List.length_cons, Nat.add_assoc, Nat.add_comm 1]

theorem op_of_spellsOp {pos : Nat} {g : List UInt8} {o : Op} (rest : List UInt8)
    (hb : pos + (g ++ rest).length < UInt32.size) (hs : SpellsOp relocs pos g o) :
    (Cursor.mk pos (g ++ rest)).op relocs = .ok (o, ⟨pos + g.length, rest⟩) :=
  (op_eq_ok_iff hb).mpr ⟨g, hs, rfl, rfl⟩

/-- Reading goes on operation by operation, so what is read is spelled. -/
theorem spellsOps_of_ops {os : List (Nat × Op)} (hb : c.pos + c.rest.length < UInt32.size)
    (h : c.ops relocs = .ok os) : SpellsOps relocs c.pos c.rest os := by
  -- by induction on the number of bytes still to be read
  induction hn : c.rest.length using Nat.strongRecOn generalizing c os with
  | ind n ih =>
      rw [ops] at h
      split at h
      · cases h
      · next he =>
          obtain ⟨g, hs, hr, -⟩ := (op_eq_ok_iff hb).mp he
          split at h
          · next hnil =>
              cases h
              rw [hnil, List.append_nil] at hr
              exact hr ▸ .last hs
          · cases h
      · next o c' hne he =>
          obtain ⟨g, hs, hr, hp⟩ := (op_eq_ok_iff hb).mp he
          have hl : c.rest.length = g.length + c'.rest.length := by rw [hr, List.length_append]
          have hlt := op_rest he
          cases ho : c'.ops relocs with
          | error e => simp [ho, Except.map] at h
          | ok os' =>
              rw [ho] at h
              cases h
              have htail := ih c'.rest.length (by omega) (by omega) ho rfl
              rw [hr]
              exact .cons hs hne (hp ▸ htail)

theorem ops_of_spellsOps {pos : Nat} {bs : List UInt8} {os : List (Nat × Op)}
    (hb : pos + bs.length < UInt32.size) (h : SpellsOps relocs pos bs os) :
    (Cursor.mk pos bs).ops relocs = .ok os := by
  induction h with
  | @last pos g hs =>
      have hop := op_of_spellsOp [] (by rwa [List.append_nil]) hs
      rw [List.append_nil] at hop
      exact ops_of_endMark hop rfl
  | @cons pos g gs o os hs hne htail ih =>
      have hop := op_of_spellsOp gs hb hs
      rw [List.length_append] at hb
      rw [ops_of_op hop hne, ih (by omega)]
      rfl

end Cursor

/-! ## Bodies -/

namespace DecodedBody

variable {bytes : List UInt8} {relocs : List Reloc} {d : DecodedBody}

theorem spelled_of_read (hb : bytes.length < UInt32.size) (h : read bytes relocs = .ok d) :
    Spelled relocs bytes d := by
  simp only [read, bind_eq_ok, Prod.exists] at h
  obtain ⟨size, c₁, h₁, n, c₂, h₂, runs, c₃, h₃, ops, h₄, h₅⟩ := h
  cases h₅
  obtain ⟨g₁, hg₁, hr₁, hp₁⟩ := Cursor.unsigned_eq_ok_iff.mp h₁
  obtain ⟨g₂, hg₂, hr₂, hp₂⟩ := Cursor.unsigned_eq_ok_iff.mp h₂
  obtain ⟨g₃, ⟨hg₃, hl⟩, hr₃, hp₃⟩ := Cursor.localRuns_eq_ok_iff.mp h₃
  have hbytes : bytes = g₁ ++ g₂ ++ g₃ ++ c₃.rest := by
    rw [List.append_assoc, List.append_assoc, ← hr₃, ← hr₂]
    exact hr₁
  have hpos : c₃.pos = (g₁ ++ g₂ ++ g₃).length := by
    simp [hp₁, hp₂, hp₃, Nat.add_assoc]
  refine ⟨g₁, g₂, g₃, c₃.rest, hbytes, hg₁, hl ▸ hg₂, hg₃, ?_⟩
  rw [← hpos]
  refine Cursor.spellsOps_of_ops ?_ h₄
  rwa [hbytes, List.length_append, ← hpos] at hb

theorem read_of_spelled (hb : bytes.length < UInt32.size) (h : Spelled relocs bytes d) :
    read bytes relocs = .ok d := by
  obtain ⟨g₁, g₂, g₃, code, rfl, hg₁, hg₂, hg₃, hops⟩ := h
  simp only [read, bind_eq_ok, Prod.exists]
  refine ⟨d.size, ⟨g₁.length, g₂ ++ g₃ ++ code⟩, ?size, d.locals.length,
    ⟨g₁.length + g₂.length, g₃ ++ code⟩, ?count, d.locals, ⟨(g₁ ++ g₂ ++ g₃).length, code⟩, ?runs,
    d.ops, ?ops, rfl⟩
  case size => exact Cursor.unsigned_eq_ok_iff.mpr ⟨g₁, hg₁, by simp, by simp⟩
  case count => exact Cursor.unsigned_eq_ok_iff.mpr ⟨g₂, hg₂, by simp, rfl⟩
  case runs =>
    exact Cursor.localRuns_eq_ok_iff.mpr ⟨g₃, ⟨hg₃, rfl⟩, rfl, by simp [Nat.add_assoc]⟩
  case ops =>
    rw [List.length_append] at hb
    exact Cursor.ops_of_spellsOps hb hops

end DecodedBody

/-- A body is read if and only if the grammar spells it; any other bytes are refused. -/
theorem DecodedBody.read_eq_ok_iff_spelled {bytes : List UInt8} (relocs : List Reloc)
    (h : bytes.length < UInt32.size) :
    (∀ d, DecodedBody.read bytes relocs = .ok d ↔ DecodedBody.Spelled relocs bytes d) ∧
      ((∀ d, ¬DecodedBody.Spelled relocs bytes d) →
        ∃ f, DecodedBody.read bytes relocs = .error f) := by
  refine ⟨fun d => ⟨spelled_of_read h, read_of_spelled h⟩, fun hn => ?_⟩
  cases hread : DecodedBody.read bytes relocs with
  | error f => exact ⟨f, rfl⟩
  | ok d => exact absurd (spelled_of_read h hread) (hn d)

/-- A size and a constant in more bytes than they have to be, a call that two relocations claim, and
a call that none does. -/
def overlongBody : List UInt8 :=
  [0x85, 0x00, 0x01, 0x02, 0x7F, 0x41, 0xFF, 0x7F, 0x10, 0x10, 0x07, 0x0B]

theorem DecodedBody.read_overlongBody :
    overlongBody.length < UInt32.size ∧
      DecodedBody.read overlongBody [⟨9, ⟨4⟩⟩, ⟨9, ⟨5⟩⟩]
        = .ok ⟨5, [(2, .i32)],
            [(5, .i32Const (-1)), (8, .callReloc ⟨4⟩), (9, .call 7), (11, .endMark)]⟩ := by
  refine ⟨by decide, ?_⟩
  rw [(DecodedBody.read_eq_ok_iff_spelled _ (by decide)).1]
  refine ⟨[0x85, 0x00], [0x01], [0x02, 0x7F], [0x41, 0xFF, 0x7F, 0x10, 0x10, 0x07, 0x0B], rfl,
    ?size, ?count, ?runs, ?ops⟩
  case size => exact ⟨⟨rfl, rfl⟩, by decide, rfl, by decide⟩
  case count => exact ⟨rfl, by decide, rfl, by decide⟩
  case runs => exact .cons (g := [0x02]) .i32 ⟨rfl, by decide, rfl, by decide⟩ .nil
  case ops =>
    refine .cons (g := [0x41, 0xFF, 0x7F]) ?const (by decide) ?_
    case const => exact .i32Const (v := -1) ⟨⟨rfl, rfl⟩, by decide, by decide⟩ (by decide)
    refine .cons (g := [0x10]) (.callReloc (r := ⟨9, ⟨4⟩⟩) rfl) (by decide) ?_
    refine .cons (g := [0x10, 0x07]) ?call (by decide) (.last .endMark)
    case call => exact .call (by decide) ⟨rfl, by decide, rfl, by decide⟩

end WasmLowering
