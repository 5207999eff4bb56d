import WasmLowering.Codegen.Context
import WasmLowering.Proofs.Lowering

/-!
# What a generated function consists of

Generation succeeds exactly when its parts do, and then the code of a function is its size, its
locals table, the operations that the block is lowered to and the end marker.
-/

namespace WasmLowering

namespace InstKind

def isArg : InstKind → Bool
  | arg _ => true
  | _ => false

def isAlloc : InstKind → Bool
  | alloc => true
  | _ => false

end InstKind

namespace Body

variable (b : Body)

def isArg (i : InstId) : Bool := (b.get? i).any fun inst => inst.kind.isArg

def isAlloc (i : InstId) : Bool := (b.get? i).any fun inst => inst.kind.isAlloc

def slotType? (i : InstId) : Option ValType := do (← (← b.get? i).ty.pointee?).valType?

variable {b} {i : InstId} {inst : Inst}

theorem isArg_eq (h : b.get? i = some inst) : b.isArg i = inst.kind.isArg := by
  rw [isArg, h]; rfl

theorem isAlloc_eq (h : b.get? i = some inst) : b.isAlloc i = inst.kind.isAlloc := by
  rw [isAlloc, h]; rfl

theorem slotType?_eq (h : b.get? i = some inst) :
    b.slotType? i = inst.ty.pointee?.bind Ty.valType? := by
  rw [slotType?, h]; rfl

theorem takesSlot_eq (b : Body) (i : InstId) : b.takesSlot i = (b.isArg i || b.isAlloc i) := by
  unfold takesSlot isArg isAlloc
  cases b.get? i with
  | none => rfl
  | some inst => cases inst with | mk ty kind span => cases kind <;> rfl

theorem takesSlot_of_isArg (h : b.isArg i = true) : b.takesSlot i = true := by
  rw [takesSlot_eq, h, Bool.true_or]

theorem takesSlot_of_isAlloc (h : b.isAlloc i = true) : b.takesSlot i = true := by
  rw [takesSlot_eq, h, Bool.or_true]

theorem isAlloc_eq_false_of_isArg (h : b.isArg i = true) : b.isAlloc i = false := by
  unfold isArg at h
  unfold isAlloc
  cases hi : b.get? i with
  | none => rfl
  | some inst =>
      rw [hi] at h
      cases hk : inst.kind <;> simp_all [InstKind.isArg, InstKind.isAlloc]

theorem isArg_eq_false_of_isAlloc (h : b.isAlloc i = true) : b.isArg i = false := by
  cases ha : b.isArg i with
  | false => rfl
  | true =>
      rw [isAlloc_eq_false_of_isArg ha] at h
      cases h

theorem countP_takesSlot (is : List InstId) :
    is.countP b.takesSlot = is.countP b.isArg + is.countP b.isAlloc := by
  induction is with
  | nil => rfl
  | cons j is ih =>
      have hd := @isAlloc_eq_false_of_isArg b j
      cases h₁ : b.isArg j <;> cases h₂ : b.isAlloc j <;> simp_all [takesSlot_eq] <;> omega

theorem countP_isArg_le (b : Body) (is : List InstId) :
    is.countP b.isArg ≤ is.countP b.takesSlot := by
  rw [countP_takesSlot]
  exact Nat.le_add_right _ _

end Body

/-! ## Slots -/

theorem bind_eq_ok {ε α β : Type} {x : Except ε α} {f : α → Except ε β} {v : β} :
    x >>= f = .ok v ↔ ∃ a, x = .ok a ∧ f a = .ok v := by
  cases x <;> simp [bind, Except.bind]

theorem bind_eq_error {ε α β : Type} {x : Except ε α} {f : α → Except ε β} {e : ε} :
    x >>= f = .error e ↔ x = .error e ∨ ∃ a, x = .ok a ∧ f a = .error e := by
  cases x <;> simp [bind, Except.bind]

theorem mapError_eq_ok {ε ε' α : Type} {f : ε → ε'} {x : Except ε α} {a : α} :
    x.mapError f = .ok a ↔ x = .ok a := by
  constructor
  · intro h
    cases x with
    | error e => cases h
    | ok b => cases h; rfl
  · rintro rfl
    rfl

theorem Inst.slotType_eq_ok {inst : Inst} {t : ValType} :
    inst.slotType = .ok t ↔ (inst.ty.pointee?.bind Ty.valType?) = some t := by
  unfold Inst.slotType
  cases inst.ty.pointee? with
  | none => simp
  | some elem => cases h : elem.valType? <;> simp [h]

namespace Slots

theorem ofRest_cons {b : Body} {n : Nat} {i : InstId} {is : List InstId} {slots : Slots}
    (h : ofRest b n (i :: is) = .ok slots) :
    (b.isArg i = true ∧ b.isAlloc i = false ∧ n + 1 < UInt32.size ∧
        ofRest b (n + 1) is = .ok slots) ∨
      (b.isArg i = false ∧ b.isAlloc i = true ∧
        ∃ t rest, b.slotType? i = some t ∧ ofRest b n is = .ok rest ∧ slots = rest.withLocal t) ∨
      (b.isArg i = false ∧ b.isAlloc i = false ∧ ofRest b n is = .ok slots) := by
  rw [ofRest, bind_eq_ok] at h
  obtain ⟨inst, hi, h⟩ := h
  have hi := Body.inst_eq_ok.mp (mapError_eq_ok.mp hi)
  unfold Body.isArg Body.isAlloc Body.slotType?
  cases hk : inst.kind with
  | arg index =>
      simp only [hk, bind_eq_ok, mapError_eq_ok, counter_eq_ok] at h
      obtain ⟨_, ⟨hn, rfl⟩, h⟩ := h
      exact .inl ⟨by simp [hi, hk, InstKind.isArg], by simp [hi, hk, InstKind.isAlloc], hn, h⟩
  | alloc =>
      simp only [hk, bind_eq_ok] at h
      obtain ⟨t, ht, rest, hr, h⟩ := h
      cases h
      have ht := Inst.slotType_eq_ok.mp (mapError_eq_ok.mp ht)
      exact .inr (.inl ⟨by simp [hi, hk, InstKind.isArg], by simp [hi, hk, InstKind.isAlloc], t,
        rest, by simpa [hi] using ht, hr, rfl⟩)
  | _ =>
      simp only [hk] at h
      exact .inr (.inr ⟨by simp [hi, hk, InstKind.isArg], by simp [hi, hk, InstKind.isAlloc], h⟩)

theorem args_ofRest {b : Body} {n : Nat} {is : List InstId} {slots : Slots}
    (h : ofRest b n is = .ok slots) : slots.args = n + is.countP b.isArg := by
  induction is generalizing n slots with
  | nil => cases h; rfl
  | cons i is ih =>
      obtain ⟨ha, -, -, hr⟩ | ⟨ha, -, t, rest, -, hr, rfl⟩ | ⟨ha, -, hr⟩ := ofRest_cons h
      · simp [ih hr, ha]
        omega
      · simp [withLocal, ih hr, ha]
      · simp [ih hr, ha]

theorem locals_ofRest {b : Body} {n : Nat} {is : List InstId} {slots : Slots}
    (h : ofRest b n is = .ok slots) :
    slots.locals.map some = (is.filter b.isAlloc).map b.slotType? := by
  induction is generalizing n slots with
  | nil => cases h; rfl
  | cons i is ih =>
      obtain ⟨-, hl, -, hr⟩ | ⟨-, hl, t, rest, ht, hr, rfl⟩ | ⟨-, hl, hr⟩ := ofRest_cons h
      · simp [ih hr, hl]
      · simp [withLocal, ih hr, hl, ht]
      · simp [ih hr, hl]

section

variable {b : Body} {is : List InstId} {slots : Slots}

theorem args_ofBlock (h : ofBlock b is = .ok slots) : slots.args = is.countP b.isArg := by
  simpa using args_ofRest h

theorem locals_ofBlock (h : ofBlock b is = .ok slots) :
    slots.locals.map some = (is.filter b.isAlloc).map b.slotType? :=
  locals_ofRest h

theorem length_locals_ofBlock (h : ofBlock b is = .ok slots) :
    slots.locals.length = is.countP b.isAlloc := by
  simpa [List.countP_eq_length_filter] using congrArg List.length (locals_ofBlock h)

theorem localCount_of_lt (h : slots.locals.length < UInt32.size) :
    slots.localCount = slots.locals.length :=
  Nat.mod_eq_of_lt h

/-- The stack slots of a block whose slots fit 32 bits are stated as they are. -/
theorem localCount_ofBlock (h : ofBlock b is = .ok slots)
    (hn : is.countP b.takesSlot < UInt32.size) : slots.localCount = slots.locals.length := by
  rw [Body.countP_takesSlot] at hn
  apply localCount_of_lt
  rw [length_locals_ofBlock h]
  omega

theorem total_ofBlock (h : ofBlock b is = .ok slots) (hn : is.countP b.takesSlot < UInt32.size) :
    slots.total = is.countP b.takesSlot := by
  rw [total, localCount_ofBlock h hn, args_ofBlock h, length_locals_ofBlock h,
    Body.countP_takesSlot]

end

end Slots

/-! ## Blocks -/

theorem Scope.lowerAll_block {s : Scope} {frame : Frame}
    (h : (s.lowerAll .empty s.body.code).result = .ok frame) :
    (s.lowerAll .empty s.body.code).ops = s.body.loweredAll ∧
      frame.slots = s.body.code.countP s.body.takesSlot ∧ s.body.Lowerable := by
  obtain ⟨ho, hf, hl⟩ := lowerAll_front_yields (List.append_nil _).symm ⟨rfl, h⟩
  exact ⟨ho, hf.slots, hl⟩

/-- The slots that were counted for a block are those that it takes, and their sum is no overflow. -/
theorem Scope.checkDense_block {s : Scope} {slots : Slots} {frame : Frame}
    (hs : Slots.ofBlock s.body s.body.code = .ok slots)
    (h : (s.lowerAll .empty s.body.code).result = .ok frame) :
    slots.checkDense s.fn frame.slots = .ok () := by
  obtain ⟨-, hn, hl⟩ := lowerAll_block h
  rw [Slots.checkDense, Slots.total_ofBlock hs hl.countP_lt, counter_of_lt hl.countP_lt]
  exact if_pos hn

theorem Scope.exists_lowerAll_block {s : Scope} (h : s.body.Lowerable) :
    ∃ frame, (s.lowerAll .empty s.body.code).result = .ok frame := by
  obtain ⟨os, frame, hy⟩ := exists_lowerAll (s := s) (Frame.mirrors_empty s.body) h
  exact ⟨frame, hy.2⟩

/-! ## Functions -/

namespace Body

def blockBytes (b : Body) : List UInt8 := (b.loweredAll ++ [Op.endMark]).flatMap Op.bytes

def blockRelocs (b : Body) (pos : Nat) : List Reloc := relocsFrom pos b.loweredAll

end Body

def Slots.blockStart (slots : Slots) : Nat := paddedWidth + slots.table.length

/-- The size of a body once its calls are linked, itself apart. -/
def Body.linkedSize (b : Body) (slots : Slots) : Nat :=
  slots.table.length + b.blockBytes.length
    + (b.blockRelocs slots.blockStart).length * paddedWidth

/-- The function `d` of signature `s` and body `b` has the code `fc`. -/
structure Generates (id : DeclId) (d : Decl) (s : Signature) (b : Body) (slots : Slots)
    (fc : FunctionCode) : Prop where
  signature : d.signature? = some s
  typed : s.entry.2 = none
  body : d.body? = some b
  counted : Slots.ofBlock b b.code = .ok slots
  args : slots.args = s.params.length
  lowerable : b.Lowerable
  size : b.linkedSize slots < UInt32.size
  code : fc = ⟨id, d.name, s.entry.1,
    Leb.padded paddedWidth (b.linkedSize slots) ++ slots.table ++ b.blockBytes,
    b.blockRelocs slots.blockStart⟩

/-- Each parameter has an argument, and all slots are counted in 32 bits. -/
theorem Generates.length_params_lt {id : DeclId} {d : Decl} {s : Signature} {b : Body}
    {slots : Slots} {fc : FunctionCode} (h : Generates id d s b slots fc) :
    s.params.length < UInt32.size :=
  calc
    s.params.length = b.code.countP b.isArg := by rw [← h.args, Slots.args_ofBlock h.counted]
    _ ≤ b.code.countP b.takesSlot := b.countP_isArg_le b.code
    _ < UInt32.size := h.lowerable.countP_lt

namespace Context

variable {c : Context} {b : Body} {slots : Slots} {fc : FunctionCode}

/-- The step succeeds and leaves `fc` in the buffers. -/
def Leaves (r : Context × Except Stop Unit) (fc : FunctionCode) : Prop :=
  r.2 = .ok () ∧ r.1.finish = fc

theorem not_leaves_stop {s : Stop} : ¬Leaves (c.stop s) fc := by
  cases s <;> simp [Leaves, stop]

theorem slots_eq_ok (slots : Slots) {s : Signature} (hs : c.decl.signature? = some s) :
    c.slots b = .ok slots ↔ Slots.ofBlock b b.code = .ok slots ∧ slots.args = s.params.length := by
  unfold Context.slots
  cases hb : Slots.ofBlock b b.code with
  | error e => simp [bind, Except.bind]
  | ok slots' =>
      simp only [bind, Except.bind, hs, pure, Except.pure]
      split
      · next ha =>
        simp only [Except.ok.injEq]
        constructor
        · rintro rfl; exact ⟨rfl, ha⟩
        · exact fun h => h.1
      · next ha =>
        simp only [throw, throwThe, MonadExceptOf.throw, Except.ok.injEq]
        constructor
        · intro h; cases h
        · rintro ⟨rfl, h⟩; exact absurd h ha

theorem leaves_writeSize {n : Nat}
    (hn : c.code.length - paddedWidth + c.relocs.length * paddedWidth = n) :
    Leaves (c.writeSize slots) fc ↔ n < UInt32.size ∧
      fc = ⟨c.id, c.decl.name, c.typeEntry,
        Leb.padded paddedWidth n ++ c.code.drop paddedWidth, c.relocs⟩ := by
  unfold writeSize
  simp only [hn]
  split
  · next h => simp [Leaves, finish, h, eq_comm]
  · next h => simp [h, fail, not_leaves_stop]

theorem leaves_generateBlock (hb : Slots.ofBlock b b.code = .ok slots)
    (hc : c.code.length = slots.blockStart) (hr : c.relocs = []) :
    Leaves (c.generateBlock b slots) fc ↔ b.Lowerable ∧ b.linkedSize slots < UInt32.size ∧
      fc = ⟨c.id, c.decl.name, c.typeEntry,
        Leb.padded paddedWidth (b.linkedSize slots) ++ c.code.drop paddedWidth ++ b.blockBytes,
        b.blockRelocs slots.blockStart⟩ := by
  unfold generateBlock
  cases he : ((Scope.mk c.decl.name b).lowerAll .empty b.code).result with
  | error s =>
      simp only [he, not_leaves_stop, false_iff]
      rintro ⟨hl, -⟩
      obtain ⟨frame, hf⟩ := Scope.exists_lowerAll_block (s := ⟨c.decl.name, b⟩) hl
      rw [he] at hf
      cases hf
  | ok frame =>
      obtain ⟨ho, -, hl⟩ := Scope.lowerAll_block (s := ⟨c.decl.name, b⟩) he
      have hd := Scope.checkDense_block (s := ⟨c.decl.name, b⟩) hb he
      have hw : paddedWidth ≤ c.code.length := by rw [hc]; exact Nat.le_add_right _ _
      simp only [he, ho, hd, hr, List.nil_append, hc]
      rw [leaves_writeSize (n := b.linkedSize slots)]
      · simp [hl, List.drop_append_of_le_length hw, Body.blockBytes, Body.blockRelocs]
      · simp [Body.linkedSize, Body.blockBytes, Body.blockRelocs, Slots.blockStart, hc]
        omega

theorem leaves_generateBody (hc : c.code = []) (hr : c.relocs = []) {s : Signature}
    (hs : c.decl.signature? = some s) :
    Leaves c.generateBody fc ↔ ∃ b slots, c.decl.body? = some b ∧
      Slots.ofBlock b b.code = .ok slots ∧ slots.args = s.params.length ∧ b.Lowerable ∧
      b.linkedSize slots < UInt32.size ∧ fc = ⟨c.id, c.decl.name, c.typeEntry,
        Leb.padded paddedWidth (b.linkedSize slots) ++ slots.table ++ b.blockBytes,
        b.blockRelocs slots.blockStart⟩ := by
  unfold generateBody
  rw [if_neg (by simp [hc])]
  cases hb : c.decl.body? with
  | none => simp [fail, not_leaves_stop]
  | some b =>
      simp only [Option.some.injEq]
      have hok := fun slots =>
        slots_eq_ok (c := { c with code := List.replicate paddedWidth 0 }) (b := b) slots hs
      split
      · next e hk =>
        simp only [not_leaves_stop, false_iff]
        rintro ⟨_, slots, rfl, ho, ha, -⟩
        rw [(hok slots).mpr ⟨ho, ha⟩] at hk
        cases hk
      · next slots hk =>
        obtain ⟨ho, ha⟩ := (hok slots).mp hk
        rw [leaves_generateBlock
          (c := { c with code := List.replicate paddedWidth 0 ++ slots.table }) ho
          (by simp [Slots.blockStart]) hr]
        constructor
        · rintro ⟨h1, h2, rfl⟩
          exact ⟨b, slots, rfl, ho, ha, h1, h2, by simp⟩
        · rintro ⟨_, slots', rfl, ho', -, h1, h2, rfl⟩
          rw [ho] at ho'
          cases ho'
          exact ⟨h1, h2, by simp⟩

theorem generateType_ok_iff {c' : Context} :
    c.generateType = (c', .ok ()) ↔ ∃ s, c.decl.signature? = some s ∧ s.entry.2 = none ∧
      { c with typeEntry := c.typeEntry ++ s.entry.1 } = c' := by
  unfold generateType
  cases hs : c.decl.signature? with
  | none => simp [fail, stop]
  | some s => cases ht : s.entry.2 <;> simp [fail, stop, ht]

theorem leaves_generate {id : DeclId} {d : Decl} :
    Leaves (new id d).generate fc ↔ ∃ s b slots, Generates id d s b slots fc := by
  have hstep : Leaves (new id d).generate fc ↔
      ∃ c', (new id d).generateType = (c', .ok ()) ∧ Leaves c'.generateBody fc := by
    unfold generate
    split
    · next c' h => simp [h]
    · next stopped hn =>
      constructor
      · rintro ⟨h, -⟩
        exact (hn _ (Prod.ext rfl h)).elim
      · rintro ⟨c', h, -⟩
        exact (hn _ h).elim
  rw [hstep]
  constructor
  · rintro ⟨c', ht, hb⟩
    obtain ⟨s, hs, hn, rfl⟩ := generateType_ok_iff.mp ht
    have hg := (leaves_generateBody (c := { new id d with typeEntry := [] ++ s.entry.1 })
      rfl rfl hs).mp hb
    obtain ⟨b, slots, hd, ho, ha, hl, hz, rfl⟩ := hg
    exact ⟨s, b, slots, hs, hn, hd, ho, ha, hl, hz, rfl⟩
  · rintro ⟨s, b, slots, h⟩
    refine ⟨_, generateType_ok_iff.mpr ⟨s, h.signature, h.typed, rfl⟩, ?_⟩
    exact (leaves_generateBody rfl rfl h.signature).mpr
      ⟨b, slots, h.body, h.counted, h.args, h.lowerable, h.size, h.code⟩

end Context

/-- Generation succeeds exactly when all parts of a function do. -/
theorem generateFunction_eq_ok_iff {id : DeclId} {d : Decl} {fc : FunctionCode} :
    generateFunction id d = .ok fc ↔ ∃ s b slots, Generates id d s b slots fc := by
  rw [← Context.leaves_generate]
  unfold generateFunction Context.Leaves
  split
  · next h => simp [h]
  · next h => simp [h]

theorem exists_generates {id : DeclId} {d : Decl} {fc : FunctionCode} {s : Signature} {b : Body}
    (h : generateFunction id d = .ok fc) (hs : d.signature? = some s) (hb : d.body? = some b) :
    ∃ slots, Generates id d s b slots fc := by
  obtain ⟨s', b', slots, hg⟩ := generateFunction_eq_ok_iff.mp h
  obtain rfl : s = s' := Option.some.inj (hs.symm.trans hg.signature)
  obtain rfl : b = b' := Option.some.inj (hb.symm.trans hg.body)
  exact ⟨slots, hg⟩

/-! ## A small function -/

/-- Stores its argument, loads it, adds two and calls with the sum and the argument. -/
def Body.settle : Body where
  insts := #[
    ⟨.int true 32, .arg 0, .synthetic⟩,
    ⟨.ptr (.int true 32), .alloc, .synthetic⟩,
    ⟨.void, .store ⟨1⟩ ⟨0⟩, .synthetic⟩,
    ⟨.int true 32, .load ⟨1⟩, .synthetic⟩,
    ⟨.int true 32, .constant (.int 2), .synthetic⟩,
    ⟨.int true 32, .add ⟨3⟩ ⟨4⟩, .synthetic⟩,
    ⟨.fn [.int true 32, .int true 32] (.int true 32), .constant (.function ⟨7⟩), .synthetic⟩,
    ⟨.int true 32, .call ⟨6⟩ [⟨5⟩, ⟨0⟩], .synthetic⟩,
    ⟨.noReturn, .ret ⟨7⟩, .synthetic⟩]
  code := [⟨0⟩, ⟨1⟩, ⟨2⟩, ⟨3⟩, ⟨5⟩, ⟨7⟩, ⟨8⟩]

def Decl.settle : Decl := .function "settle" ⟨[.int true 32], .int true 32⟩ .settle

theorem Body.lowerable_settle : Body.settle.Lowerable := by
  refine ⟨?arg, ?alloc, ?store, ?load, ?add, ?call, ?ret, trivial⟩
  case arg => exact ⟨_, rfl, by decide, rfl, by decide⟩
  case alloc => exact ⟨_, rfl, by decide, show Body.settle.HasRoom [⟨0⟩] by decide⟩
  case store => exact ⟨_, rfl, by decide, by decide, rfl, ⟨_, rfl, .inr ⟨rfl, by decide⟩⟩⟩
  case load => exact ⟨_, rfl, by decide, ⟨_, rfl, .inr ⟨rfl, by decide⟩⟩⟩
  case add =>
      exact ⟨_, rfl, by decide, ⟨_, rfl, .inr ⟨rfl, by decide⟩⟩,
        ⟨_, rfl, .inl ⟨_, _, rfl, rfl⟩⟩, rfl⟩
  case call =>
      refine ⟨_, rfl, by decide, rfl, ?_⟩
      intro i hi
      have hi : i = ⟨5⟩ ∨ i = ⟨0⟩ := by simpa using hi
      rcases hi with rfl | rfl
      · exact ⟨_, rfl, .inr ⟨rfl, by decide⟩⟩
      · exact ⟨_, rfl, .inr ⟨rfl, by decide⟩⟩
  case ret => exact ⟨_, rfl, by decide, ⟨_, rfl, .inr ⟨rfl, by decide⟩⟩⟩

theorem exists_generates_settle (id : DeclId) :
    ∃ fc, Generates id .settle ⟨[.int true 32], .int true 32⟩ .settle ⟨1, [.i32]⟩ fc := by
  refine ⟨_, rfl, ?_, rfl, rfl, rfl, Body.lowerable_settle, ?_, rfl⟩
  · decide +kernel
  · decide +kernel

end WasmLowering
