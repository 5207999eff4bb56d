import WasmLowering.Proofs.Constants
import WasmLowering.Proofs.Stages
import WasmLowering.Proofs.WellFormed

/-!
# The failure that is reported

All that can fail in a declaration is listed in one order: what the signature names, the missing
body, the stack slots, the instructions with the literals that they push, the size. Generation
reports the first entry of the list, and it yields code only when the list is empty. The message
quotes the type, the literal or the name that the entry is about.
-/

namespace WasmLowering

/-! ## What can fail -/

instance (l : Literal) (ty : Ty) : Decidable (l.Fits ty) :=
  match h : l.ops ty with
  | .ok os => isTrue (Literal.fits_iff.mpr ⟨os, h⟩)
  | .error c => isFalse fun hf => by
      obtain ⟨os, ho⟩ := Literal.fits_iff.mp hf
      rw [h] at ho
      cases ho

/-- The types without an entry: those of parameters from left to right, then that of the result. -/
def Signature.causes (s : Signature) : List Cause :=
  (s.params.filter fun p => p.valType?.isNone).map .argumentType
    ++ if s.ret.isVoid || s.ret.valType?.isSome then [] else [.returnType s.ret]

/-- A stack slot has to be a pointer to a type with values. -/
def Inst.slotFailures (inst : Inst) : List Failure :=
  if inst.kind.isAlloc then
    match inst.ty.pointee? with
    | none => [⟨inst.span, .localType inst.ty⟩]
    | some elem => if elem.valType?.isSome then [] else [⟨inst.span, .localType elem⟩]
  else []

namespace Body

variable (b : Body)

/-- An operand that is a literal has to fit its type; a failure lies where the literal stands. -/
def literalFailures (i : InstId) : List Failure :=
  match b.get? i with
  | none => []
  | some inst =>
    match inst.kind.literal? with
    | none => []
    | some l => if l.Fits inst.ty then [] else [⟨inst.span, l.refusal inst.ty⟩]

/-- Only functions that are known can be called. -/
def calleeFailures (inst : Inst) (callee : InstId) : List Failure :=
  if (b.callee? callee).isSome then []
  else (b.get? callee).toList.map fun through => ⟨inst.span, .indirectCall through.kind.tag⟩

/-- The operands that an instruction pushes are looked at in order, the callee of a call before
them, and the type of a sum behind them. What a store writes to is not pushed. -/
def loweringFailures (inst : Inst) : List Failure :=
  match inst.kind with
  | .arg _ | .alloc | .retVoid | .dbgStmt _ _ => []
  | .load ptr => b.literalFailures ptr
  | .store _ value => b.literalFailures value
  | .add lhs rhs => b.literalFailures lhs ++ b.literalFailures rhs
      ++ if inst.ty.valType?.isSome then [] else [⟨inst.span, .addType inst.ty⟩]
  | .call callee args => b.calleeFailures inst callee ++ args.flatMap b.literalFailures
  | .ret operand => b.literalFailures operand
  | other => [⟨inst.span, .unimplemented other.tag⟩]

/-- All slots are counted before the first instruction is lowered. -/
def failures : List Failure :=
  let insts := b.code.filterMap b.get?
  insts.flatMap Inst.slotFailures ++ insts.flatMap b.loweringFailures

end Body

namespace Decl

variable (d : Decl)

def typeFailures : List Failure :=
  match d.signature? with
  | none => [d.failure (.nonFunctionType d.name d.ty)]
  | some s => s.causes.map d.failure

def bodyFailures : List Failure :=
  match d.body? with
  | none => [d.failure (.missingBody d.name)]
  | some b => b.failures ++
      if b.sizeBehindPrefix < UInt32.size then []
      else [d.failure (.oversizedBody d.name b.sizeBehindPrefix)]

def failures : List Failure := d.typeFailures ++ d.bodyFailures

end Decl

/-! ## What a message names -/

/-- The texts of what a cause is about. -/
def Cause.quotes : Cause → List String
  | argumentType ty | returnType ty | localType ty | constantType ty | addType ty => [ty.text]
  | constantRange value ty => [value.text, ty.text]
  | nonFunctionType name ty => [name, ty.text]
  | missingBody name => [name]
  | unimplemented tag | indirectCall tag => [tag]
  | unknownCallee target => [target.text]
  | oversizedBody name size => [name, toString size]
  | other message => [message]

theorem infix_append_self (before q : String) : q.toList <:+: (before ++ q).toList := by
  rw [String.toList_append]
  exact (List.suffix_append _ _).isInfix

theorem infix_append {q s : String} (h : q.toList <:+: s.toList) (after : String) :
    q.toList <:+: (s ++ after).toList := by
  rw [String.toList_append]
  exact h.trans (List.prefix_append _ _).isInfix

theorem infix_between (before q after : String) : q.toList <:+: (before ++ q ++ after).toList :=
  infix_append (infix_append_self before q) after

theorem Cause.infix_message {c : Cause} {q : String} (hq : q ∈ c.quotes) :
    q.toList <:+: c.message.toList := by
  cases c with
  | argumentType ty | returnType ty | localType ty | constantType ty | addType ty =>
      obtain rfl := List.mem_singleton.mp hq
      exact infix_between _ _ _
  | missingBody text | unimplemented text | indirectCall text =>
      obtain rfl := List.mem_singleton.mp hq
      exact infix_between _ _ _
  | constantRange value ty | nonFunctionType name ty | oversizedBody name size =>
      rcases List.mem_pair.mp hq with rfl | rfl
      · exact infix_append (infix_append (infix_between _ _ _) _) _
      · exact infix_between _ _ _
  | unknownCallee target =>
      obtain rfl := List.mem_singleton.mp hq
      exact infix_append_self _ _
  | other message =>
      obtain rfl := List.mem_singleton.mp hq
      exact List.infix_rfl

/-! ## Computations that report the first failure of a list -/

/-- The computation fails at the first entry of the list, or it breaks an invariant, or the list is
empty. -/
structure Reports {α : Type} (x : Except Stop α) (fs : List Failure) : Prop where
  failed : ∀ f, x = .error (.failed f) → fs.head? = some f
  ok : ∀ a, x = .ok a → fs = []

theorem reports_ok {α : Type} (a : α) : Reports (.ok a) [] := ⟨nofun, fun _ _ => rfl⟩

theorem reports_broken {α : Type} (v : Violation) (fs : List Failure) :
    Reports (α := α) (.error (.broken v)) fs :=
  ⟨nofun, nofun⟩

theorem reports_failed {α : Type} (f : Failure) (fs : List Failure) :
    Reports (α := α) (.error (.failed f)) (f :: fs) :=
  ⟨fun _ h => by cases h; rfl, nofun⟩

theorem Reports.bind {α β : Type} {x : Except Stop α} {g : α → Except Stop β}
    {fs gs : List Failure} (hx : Reports x fs) (hg : ∀ a, x = .ok a → Reports (g a) gs) :
    Reports (x >>= g) (fs ++ gs) := by
  cases x with
  | ok a =>
      rw [hx.ok a rfl]
      exact hg a rfl
  | error s =>
      cases s with
      | broken v => exact reports_broken v _
      | failed f =>
          obtain ⟨fs', rfl⟩ := List.head?_eq_some_iff.mp (hx.failed f rfl)
          exact reports_failed f _

theorem Reports.bind_ok {α β : Type} {x : Except Stop α} {g : α → Except Stop β}
    {fs : List Failure} (hx : Reports x fs) (hg : ∀ a, x = .ok a → Reports (g a) []) :
    Reports (x >>= g) fs := by
  have hb := hx.bind hg
  rwa [List.append_nil] at hb

theorem reports_mapError_broken_bind {α β : Type} {x : Except Violation α}
    {g : α → Except Stop β} {fs : List Failure} (hg : ∀ a, x = .ok a → Reports (g a) fs) :
    Reports (x.mapError .broken >>= g) fs := by
  cases x with
  | ok a => exact hg a rfl
  | error v => exact reports_broken v _

namespace Emission

variable {α β : Type} {m : Emission α} {g : α → Emission β} {fs gs : List Failure}

theorem reports_bind (hm : Reports m.result fs)
    (hg : ∀ a, m.result = .ok a → Reports (g a).result gs) :
    Reports (m >>= g).result (fs ++ gs) := by
  rw [result_bind]
  exact hm.bind hg

theorem reports_bind_ok (hm : Reports m.result fs)
    (hg : ∀ a, m.result = .ok a → Reports (g a).result []) : Reports (m >>= g).result fs := by
  rw [result_bind]
  exact hm.bind_ok hg

theorem reports_require (x : Except Violation α) : Reports (require x).result [] := by
  cases x with
  | ok a => exact reports_ok a
  | error v => exact reports_broken v _

theorem reports_require_bind {x : Except Violation α}
    (hg : ∀ a, x = .ok a → Reports (g a).result fs) : Reports (require x >>= g).result fs := by
  cases x with
  | ok a => exact hg a rfl
  | error v => exact reports_broken v _

end Emission

/-! ## Signatures -/

namespace Signature

theorem paramBytes_snd (ps : List Ty) : (paramBytes ps).2
    = ((ps.filter fun p => p.valType?.isNone).map Cause.argumentType).head? := by
  induction ps with
  | nil => rfl
  | cons p ps ih => cases hp : p.valType? <;> simp [paramBytes, hp, ih]

theorem entry_snd (s : Signature) : s.entry.2 = s.causes.head? := by
  have hp := paramBytes_snd s.params
  have hr : (resultBytes s.ret).2
      = (if s.ret.isVoid || s.ret.valType?.isSome then [] else [Cause.returnType s.ret]).head? := by
    cases hv : s.ret.isVoid <;> cases ht : s.ret.valType? <;> simp [resultBytes, hv, ht]
  unfold entry causes
  rw [List.head?_append, ← hp, ← hr]
  cases hb : paramBytes s.params with
  | mk bs c => cases c <;> rfl

end Signature

/-! ## Slots -/

theorem Inst.reports_slotType {inst : Inst} (hk : inst.kind = .alloc) :
    Reports (inst.slotType.mapError .failed) inst.slotFailures := by
  unfold slotType slotFailures
  rw [hk]
  cases inst.ty.pointee? with
  | none => exact reports_failed _ _
  | some elem =>
      cases ht : elem.valType? with
      | none => simpa [InstKind.isAlloc, ht, Except.mapError] using reports_failed _ _
      | some t => simpa [InstKind.isAlloc, ht, Except.mapError] using reports_ok t

theorem Inst.slotFailures_of_not_alloc {inst : Inst} (hk : inst.kind.isAlloc = false) :
    inst.slotFailures = [] := by
  simp [slotFailures, hk]

theorem Slots.reports_ofRest (b : Body) (n : Nat) (is : List InstId) :
    Reports (ofRest b n is) ((is.filterMap b.get?).flatMap Inst.slotFailures) := by
  induction is generalizing n with
  | nil => exact reports_ok _
  | cons i is ih =>
      rw [ofRest]
      refine reports_mapError_broken_bind fun inst hi => ?_
      rw [List.filterMap_cons_some (Body.inst_eq_ok.mp hi), List.flatMap_cons]
      cases hk : inst.kind with
      | alloc =>
          refine (Inst.reports_slotType hk).bind fun t _ => ?_
          exact (ih n).bind_ok fun rest _ => reports_ok _
      | arg index =>
          rw [Inst.slotFailures_of_not_alloc (by simp [hk, InstKind.isAlloc])]
          exact reports_mapError_broken_bind fun m _ => ih m
      | _ =>
          rw [Inst.slotFailures_of_not_alloc (by simp [hk, InstKind.isAlloc])]
          exact ih n

/-! ## Instructions -/

theorem Inst.reports_emitConstant {inst : Inst} {l : Literal} (hl : inst.kind.literal? = some l) :
    Reports inst.emitConstant.result
      (if l.Fits inst.ty then [] else [⟨inst.span, l.refusal inst.ty⟩]) := by
  simp only [emitConstant, hl]
  by_cases hf : l.Fits inst.ty
  · obtain ⟨os, ho⟩ := Literal.fits_iff.mp hf
    rw [if_pos hf, ho]
    exact reports_ok ()
  · rw [if_neg hf, Literal.ops_eq_error hf]
    exact reports_failed _ _

namespace Scope

variable {s : Scope} {f : Frame} {before after : List InstId} {i : InstId} {inst : Inst}

theorem reports_push {v : Operand} (hf : f.Mirrors s.body before after)
    (hv : s.resolve f i = .ok v) : Reports (s.push v).result (s.body.literalFailures i) := by
  obtain ⟨⟨inst, hi, -⟩, rfl⟩ := (resolve_eq_ok hf).mp hv
  have hlit : s.body.literal? i = inst.kind.literal? := by simp [Body.literal?, hi]
  rw [hlit]
  unfold Body.literalFailures
  simp only [hi]
  cases hl : inst.kind.literal? with
  | some l =>
      refine Emission.reports_require_bind fun inst' hi' => ?_
      obtain rfl : inst = inst' := Option.some.inj (hi.symm.trans (Body.inst_eq_ok.mp hi'))
      exact Inst.reports_emitConstant hl
  | none =>
      unfold Body.operandOf
      split
      · next h => cases h
      · split
        · exact reports_ok ()
        · exact reports_ok ()

theorem reports_pushOperand (hf : f.Mirrors s.body before after) (i : InstId) :
    Reports (s.pushOperand f i).result (s.body.literalFailures i) :=
  Emission.reports_require_bind fun _ hv => reports_push hf hv

theorem reports_pushOperands (hf : f.Mirrors s.body before after) (is : List InstId) :
    Reports (s.pushOperands f is).result (is.flatMap s.body.literalFailures) := by
  induction is with
  | nil => exact reports_ok ()
  | cons i is ih => exact Emission.reports_bind (reports_pushOperand hf i) fun _ _ => ih

theorem reports_lowerStore (hf : f.Mirrors s.body before after) (ptr value : InstId) :
    Reports (s.lowerStore f ptr value).result (s.body.literalFailures value) := by
  refine Emission.reports_require_bind fun target _ => ?_
  refine Emission.reports_require_bind fun v hv => ?_
  refine Emission.reports_bind_ok (reports_push hf hv) fun _ _ => ?_
  cases target with
  | slot n => exact reports_ok _
  | onStack => exact reports_broken _ _
  | literal i => exact reports_broken _ _
  | block label => exact reports_broken _ _

theorem reports_lowerAdd (hf : f.Mirrors s.body before after) (lhs rhs : InstId) :
    Reports (s.lowerAdd f inst lhs rhs).result
      (s.body.literalFailures lhs ++ s.body.literalFailures rhs
        ++ if inst.ty.valType?.isSome then [] else [⟨inst.span, .addType inst.ty⟩]) := by
  refine Emission.reports_require_bind fun l hl => ?_
  refine Emission.reports_require_bind fun r hr => ?_
  rw [List.append_assoc]
  refine Emission.reports_bind (reports_push hf hl) fun _ _ => ?_
  refine Emission.reports_bind (reports_push hf hr) fun _ _ => ?_
  cases inst.ty.valType? with
  | some t => exact reports_ok _
  | none => exact reports_failed _ _

theorem reports_lowerCall (hf : f.Mirrors s.body before after) (callee : InstId)
    (args : List InstId) : Reports (s.lowerCall f inst callee args).result
      (s.body.calleeFailures inst callee ++ args.flatMap s.body.literalFailures) := by
  refine Emission.reports_require_bind fun _ _ => ?_
  unfold Body.calleeFailures
  cases s.body.callee? callee with
  | some target =>
      exact Emission.reports_bind_ok (reports_pushOperands hf args) fun _ _ => reports_ok _
  | none =>
      refine Emission.reports_require_bind fun through ht => ?_
      rw [Body.inst_eq_ok.mp ht]
      exact reports_failed _ _

theorem reports_takeSlot (f : Frame) : Reports f.takeSlot.result [] :=
  Emission.reports_require_bind fun _ _ => reports_ok _

/-- An instruction fails at the first thing that cannot be lowered in it. -/
theorem reports_lower (hf : f.Mirrors s.body before after) (inst : Inst) :
    Reports (s.lower f inst).result (s.body.loweringFailures inst) := by
  unfold lower Body.loweringFailures
  cases inst.kind with
  | arg index =>
      dsimp only
      split
      · exact reports_takeSlot f
      · exact reports_broken _ _
  | alloc => exact reports_takeSlot f
  | load ptr => exact Emission.reports_bind_ok (reports_pushOperand hf ptr) fun _ _ => reports_ok _
  | store ptr value => exact reports_lowerStore hf ptr value
  | add lhs rhs => exact reports_lowerAdd hf lhs rhs
  | call callee args => exact reports_lowerCall hf callee args
  | ret operand =>
      exact Emission.reports_bind_ok (reports_pushOperand hf operand) fun _ _ => reports_ok _
  | retVoid => exact reports_ok _
  | dbgStmt line column => exact reports_ok _
  | _ => exact reports_failed _ _

theorem reports_step (hf : f.Mirrors s.body before after) (hi : s.body.get? i = some inst) :
    Reports (s.step f i).result (s.body.loweringFailures inst) := by
  refine Emission.reports_require_bind fun inst' hi' => ?_
  obtain rfl : inst = inst' := Option.some.inj (hi.symm.trans (Body.inst_eq_ok.mp hi'))
  rw [← List.nil_append (s.body.loweringFailures inst)]
  refine Emission.reports_bind (reports_ok ()) fun _ _ => ?_
  exact Emission.reports_bind_ok (reports_lower hf inst) fun v _ => Emission.reports_require _

theorem reports_lowerAll {rest : List InstId} (hf : f.Mirrors s.body before rest) :
    Reports (s.lowerAll f rest).result
      ((rest.filterMap s.body.get?).flatMap s.body.loweringFailures) := by
  induction rest generalizing f before with
  | nil => exact reports_ok f
  | cons i is ih =>
      unfold lowerAll
      cases hi : s.body.get? i with
      | none =>
          have hx : s.body.inst i = .error (.indexOutOfRange i.index.toNat s.body.insts.size) := by
            simp [Body.inst, hi]
          rw [step, hx]
          exact reports_broken _ _
      | some inst =>
          rw [List.filterMap_cons_some hi, List.flatMap_cons]
          refine Emission.reports_bind (reports_step hf hi) fun f' hs => ?_
          exact ih (step_yields hf ⟨rfl, hs⟩).2.2

end Scope

/-! ## Stages -/

namespace Decl

variable {d : Decl} {s : Signature} {b : Body} {slots : Slots}

theorem reports_typed (d : Decl) : Reports d.typed d.typeFailures := by
  unfold typed typeFailures
  cases d.signature? with
  | none => exact reports_failed _ _
  | some s =>
      dsimp only
      rw [s.entry_snd]
      cases s.causes with
      | nil => exact reports_ok s
      | cons cause causes => exact reports_failed _ _

theorem reports_counted (d : Decl) (s : Signature) (b : Body) :
    Reports (d.counted s b) ((b.code.filterMap b.get?).flatMap Inst.slotFailures) := by
  refine (Slots.reports_ofRest b 0 b.code).bind_ok fun slots _ => ?_
  split
  · exact reports_ok slots
  · exact reports_broken _ _

theorem reports_lowered (d : Decl) (b : Body) (slots : Slots) :
    Reports (d.lowered b slots) ((b.code.filterMap b.get?).flatMap b.loweringFailures) := by
  have hl := Scope.reports_lowerAll (s := ⟨d.name, b⟩) (Frame.mirrors_empty b)
  refine hl.bind_ok fun frame _ => ?_
  exact reports_mapError_broken_bind fun _ _ => reports_ok _

theorem ofBlock_of_counted (h : d.counted s b = .ok slots) :
    Slots.ofBlock b b.code = .ok slots := by
  obtain ⟨slots', hs, h⟩ := bind_eq_ok.mp h
  split at h
  · cases h; exact hs
  · cases h

theorem eq_of_lowered {os : List Op} (h : d.lowered b slots = .ok os) :
    os = b.loweredAll ∧ b.Lowerable := by
  obtain ⟨frame, hf, h⟩ := bind_eq_ok.mp h
  obtain ⟨ho, -, hl⟩ := Scope.lowerAll_block (s := ⟨d.name, b⟩) hf
  obtain ⟨_, -, h⟩ := bind_eq_ok.mp h
  cases h
  exact ⟨ho, hl⟩

/-- Once all slots are counted and the block is lowered, only the size can be refused. -/
theorem reports_sized (d : Decl) (id : DeclId) (entry : List UInt8)
    (hs : Slots.ofBlock b b.code = .ok slots) (hl : b.Lowerable) :
    Reports (d.sized id entry slots b.loweredAll)
      (if b.sizeBehindPrefix < UInt32.size then []
        else [d.failure (.oversizedBody d.name b.sizeBehindPrefix)]) := by
  rw [← Body.linkedSize_eq hs hl]
  show Reports (if b.linkedSize slots < UInt32.size then _ else _) _
  split
  · exact reports_ok _
  · exact reports_failed _ _

theorem reports_generateBody (d : Decl) (id : DeclId) (s : Signature) (b : Body) :
    Reports (d.generateBody id s b) (b.failures ++
      if b.sizeBehindPrefix < UInt32.size then []
      else [d.failure (.oversizedBody d.name b.sizeBehindPrefix)]) := by
  rw [Body.failures, List.append_assoc]
  refine (d.reports_counted s b).bind fun slots hs => ?_
  refine (d.reports_lowered b slots).bind fun os ho => ?_
  obtain ⟨rfl, hl⟩ := eq_of_lowered ho
  exact d.reports_sized id _ (ofBlock_of_counted hs) hl

theorem reports_generate (d : Decl) (id : DeclId) : Reports (d.generate id) d.failures := by
  refine d.reports_typed.bind fun s _ => ?_
  unfold defined bodyFailures
  cases d.body? with
  | none => exact reports_failed _ _
  | some b => exact d.reports_generateBody id s b

end Decl

/-- The failure that is reported is the first that there is, in a message that names what it is
about, and code is generated only where nothing fails. A well-formed declaration with a failure is
always reported. -/
theorem failures_generateFunction (id : DeclId) (d : Decl) :
    (∀ f, generateFunction id d = .error (.failed f) → d.failures.head? = some f ∧
        ∀ q ∈ f.cause.quotes, q.toList <:+: f.message.toList) ∧
      (∀ fc, generateFunction id d = .ok fc → d.failures = []) ∧
      (d.WellFormed → ∀ f, d.failures.head? = some f →
        generateFunction id d = .error (.failed f)) := by
  have hr : Reports (generateFunction id d) d.failures := by
    rw [generateFunction_eq]
    exact d.reports_generate id
  refine ⟨fun f hf => ⟨hr.failed f hf, fun q hq => Cause.infix_message hq⟩, hr.ok,
    fun hw f hf => ?_⟩
  have hi : Intact (generateFunction id d) := intact_generateFunction hw
  rcases intact_iff.mp hi with ⟨fc, hfc⟩ | ⟨f', hf'⟩
  · rw [hr.ok fc hfc] at hf
    cases hf
  · rw [hr.failed f' hf'] at hf
    cases hf
    exact hf'

/-! ## A function with four failures -/

/-- Adds a literal that is too large and one without a value type, as a sum without one, and
multiplies the sum. -/
def Body.crowded : Body where
  insts := #[
    ⟨.int true 32, .arg 0, .synthetic⟩,
    ⟨.int true 32, .constant (.int 0x80000000), ⟨0, 10, 20⟩⟩,
    ⟨.bool, .constant (.bool true), ⟨0, 23, 27⟩⟩,
    ⟨.bool, .add ⟨1⟩ ⟨2⟩, ⟨0, 10, 27⟩⟩,
    ⟨.int true 32, .mul ⟨3⟩ ⟨0⟩, ⟨0, 8, 32⟩⟩,
    ⟨.noReturn, .ret ⟨4⟩, .synthetic⟩]
  code := [⟨0⟩, ⟨3⟩, ⟨4⟩, ⟨5⟩]

def Decl.crowded : Decl := .function "crowded" ⟨[.int true 32], .int true 32⟩ .crowded

theorem failures_generateFunction_crowded :
    Decl.crowded.WellFormed ∧ Body.crowded.failures =
        [⟨⟨0, 10, 20⟩, .constantRange (.int 0x80000000) (.int true 32)⟩,
          ⟨⟨0, 23, 27⟩, .constantType .bool⟩, ⟨⟨0, 10, 27⟩, .addType .bool⟩,
          ⟨⟨0, 8, 32⟩, .unimplemented "mul"⟩] ∧
      ∃ f, generateFunction ⟨2⟩ .crowded = .error (.failed f) ∧
        Decl.crowded.failures.head? = some f ∧ f.span = ⟨0, 10, 20⟩ ∧
        "2147483648".toList <:+: f.message.toList ∧ "i32".toList <:+: f.message.toList := by
  have hw : Decl.crowded.WellFormed := by decide
  obtain ⟨hfirst, -, hall⟩ := failures_generateFunction ⟨2⟩ .crowded
  have h := hall hw ⟨⟨0, 10, 20⟩, .constantRange (.int 0x80000000) (.int true 32)⟩ rfl
  obtain ⟨hhead, hquotes⟩ := hfirst _ h
  exact ⟨hw, rfl, _, h, hhead, rfl, hquotes _ (by decide), hquotes _ (by decide)⟩

end WasmLowering
