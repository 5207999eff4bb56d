import WasmLowering.Proofs.Generation

/-!
# The stages of generation

Generation comes to the same as five stages without a buffer: the signature has an entry, there is a
body, the slots of its block are counted, the block is lowered to operations, and their bytes are
given a size. How generation ends is how the first stage ends that stops.
-/

namespace WasmLowering

namespace Decl

variable (d : Decl)

/-- A failure at the place of the declaration. -/
def failure (cause : Cause) : Failure := ⟨d.span, cause⟩

/-- A signature whose types all have an entry. -/
def typed : Except Stop Signature :=
  match d.signature? with
  | none => .error (.failed (d.failure (.nonFunctionType d.name d.ty)))
  | some s =>
    match s.entry.2 with
    | none => .ok s
    | some cause => .error (.failed (d.failure cause))

def defined : Except Stop Body :=
  match d.body? with
  | none => .error (.failed (d.failure (.missingBody d.name)))
  | some b => .ok b

/-- The slots of the block, with one argument for each parameter. -/
def counted (s : Signature) (b : Body) : Except Stop Slots := do
  let slots ← Slots.ofBlock b b.code
  if slots.args = s.params.length then .ok slots
  else .error (.broken (.argumentCount d.name s.params.length slots.args))

/-- The operations of a block that takes the slots counted for it. -/
def lowered (b : Body) (slots : Slots) : Except Stop (List Op) := do
  let block := (Scope.mk d.name b).lowerAll .empty b.code
  let frame ← block.result
  (slots.checkDense d.name frame.slots).mapError .broken
  return block.ops

/-- The code of operations, unless they are too many. -/
def sized (id : DeclId) (entry : List UInt8) (slots : Slots) (os : List Op) :
    Except Stop FunctionCode :=
  let block := (os ++ [Op.endMark]).flatMap Op.bytes
  let relocs := relocsFrom slots.blockStart os
  let size := slots.table.length + block.length + relocs.length * paddedWidth
  if size < UInt32.size then
    .ok ⟨id, d.name, entry, Leb.padded paddedWidth size ++ slots.table ++ block, relocs⟩
  else .error (.failed (d.failure (.oversizedBody d.name size)))

def generateBody (id : DeclId) (s : Signature) (b : Body) : Except Stop FunctionCode := do
  let slots ← d.counted s b
  let os ← d.lowered b slots
  d.sized id s.entry.1 slots os

def generate (id : DeclId) : Except Stop FunctionCode := do
  let s ← d.typed
  let b ← d.defined
  d.generateBody id s b

end Decl

/-! ## The steps of a context as stages -/

namespace Context

variable {c : Context} {b : Body} {slots : Slots}

/-- What a step leaves in the buffers, or how it stopped. -/
def outcome (r : Context × Except Stop Unit) : Except Stop FunctionCode :=
  r.2.map fun _ => r.1.finish

theorem outcome_stop (c : Context) (s : Stop) : outcome (c.stop s) = .error s := by
  cases s <;> rfl

theorem outcome_fail (c : Context) (cause : Cause) :
    outcome (c.fail cause) = .error (.failed (c.decl.failure cause)) :=
  c.outcome_stop _

theorem slots_eq_counted {s : Signature} (hs : c.decl.signature? = some s) :
    c.slots b = c.decl.counted s b := by
  simp only [slots, Decl.counted, hs]
  rfl

theorem outcome_writeSize {os : List Op} (hr : c.relocs = relocsFrom slots.blockStart os)
    (hc : c.code.drop paddedWidth = slots.table ++ (os ++ [Op.endMark]).flatMap Op.bytes) :
    outcome (c.writeSize slots) = c.decl.sized c.id c.typeEntry slots os := by
  have hlen : c.code.length - paddedWidth
      = slots.table.length + ((os ++ [Op.endMark]).flatMap Op.bytes).length := by
    rw [← List.length_drop, hc, List.length_append]
  simp only [writeSize, Decl.sized, hlen, hr, hc, ← List.append_assoc]
  split
  · rfl
  · exact outcome_fail c _

theorem outcome_generateBlock (hc : c.code = List.replicate paddedWidth 0 ++ slots.table)
    (hr : c.relocs = []) :
    outcome (c.generateBlock b slots)
      = c.decl.lowered b slots >>= c.decl.sized c.id c.typeEntry slots := by
  have hlen : c.code.length = slots.blockStart := by simp [hc, Slots.blockStart]
  unfold generateBlock Decl.lowered
  cases he : ((Scope.mk c.decl.name b).lowerAll .empty b.code).result with
  | error s =>
      simp only [he, outcome_stop]
      rfl
  | ok frame =>
      simp only [he, bind, Except.bind]
      cases hd : slots.checkDense c.decl.name frame.slots with
      | error v => exact outcome_stop _ _
      | ok u =>
          refine outcome_writeSize ?_ ?_
          · simp [hr, hlen]
          · simp [hc]

theorem outcome_generateBody {s : Signature} (hc : c.code = []) (hr : c.relocs = [])
    (hs : c.decl.signature? = some s) (ht : c.typeEntry = s.entry.1) :
    outcome c.generateBody = c.decl.defined >>= c.decl.generateBody c.id s := by
  unfold generateBody Decl.defined
  rw [if_neg (by simp [hc])]
  cases hb : c.decl.body? with
  | none => exact outcome_fail _ _
  | some b =>
      have hslots : ({ c with code := List.replicate paddedWidth 0 } : Context).slots b
          = c.decl.counted s b := slots_eq_counted hs
      simp only [bind, Except.bind, Decl.generateBody, hslots]
      cases c.decl.counted s b with
      | error stop => exact outcome_stop _ _
      | ok slots => exact ht ▸ outcome_generateBlock rfl hr

theorem outcome_generate (id : DeclId) (d : Decl) :
    outcome (new id d).generate = d.generate id := by
  unfold generate generateType Decl.generate Decl.typed
  have hd : (new id d).decl = d := rfl
  rw [hd]
  cases hs : d.signature? with
  | none => exact outcome_fail _ _
  | some s =>
      cases ht : s.entry.2 with
      | some cause =>
          simp only [ht]
          exact outcome_fail _ _
      | none =>
          simp only [ht]
          exact outcome_generateBody (s := s) rfl rfl hs rfl

end Context

/-- Generation passes through its stages one after the other. -/
theorem generateFunction_eq (id : DeclId) (d : Decl) : generateFunction id d = d.generate id := by
  rw [← Context.outcome_generate]
  unfold generateFunction Context.outcome
  split
  · next h => rw [h]; rfl
  · next h => rw [h]; rfl

end WasmLowering
