import WasmLowering.Proofs.Generation

/-!
# Results that wait on the stack

The result of a load, an addition or a call waits on the stack until an instruction takes it. A
block uses its results like a stack when every instruction takes the results produced last, in the
order of its operands, before it pushes its other operands.
-/

namespace WasmLowering

namespace InstKind

/-- The operands whose values an instruction takes; a load only looks where its pointer leads. -/
def takes : InstKind → List InstId
  | store _ value => [value]
  | add lhs rhs => [lhs, rhs]
  | call _ args => args
  | ret operand => [operand]
  | _ => []

def isReturn : InstKind → Bool
  | ret _ | retVoid => true
  | _ => false

def pointer? : InstKind → Option InstId
  | load ptr | store ptr _ => some ptr
  | _ => none

end InstKind

/-- Loads, additions and calls leave a result, except calls of a type without values. -/
def Inst.hasResult (inst : Inst) : Bool :=
  match inst.kind with
  | .load _ | .add _ _ => true
  | .call _ _ => !inst.ty.isVoid
  | _ => false

namespace Body

variable (b : Body)

def takes (i : InstId) : List InstId := ((b.get? i).map fun inst => inst.kind.takes).getD []

def pointer? (i : InstId) : Option InstId := do (← b.get? i).kind.pointer?

def isReturn (i : InstId) : Bool := (b.get? i).any fun inst => inst.kind.isReturn

def hasResult (i : InstId) : Bool := (b.get? i).any Inst.hasResult

/-- A literal of a type with values. -/
def isLiteral (i : InstId) : Bool :=
  (b.get? i).any fun inst => inst.kind.isConstant && !inst.ty.isVoid

/-- The operands are the last pending results, in the order in which they were produced, and behind
them operands that do not wait on the stack; `rest` is still pending then. -/
def Consumes (pending operands rest : List InstId) : Prop :=
  ∃ waiting direct, operands = waiting ++ direct ∧ pending = rest ++ waiting ∧
    (∀ i ∈ waiting, b.hasResult i = true) ∧ ∀ i ∈ direct, b.hasResult i = false

def produced (i : InstId) : List InstId := if b.hasResult i then [i] else []

/-- From the pending results `pending`, the instructions take and leave results like a stack and
`final` is pending at their end. -/
def Stacks (pending : List InstId) : List InstId → List InstId → Prop
  | [], final => pending = final
  | i :: is, final =>
    ∃ rest, b.Consumes pending (b.takes i) rest ∧ Stacks (rest ++ b.produced i) is final

def ArgsFirst : Prop := b.code.Pairwise fun i j => ¬(b.isAlloc i = true ∧ b.isArg j = true)

/-- A block that returns once, at its end, and whose results are used like a stack. Stack slots are
only looked into and written to; what is passed on are literals, arguments and results. -/
structure StackDisciplined : Prop where
  returns : ∃ front last, b.code = front ++ [last] ∧ b.isReturn last = true ∧
    ∀ i ∈ front, b.isReturn i = false
  argsFirst : b.ArgsFirst
  pointers : ∀ i ∈ b.code, (b.pointer? i).all b.isAlloc = true
  operands : ∀ i ∈ b.code, ∀ o ∈ b.takes i,
    b.isLiteral o = true ∨ b.isArg o = true ∨ b.hasResult o = true
  ordered : b.Stacks [] b.code []

variable {b}

theorem takes_eq {i : InstId} {inst : Inst} (h : b.get? i = some inst) :
    b.takes i = inst.kind.takes := by
  rw [takes, h]; rfl

theorem hasResult_eq {i : InstId} {inst : Inst} (h : b.get? i = some inst) :
    b.hasResult i = inst.hasResult := by
  rw [hasResult, h]; rfl

theorem produced_eq {i : InstId} {inst : Inst} (h : b.get? i = some inst) :
    b.produced i = if inst.hasResult then [i] else [] := by
  rw [produced, hasResult_eq h]

theorem pushOps_of_hasResult {i : InstId} (h : b.hasResult i = true) : b.pushOps i = [] := by
  unfold hasResult at h
  unfold pushOps
  cases hi : b.get? i with
  | none => rfl
  | some inst =>
      rw [hi] at h
      cases hk : inst.kind <;> simp_all [Inst.hasResult]

@[simp] theorem consumes_nil {pending rest : List InstId} :
    b.Consumes pending [] rest ↔ pending = rest := by
  constructor
  · rintro ⟨waiting, direct, ho, rfl, -, -⟩
    obtain ⟨rfl, -⟩ := List.append_eq_nil_iff.mp ho.symm
    exact List.append_nil _
  · rintro rfl
    exact ⟨[], [], rfl, (List.append_nil _).symm, by simp, by simp⟩

end Body

theorem Body.stackDisciplined_settle : Body.settle.StackDisciplined where
  returns := ⟨[⟨0⟩, ⟨1⟩, ⟨2⟩, ⟨3⟩, ⟨5⟩, ⟨7⟩], ⟨8⟩, rfl, by decide, by decide⟩
  argsFirst := by unfold ArgsFirst; decide
  pointers := by decide
  operands := by decide
  ordered :=
    ⟨[], consumes_nil.mpr rfl, [], consumes_nil.mpr rfl,
      [], ⟨[], [⟨0⟩], rfl, rfl, by decide, by decide⟩, [], consumes_nil.mpr rfl,
      [], ⟨[⟨3⟩], [⟨4⟩], rfl, rfl, by decide, by decide⟩,
      [], ⟨[⟨5⟩], [⟨0⟩], rfl, rfl, by decide, by decide⟩,
      [], ⟨[⟨7⟩], [], rfl, rfl, by decide, by decide⟩, rfl⟩

end WasmLowering
