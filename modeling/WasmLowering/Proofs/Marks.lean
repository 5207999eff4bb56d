import WasmLowering.Proofs.Lockstep
import WasmLowering.Proofs.ValueMap

/-!
# Marks leave no trace

Debug marks and returns without a value write nothing. What is generated does not change when they
are left out of the block, as long as no instruction refers to them. The two runs are compared like
those of a renumbering that keeps all ids, except that the values of the marks are left out.
-/

namespace WasmLowering

/-- Debug marks and returns without a value. -/
def InstKind.isMark : InstKind → Bool
  | retVoid | dbgStmt _ _ => true
  | _ => false

namespace Body

def isMark (b : Body) (i : InstId) : Bool := (b.get? i).any fun inst => inst.kind.isMark

/-- The block without the instructions of `drop`. They stay in the arena. -/
def without (b : Body) (drop : List InstId) : Body :=
  { b with code := b.code.filter fun i => i ∉ drop }

end Body

/-! ## Every id keeps its name -/

theorem InstKind.rename_id (k : InstKind) : k.rename id = k := by
  cases k <;> simp [rename]

theorem Inst.rename_id (inst : Inst) : inst.rename id = inst := by
  rw [rename, InstKind.rename_id]

theorem Violation.rename_id (v : Violation) : v.rename id = v := by
  cases v with
  | storeTarget v fn => cases v <;> rfl
  | _ => rfl

theorem alike_id_iff {α : Type} {x x' : Except Stop α} : Alike id Eq x x' ↔ x' = x := by
  constructor
  · intro h
    cases h with
    | ok h => rw [h]
    | failed f => rfl
    | broken v => rw [v.rename_id]
  · rintro rfl
    match x' with
    | .ok a => exact .ok rfl
    | .error (.failed f) => exact .failed f
    | .error (.broken v) =>
      have h := Alike.broken (R := Eq (α := α)) (σ := id) v
      rwa [v.rename_id] at h

section

variable {b : Body} {drop : List InstId}

theorem Body.matches_without : b.Matches (· ∉ drop) id (b.without drop) where
  injective _ _ _ _ h := h
  inst i _ := by
    rw [show Inst.rename id = id from funext Inst.rename_id, Except.map_id]
    rfl

/-! ## A mark in the block -/

theorem InstKind.isMark_iff {k : InstKind} :
    k.isMark = true ↔ k = .retVoid ∨ ∃ line column, k = .dbgStmt line column := by
  cases k <;> simp [isMark]

/-- A mark is lowered anywhere, to nothing. -/
theorem Body.exists_mark {i : InstId} (h : b.isMark i = true) (before : List InstId) :
    ∃ inst, b.get? i = some inst ∧ inst.kind.takesSlot = false ∧ b.loweredInst inst = [] ∧
      b.Lowers before inst := by
  obtain ⟨inst, hi, hk⟩ : ∃ inst, b.get? i = some inst ∧ inst.kind.isMark = true := by
    simpa [isMark, Option.any_eq_true] using h
  refine ⟨inst, hi, ?_⟩
  obtain hk | ⟨line, column, hk⟩ := InstKind.isMark_iff.mp hk
  · simp [Lowers, loweredInst, InstKind.takesSlot, hk]
  · simp [Lowers, loweredInst, InstKind.takesSlot, hk]

theorem Slots.ofRest_cons_of_not_takesSlot (n : Nat) {i : InstId} {is : List InstId} {inst : Inst}
    (hi : b.get? i = some inst) (hk : inst.kind.takesSlot = false) :
    ofRest b n (i :: is) = ofRest b n is := by
  rw [ofRest, Body.inst_eq_ok.mpr hi]
  dsimp only [Except.mapError, bind, Except.bind]
  cases hk' : inst.kind with
  | alloc => simp [hk', InstKind.takesSlot] at hk
  | arg index => simp [hk', InstKind.takesSlot] at hk
  | _ => rfl

theorem Slots.ofRest_without (n : Nat) {is : List InstId}
    (hm : ∀ i ∈ is, i ∈ drop → b.isMark i = true) :
    ofRest (b.without drop) n (is.filter fun i => i ∉ drop) = ofRest b n is := by
  induction is generalizing n with
  | nil => rfl
  | cons i is ih =>
      rw [List.forall_mem_cons] at hm
      by_cases hd : i ∈ drop
      · obtain ⟨inst, hi, hk, -⟩ := Body.exists_mark (hm.1 hd) []
        rw [List.filter_cons_of_neg (by simpa using hd), ofRest_cons_of_not_takesSlot n hi hk]
        exact ih n hm.2
      · rw [List.filter_cons_of_pos (by simpa using hd), ofRest, ofRest]
        simp only [fun m => ih m hm.2]
        rfl

namespace Scope

variable {f f' : Frame} {i : InstId} {before after : List InstId}

/-- A mark writes nothing, and only its own value is new. -/
theorem step_mark (fn : String) (hn : b.code.Nodup) (hf : f.Mirrors b before (i :: after))
    (hm : b.isMark i = true) (hd : i ∈ drop) (h : f.Matches (· ∉ drop) id f') :
    ∃ f₁, ((Scope.mk fn b).step f i).Yields [] f₁ ∧ f₁.Mirrors b (before ++ [i]) after ∧
      f₁.Matches (· ∉ drop) id f' := by
  obtain ⟨inst, hi, hk, ho, hl⟩ := Body.exists_mark hm before
  have hb : i ∉ before := by
    rw [hf.code] at hn
    exact fun hi => (List.nodup_append.mp hn).2.2 i hi i List.mem_cons_self rfl
  obtain ⟨os, f₁, hs⟩ := exists_step (s := ⟨fn, b⟩) hf ⟨inst, hi, hb, hl⟩
  obtain ⟨-, rfl, hf₁⟩ := step_yields hf hs
  rw [show b.lowered i = [] by rw [Body.lowered_eq hi, ho]] at hs
  refine ⟨f₁, hs, hf₁, ?slots, fun j hj => ?values, hf₁.noLiteral⟩
  case slots =>
    have ht : b.takesSlot i = false := by rw [Body.takesSlot, hi, Option.any_some, hk]
    rw [h.slots, hf.slots, hf₁.slots, List.countP_append, List.countP_singleton, ht]
    rfl
  case values =>
    have hji : j ≠ i := fun hji => hj (hji ▸ hd)
    rw [h.values j hj, hf.values, hf₁.values]
    simp [hji]

theorem alike_lowerAll_without (fn : String) (hn : b.code.Nodup)
    (hm : ∀ i ∈ b.code, i ∈ drop → b.isMark i = true)
    (hu : ∀ i ∈ b.code, ∀ inst ∈ b.get? i, ∀ o ∈ inst.kind.references, o ∉ drop)
    (hf : f.Mirrors b before after) (h : f.Matches (· ∉ drop) id f') :
    Emission.Alike id (Frame.Matches (· ∉ drop) id) ((Scope.mk fn b).lowerAll f after)
      ((Scope.mk fn (b.without drop)).lowerAll f' (after.filter fun i => i ∉ drop)) := by
  induction after generalizing before f f' with
  | nil => exact .pure h
  | cons i after ih =>
      have hi : i ∈ b.code := by simp [hf.code]
      by_cases hd : i ∈ drop
      · obtain ⟨f₁, ⟨ho, hr⟩, hf₁, h₁⟩ := step_mark fn hn hf (hm i hi hd) hd h
        have hrest := ih hf₁ h₁
        rw [List.filter_cons_of_neg (by simpa using hd), lowerAll, Emission.bind_of_ok _ hr]
        exact ⟨by rw [ho, List.nil_append, hrest.ops], hrest.result⟩
      · rw [List.filter_cons_of_pos (by simpa using hd)]
        refine (alike_step Body.matches_without h hd (hu i hi)).bind fun f₁ f₁' hr h₁ => ?_
        exact ih (step_yields hf ⟨rfl, hr⟩).2.2 h₁

end Scope

/-- Marks that no instruction of the block refers to can be left out. -/
theorem generateFunction_without {id : DeclId} {d : Decl} (hb : d.body? = some b)
    (hn : b.code.Nodup) (hm : ∀ i ∈ b.code, i ∈ drop → b.isMark i = true)
    (hu : ∀ i ∈ b.code, ∀ inst ∈ b.get? i, ∀ o ∈ inst.kind.references, o ∉ drop) :
    generateFunction id { d with body? := some (b.without drop) } = generateFunction id d := by
  rw [generateFunction_eq, generateFunction_eq]
  apply alike_id_iff.mp
  apply Decl.alike_generate id hb
  · exact alike_id_iff.mpr (Slots.ofRest_without 0 hm)
  · have h := Scope.alike_lowerAll_without d.name hn hm hu (Frame.mirrors_empty b)
      Frame.matches_empty
    exact ⟨h.ops, h.result.mono fun _ _ hf => hf.slots⟩

end

/-- Returns the sum of its argument and two, with marks in between and behind. -/
def Body.marked : Body where
  insts := #[
    ⟨.int true 32, .arg 0, .synthetic⟩,
    ⟨.int true 32, .constant (.int 2), .synthetic⟩,
    ⟨.void, .dbgStmt 3 1, .synthetic⟩,
    ⟨.int true 32, .add ⟨0⟩ ⟨1⟩, .synthetic⟩,
    ⟨.void, .dbgStmt 4 1, .synthetic⟩,
    ⟨.noReturn, .ret ⟨3⟩, .synthetic⟩,
    ⟨.noReturn, .retVoid, .synthetic⟩]
  code := [⟨2⟩, ⟨0⟩, ⟨3⟩, ⟨4⟩, ⟨5⟩, ⟨6⟩]

def Decl.marked : Decl := .function "marked" ⟨[.int true 32], .int true 32⟩ .marked

theorem Body.lowerable_marked : Body.marked.Lowerable := by
  refine ⟨?before, ?arg, ?add, ?between, ?ret, ?void, trivial⟩
  case before => exact ⟨_, rfl, by decide, trivial⟩
  case arg => exact ⟨_, rfl, by decide, rfl, by decide⟩
  case add =>
      exact ⟨_, rfl, by decide, ⟨_, rfl, .inr ⟨rfl, by decide⟩⟩,
        ⟨_, rfl, .inl ⟨_, _, rfl, rfl⟩⟩, rfl⟩
  case between => exact ⟨_, rfl, by decide, trivial⟩
  case ret => exact ⟨_, rfl, by decide, ⟨_, rfl, .inr ⟨rfl, by decide⟩⟩⟩
  case void => exact ⟨_, rfl, by decide, trivial⟩

theorem exists_generates_marked (id : DeclId) :
    ∃ fc, Generates id .marked ⟨[.int true 32], .int true 32⟩ .marked ⟨1, []⟩ fc := by
  refine ⟨_, rfl, ?_, rfl, rfl, rfl, Body.lowerable_marked, ?_, rfl⟩
  · decide +kernel
  · decide +kernel

theorem generateFunction_without_marked :
    Body.marked.without [⟨2⟩, ⟨6⟩] = { Body.marked with code := [⟨0⟩, ⟨3⟩, ⟨4⟩, ⟨5⟩] } ∧
      ∃ fc, generateFunction ⟨0⟩ .marked = .ok fc ∧
        generateFunction ⟨0⟩ { Decl.marked with body? := some (Body.marked.without [⟨2⟩, ⟨6⟩]) }
          = .ok fc := by
  refine ⟨rfl, ?_⟩
  obtain ⟨fc, hg⟩ := exists_generates_marked ⟨0⟩
  have ho := generateFunction_eq_ok_iff.mpr ⟨_, _, _, hg⟩
  refine ⟨fc, ho, Eq.trans (generateFunction_without rfl ?_ ?_ ?_) ho⟩
  · decide
  · decide
  · decide

end WasmLowering
