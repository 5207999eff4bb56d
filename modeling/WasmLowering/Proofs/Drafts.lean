import Mathlib.Data.List.Induction
import WasmLowering.Ir.Draft
import WasmLowering.Proofs.SoundBlocks

/-!
# Drafted bodies

A draft numbers its instructions in the order of its steps, and its block names those that are not
literals, in the same order. So every entry of the block is there and stands there once, whatever the
operands refer to. Of the invariants that lowering checks, only those about operands and arguments
are left to be broken, and a literal is refused as an instruction only if it was added as one.
-/

namespace WasmLowering

/-! ## Steps -/

theorem getElem?_concat_eq_some_iff {α : Type} {l : List α} {a b : α} {k : Nat} :
    (l ++ [a])[k]? = some b ↔ l[k]? = some b ∨ k = l.length ∧ a = b := by
  rcases Nat.lt_trichotomy k l.length with h | rfl | h
  · simp [List.getElem?_append_left h, h.ne]
  · simp
  · have hl : l[k]? = none := List.getElem?_eq_none h.le
    have ha : (l ++ [a])[k]? = none := List.getElem?_eq_none (by
      rw [List.length_append]
      exact h)
    simp [hl, ha, h.ne']

namespace Body

theorem Step.isScheduled_iff {s : Step} :
    s.isScheduled = true ↔ ∀ ty value, s ≠ .constant ty value := by
  cases s <;> simp [isScheduled]

namespace Draft

/-- The draft holds what `steps` have added to it. -/
structure Records (d : Draft) (steps : List Step) : Prop where
  insts : d.insts.toList = steps.map Step.inst
  short : d.code.size ≤ steps.length
  ordered : d.code.toList.Pairwise fun i j => i.index < j.index
  mem_code : ∀ i, i ∈ d.code.toList ↔
    ∃ s, steps[i.index.toNat]? = some s ∧ s.isScheduled = true

variable {d : Draft} {steps : List Step}

theorem records_empty : empty.Records [] where
  insts := rfl
  short := Nat.le_refl _
  ordered := List.Pairwise.nil
  mem_code := by simp [empty]

theorem Records.nextId (h : d.Records steps) : d.nextId = ⟨UInt32.ofNat steps.length⟩ := by
  have hs := congrArg List.length h.insts
  rw [Array.length_toList, List.length_map] at hs
  rw [Draft.nextId, hs]

theorem toList_code_add (d : Draft) (s : Step) :
    (d.add s).code.toList = d.code.toList ++ if s.isScheduled then [d.nextId] else [] := by
  cases d with
  | mk insts code => cases hs : s.isScheduled <;> simp [add, Draft.nextId, hs]

/-- A step appends one instruction, and its id is larger than those in the block. -/
theorem Records.add (h : d.Records steps) (hn : steps.length < UInt32.size) (s : Step) :
    (d.add s).Records (steps ++ [s]) := by
  have hid : d.nextId.index.toNat = steps.length := by
    rw [h.nextId]
    exact UInt32.toNat_ofNat_of_lt' hn
  have hlt : ∀ i ∈ d.code.toList, i.index.toNat < steps.length := by
    intro i hi
    obtain ⟨s, hs, -⟩ := (h.mem_code i).mp hi
    exact (List.getElem?_eq_some_iff.mp hs).1
  have heq : ∀ i : InstId, i.index.toNat = steps.length ↔ i = d.nextId := by
    intro i
    rw [← hid, InstId.toNat_index_inj]
  refine ⟨?insts, ?short, ?ordered, ?mem⟩
  case insts => cases d; simp [Draft.add, ← h.insts]
  case short =>
    have hs := h.short
    rw [← Array.length_toList, toList_code_add, List.length_append, Array.length_toList,
      List.length_append, List.length_singleton]
    split
    · rw [List.length_singleton]
      omega
    · rw [List.length_nil]
      omega
  case ordered =>
    rw [toList_code_add]
    split
    · refine List.pairwise_append.mpr ⟨h.ordered, List.pairwise_singleton .., ?_⟩
      intro i hi j hj
      obtain rfl := List.mem_singleton.mp hj
      rw [UInt32.lt_iff_toNat_lt, hid]
      exact hlt i hi
    · rw [List.append_nil]
      exact h.ordered
  case mem =>
    intro i
    rw [toList_code_add, List.mem_append, h.mem_code]
    simp only [getElem?_concat_eq_some_iff, heq]
    constructor
    · rintro (⟨s', hs', hsched⟩ | hi)
      · exact ⟨s', .inl hs', hsched⟩
      · split at hi
        · next hsched => exact ⟨s, .inr ⟨List.mem_singleton.mp hi, rfl⟩, hsched⟩
        · cases hi
    · rintro ⟨s', hs' | ⟨rfl, rfl⟩, hsched⟩
      · exact .inl ⟨s', hs', hsched⟩
      · exact .inr (by simp [hsched])

theorem records_foldl (hn : steps.length ≤ UInt32.size) :
    (steps.foldl Draft.add empty).Records steps := by
  induction steps using List.reverseRecOn with
  | nil => exact records_empty
  | append_singleton steps s ih =>
      rw [List.length_append, List.length_singleton] at hn
      rw [List.foldl_append]
      exact (ih (by omega)).add hn s

end Draft

/-! ## Bodies -/

/-- The body that `steps` put together: each step gives its number as an id, which denotes what it
added, and the block has the ids of all steps but those that added a literal only. -/
structure Drafted (b : Body) (steps : List Step) : Prop where
  ids : ∀ k < steps.length, ((steps.take k).foldl Draft.add .empty).nextId.index.toNat = k
  constants : ∀ (i : InstId) ty value, steps[i.index.toNat]? = some (.constant ty value) →
    b.get? i = some ⟨ty, .constant value, .synthetic⟩
  pushed : ∀ (i : InstId) ty kind span, steps[i.index.toNat]? = some (.push ty kind span) →
    b.get? i = some ⟨ty, kind, span⟩
  args : ∀ (i : InstId) ty index, steps[i.index.toNat]? = some (.arg ty index) →
    b.get? i = some ⟨ty, .arg index, .synthetic⟩
  /-- A stack slot is of a type that points to what it holds. -/
  allocs : ∀ (i : InstId) elem, steps[i.index.toNat]? = some (.alloc elem) →
    b.get? i = some ⟨.ptr elem, .alloc, .synthetic⟩
  /-- No instruction is in the arena but those of the steps. -/
  size : b.insts.size = steps.length
  ordered : b.code.Pairwise fun i j => i.index < j.index
  scheduled : ∀ i, i ∈ b.code ↔
    ∃ s, steps[i.index.toNat]? = some s ∧ ∀ ty value, s ≠ .constant ty value

theorem get?_ofSteps {steps : List Step} (hn : steps.length ≤ UInt32.size) (i : InstId) :
    (ofSteps steps).get? i = steps[i.index.toNat]?.map Step.inst := by
  have hi := (Draft.records_foldl hn).insts
  rw [get?, ofSteps, Draft.finish, ← Array.getElem?_toList, hi, List.getElem?_map]

theorem drafted_ofSteps {steps : List Step} (hn : steps.length ≤ UInt32.size) :
    (ofSteps steps).Drafted steps where
  ids k hk := by
    have hlen : (steps.take k).length = k := by rw [List.length_take]; omega
    have hid := (Draft.records_foldl (hlen.trans_le (by omega))).nextId
    rw [hid, hlen]
    exact UInt32.toNat_ofNat_of_lt' (by omega)
  constants i ty value hs := by rw [get?_ofSteps hn, hs]; rfl
  pushed i ty kind span hs := by rw [get?_ofSteps hn, hs]; rfl
  args i ty index hs := by rw [get?_ofSteps hn, hs]; rfl
  allocs i elem hs := by rw [get?_ofSteps hn, hs]; rfl
  size := by
    have hs := congrArg List.length (Draft.records_foldl hn).insts
    rwa [List.length_map, Array.length_toList] at hs
  ordered := (Draft.records_foldl hn).ordered
  scheduled i := by
    simp only [← Step.isScheduled_iff]
    exact (Draft.records_foldl hn).mem_code i

theorem sound_ofSteps {steps : List Step} (hn : steps.length < UInt32.size) :
    (ofSteps steps).Sound where
  short := Nat.lt_of_le_of_lt (Draft.records_foldl hn.le).short hn
  present i hi := by
    obtain ⟨s, hs, -⟩ := ((drafted_ofSteps hn.le).scheduled i).mp hi
    rw [get?_ofSteps hn.le, hs]
    rfl
  distinct := (drafted_ofSteps hn.le).ordered.imp fun h he => by
    rw [he] at h
    exact absurd h (UInt32.lt_irrefl _)

end Body

/-! ## Functions -/

/-- The entry of the block that stopped the lowering: a literal that was pushed like an
instruction. -/
structure Body.RefusesPushed (b : Body) (steps : List Step) (fn : String) (f : Failure)
    (before : List InstId) (i : InstId) (after : List InstId) : Prop where
  code : b.code = before ++ i :: after
  stops : ∃ frame, ((Scope.mk fn b).lowerAll .empty before).result = .ok frame ∧
    ((Scope.mk fn b).step frame i).result = .error (.failed f)
  pushed : ∃ ty value, steps[i.index.toNat]? = some (.push ty (.constant value) f.span)

section

variable {steps : List Body.Step} {id : DeclId} {name : String} {s : Signature}

theorem blamesUse_ofSteps (hn : steps.length < UInt32.size) :
    BlamesUse (generateFunction id (.function name s (.ofSteps steps))) := by
  rw [generateFunction_eq]
  refine Decl.blamesUse_generate id fun b hb => ?_
  cases hb
  exact Body.sound_ofSteps hn

/-- A step that schedules a literal is a push. -/
theorem Body.Step.eq_push {st : Step} {value : Literal} (hs : st.isScheduled = true)
    (hk : st.inst.kind = .constant value) :
    st = .push st.inst.ty (.constant value) st.inst.span := by
  cases st with
  | constant ty value => cases hs
  | push ty kind span => cases hk; rfl
  | arg ty index => cases hk
  | alloc elem => cases hk

theorem exists_refusesPushed (hn : steps.length ≤ UInt32.size) {f : Failure}
    (h : generateFunction id (.function name s (.ofSteps steps)) = .error (.failed f))
    (hc : f.cause = .unimplemented "constant") : ∃ before i after,
      (Body.ofSteps steps).RefusesPushed steps name f before i after := by
  have ht : f.cause.tag? = some "constant" := by rw [hc]; rfl
  rw [generateFunction_eq] at h
  obtain ⟨b, hb, hl⟩ := Decl.lowerAll_eq_error h ht
  cases hb
  obtain ⟨before, i, after, frame, hcode, hbefore, hstep⟩ := Scope.exists_step_eq_error hl
  refine ⟨before, i, after, hcode, ⟨frame, hbefore, hstep⟩, ?pushed⟩
  obtain ⟨st, hst, hsched⟩ :=
    ((Body.drafted_ofSteps hn).scheduled i).mp (hcode ▸ by simp)
  have hi : (Body.ofSteps steps).get? i = some st.inst := by rw [Body.get?_ofSteps hn, hst]; rfl
  obtain ⟨-, hm, -⟩ := Scope.lowerAll_front_yields hcode ⟨rfl, hbefore⟩
  have hf := Scope.eq_unimplemented_of_step hm hi hstep ht
  subst hf
  obtain ⟨value, hk⟩ := InstKind.eq_constant_of_tag (Cause.unimplemented.inj hc)
  have hp := Body.Step.eq_push (Body.Step.isScheduled_iff.mpr hsched) hk
  exact ⟨st.inst.ty, value, hst.trans (congrArg some hp)⟩

/-- Whatever the operands refer to and whatever the function promises, every entry of a drafted
block is found and is lowered once, and literals that were added as such stay out of the way. -/
theorem generateFunction_ofSteps {steps : List Body.Step} (hn : steps.length < UInt32.size) :
    (Body.ofSteps steps).Drafted steps ∧ ∀ (id : DeclId) (name : String) (s : Signature),
      let code := generateFunction id (.function name s (.ofSteps steps))
      (∀ i size, code ≠ .error (.broken (.indexOutOfRange i size))) ∧
      (∀ i, code ≠ .error (.broken (.loweredTwice i))) ∧
      ∀ f, code = .error (.failed f) → f.cause = .unimplemented "constant" →
        ∃ before i after, (Body.ofSteps steps).RefusesPushed steps name f before i after := by
  refine ⟨Body.drafted_ofSteps hn.le, fun id name s => ⟨?present, ?once, ?literals⟩⟩
  case present => exact fun i size h => blamesUse_ofSteps hn _ h
  case once => exact fun i h => blamesUse_ofSteps hn _ h
  case literals => exact fun f h hc => exists_refusesPushed hn.le h hc

/-- Of two literals, the one that was pushed is refused. The operands of the addition refer to
nothing. -/
theorem generateFunction_ofSteps_pushed :
    let i32 := Ty.int true 32
    let steps := [.constant i32 (.int 7), .push i32 (.constant (.int 3)) ⟨0, 4, 9⟩,
      .push i32 (.add ⟨9⟩ ⟨9⟩) ⟨0, 5, 1⟩]
    let f := ⟨⟨0, 4, 9⟩, .unimplemented "constant"⟩
    steps.length < UInt32.size ∧
      generateFunction ⟨0⟩ (.function "f" ⟨[], .void⟩ (.ofSteps steps)) = .error (.failed f) ∧
      ∃ before i after, (Body.ofSteps steps).RefusesPushed steps "f" f before i after :=
  ⟨by decide, rfl, ((generateFunction_ofSteps (by decide)).2 ⟨0⟩ "f" ⟨[], .void⟩).2.2 _ rfl rfl⟩

end

end WasmLowering
