import WasmLowering.Codegen.Context

/-!
# A context generates one body

The steps of a context can come in any order, and go on after a failure or a broken invariant. Only
the first body can be generated, and what was written for it stays as it is. A body that was not
completed is told by its size, which is still zero.
-/

namespace WasmLowering.Context

inductive Step where
  | type
  | body
deriving DecidableEq, Inhabited, Repr

def perform (c : Context) : Step → Context × Except Stop Unit
  | .type => c.generateType
  | .body => c.generateBody

/-- The context after some steps, however they ended. -/
def after (c : Context) (steps : List Step) : Context :=
  steps.foldl (fun c s => (c.perform s).1) c

/-- The steps one after the other, and how each of them ends. -/
def outcomes (c : Context) : List Step → List (Step × Except Stop Unit)
  | [] => []
  | s :: ss => (s, (c.perform s).2) :: (c.perform s).1.outcomes ss

def Step.isGenerated : Step × Except Stop Unit → Bool
  | (.body, .ok ()) => true
  | _ => false

/-- The record of failures behind a step that ends with `out`. -/
def recorded (failure? : Option Failure) : Except Stop Unit → Option Failure
  | .error (.failed f) => some f
  | _ => failure?

/-- What holds of `c` for all orders of its steps. -/
structure OneShot (c : Context) : Prop where
  once : ∀ steps, (c.outcomes steps).countP Step.isGenerated ≤ 1
  /-- A second body breaks an invariant and changes nothing. -/
  reused : ∀ first more, c.decl.body?.isSome → (c.after (first ++ .body :: more)).generateBody
    = (c.after (first ++ .body :: more), .error (.broken (.contextReused c.decl.name)))
  type : ∀ steps, ∃ bs failure?, (c.after steps).generateType.1
    = { c.after steps with typeEntry := (c.after steps).typeEntry ++ bs, failure? := failure? }
  body : ∀ steps, (c.after steps).generateBody.1.typeEntry = (c.after steps).typeEntry
  code : ∀ first more, (c.after first).code <+: (c.after (first ++ more)).code
  relocs : ∀ first more, (c.after first).relocs <+: (c.after (first ++ more)).relocs
  /-- The size in front of a body that is not completed stays zero. -/
  size : ∀ first more, c.decl.body?.isSome → .body ∉ first →
    (c.after first).generateBody.2 ≠ .ok () →
    (c.after (first ++ .body :: more)).code.take paddedWidth = List.replicate paddedWidth 0
  failed : ∀ steps s f, ((c.after steps).perform s).2 = .error (.failed f) →
    ((c.after steps).perform s).1.failure? = some f
  unfailed : ∀ steps s, (∀ f, ((c.after steps).perform s).2 ≠ .error (.failed f)) →
    ((c.after steps).perform s).1.failure? = (c.after steps).failure?

variable {c : Context}

/-! ## Steps -/

theorem stop_eq (c : Context) (s : Stop) :
    c.stop s = ({ c with failure? := recorded c.failure? (.error s) }, .error s) := by
  cases s <;> rfl

/-- Writing the type extends its entry and records a failure, and does nothing else. -/
theorem generateType_eq (c : Context) : ∃ bs, c.generateType.1
    = { c with
        typeEntry := c.typeEntry ++ bs
        failure? := recorded c.failure? c.generateType.2 } := by
  unfold generateType
  split
  · exact ⟨[], by simp [fail, stop_eq]⟩
  · next s _ =>
    refine ⟨s.entry.1, ?_⟩
    cases s.entry.2 with
    | none => rfl
    | some cause => rfl

/-- What the writing of a body into the empty buffer of `c` leaves, when it ends with `out`. -/
structure Writes (c c' : Context) (out : Except Stop Unit) : Prop where
  decl : c'.decl = c.decl
  typeEntry : c'.typeEntry = c.typeEntry
  width : paddedWidth ≤ c'.code.length
  relocs : c.relocs <+: c'.relocs
  size : out ≠ .ok () → c'.code.take paddedWidth = List.replicate paddedWidth 0
  failure : c'.failure? = recorded c.failure? out

theorem Writes.ne_nil {c' : Context} {out : Except Stop Unit} (h : Writes c c' out) :
    c'.code ≠ [] :=
  List.ne_nil_of_length_pos (Nat.lt_of_lt_of_le (by decide) h.width)

theorem writes_stop (code : List UInt8) {relocs : List Reloc} {events : List Event} (s : Stop)
    (hr : c.relocs <+: relocs) :
    let c' := { c with code := List.replicate paddedWidth 0 ++ code, relocs, events }
    Writes c (c'.stop s).1 (c'.stop s).2 := by
  simp only [stop_eq]
  exact ⟨rfl, rfl, by simp, hr, fun _ => by simp, rfl⟩

theorem writes_writeSize (code : List UInt8) {relocs : List Reloc} {events : List Event}
    (slots : Slots) (hr : c.relocs <+: relocs) :
    let c' := { c with code := List.replicate paddedWidth 0 ++ code, relocs, events }
    Writes c (c'.writeSize slots).1 (c'.writeSize slots).2 := by
  simp only [writeSize]
  split
  · exact ⟨rfl, rfl, by simp, hr, fun h => absurd rfl h, rfl⟩
  · exact writes_stop code _ hr

theorem writes_generateBlock (code : List UInt8) (b : Body) (slots : Slots) :
    let c' := { c with code := List.replicate paddedWidth 0 ++ code }
    Writes c (c'.generateBlock b slots).1 (c'.generateBlock b slots).2 := by
  have hr : ∀ rs, c.relocs <+: c.relocs ++ rs := fun rs => List.prefix_append ..
  simp only [generateBlock, List.append_assoc]
  split
  · exact writes_stop _ _ (hr _)
  · split
    · exact writes_stop _ _ (hr _)
    · exact writes_writeSize _ slots (hr _)

/-- A body is refused in a buffer that is not empty, and when there is none; else it is written. -/
theorem generateBody_cases (c : Context) :
    (c.code ≠ [] ∧ c.generateBody = (c, .error (.broken (.contextReused c.decl.name)))) ∨
    (c.code = [] ∧ c.decl.body? = none ∧ c.generateBody = c.fail (.missingBody c.decl.name)) ∨
    (c.code = [] ∧ c.decl.body?.isSome ∧ Writes c c.generateBody.1 c.generateBody.2) := by
  unfold generateBody
  by_cases hc : c.code = []
  · rw [if_neg (by simp [hc])]
    cases hb : c.decl.body? with
    | none => exact .inr (.inl ⟨hc, rfl, rfl⟩)
    | some b =>
        refine .inr (.inr ⟨hc, rfl, ?_⟩)
        dsimp only
        split
        · next s _ =>
          have hw := @writes_stop c [] c.relocs c.events s (List.prefix_refl _)
          rwa [List.append_nil] at hw
        · exact writes_generateBlock _ b _
  · rw [if_pos hc]
    exact .inl ⟨hc, rfl⟩

/-! ## Any step -/

/-- The declaration is the same, and the buffers of `c` are still there in `c'`. -/
structure Extends (c c' : Context) : Prop where
  decl : c'.decl = c.decl
  code : c.code <+: c'.code
  relocs : c.relocs <+: c'.relocs

theorem Extends.refl (c : Context) : c.Extends c :=
  ⟨rfl, List.prefix_refl _, List.prefix_refl _⟩

theorem Extends.trans {c₁ c₂ c₃ : Context} (h : c₁.Extends c₂) (h' : c₂.Extends c₃) :
    c₁.Extends c₃ :=
  ⟨h'.decl.trans h.decl, h.code.trans h'.code, h.relocs.trans h'.relocs⟩

theorem perform_extends (c : Context) (s : Step) :
    c.Extends (c.perform s).1 ∧ (c.perform s).1.failure? = recorded c.failure? (c.perform s).2 := by
  cases s with
  | type =>
      obtain ⟨bs, ht⟩ := c.generateType_eq
      simp only [perform]
      rw [ht]
      exact ⟨⟨rfl, List.prefix_refl _, List.prefix_refl _⟩, rfl⟩
  | body =>
      simp only [perform]
      rcases c.generateBody_cases with ⟨-, hb⟩ | ⟨-, -, hb⟩ | ⟨hc, -, hw⟩
      · rw [hb]
        exact ⟨.refl c, rfl⟩
      · rw [hb]
        exact ⟨⟨rfl, List.prefix_refl _, List.prefix_refl _⟩, rfl⟩
      · exact ⟨⟨hw.decl, hc ▸ List.nil_prefix, hw.relocs⟩, hw.failure⟩

/-- Once a body has been written, however that ended, the buffer is not empty. -/
theorem generateBody_code_ne_nil (hb : c.decl.body?.isSome) : c.generateBody.1.code ≠ [] := by
  rcases c.generateBody_cases with ⟨hne, h⟩ | ⟨-, hn, -⟩ | ⟨-, -, hw⟩
  · rwa [h]
  · rw [hn] at hb
    cases hb
  · exact hw.ne_nil

/-! ## Runs -/

theorem after_append (c : Context) (l r : List Step) : c.after (l ++ r) = (c.after l).after r :=
  List.foldl_append

theorem after_extends (c : Context) (steps : List Step) : c.Extends (c.after steps) := by
  induction steps generalizing c with
  | nil => exact .refl c
  | cons s ss ih => exact (c.perform_extends s).1.trans (ih _)

theorem code_after_type (c : Context) {steps : List Step} (h : .body ∉ steps) :
    (c.after steps).code = c.code := by
  induction steps generalizing c with
  | nil => rfl
  | cons s ss ih =>
      rw [List.mem_cons, not_or] at h
      cases s with
      | body => exact absurd rfl h.1
      | type =>
          obtain ⟨bs, ht⟩ := c.generateType_eq
          exact (ih c.generateType.1 h.2).trans (by rw [ht])

theorem code_after_body_ne_nil (hb : c.decl.body?.isSome) (first more : List Step) :
    (c.after (first ++ .body :: more)).code ≠ [] := by
  have hd := (c.after_extends first).decl
  have hbody : (c.after first).generateBody.1.code ≠ [] :=
    generateBody_code_ne_nil (by rw [hd]; exact hb)
  rw [after_append]
  exact ((c.after first).generateBody.1.after_extends more).code.ne_nil hbody

theorem countP_outcomes_eq_zero (hc : c.code ≠ []) (steps : List Step) :
    (c.outcomes steps).countP Step.isGenerated = 0 := by
  induction steps generalizing c with
  | nil => rfl
  | cons s ss ih =>
      have hc' : (c.perform s).1.code ≠ [] := (c.perform_extends s).1.code.ne_nil hc
      have hs : Step.isGenerated (s, (c.perform s).2) = false := by
        cases s with
        | type => rfl
        | body =>
            rcases c.generateBody_cases with ⟨-, hb⟩ | ⟨hn, -⟩ | ⟨hn, -⟩
            · rw [perform, hb]; rfl
            · exact absurd hn hc
            · exact absurd hn hc
      rw [outcomes, List.countP_cons_of_neg (by simp [hs]), ih hc']

theorem countP_outcomes_le_one (c : Context) (steps : List Step) :
    (c.outcomes steps).countP Step.isGenerated ≤ 1 := by
  induction steps generalizing c with
  | nil => exact Nat.zero_le _
  | cons s ss ih =>
      have hs : Step.isGenerated (s, (c.perform s).2) = false ∨ (c.perform s).1.code ≠ [] := by
        cases s with
        | type => exact .inl rfl
        | body =>
            rcases c.generateBody_cases with ⟨-, hb⟩ | ⟨-, -, hb⟩ | ⟨-, -, hw⟩
            · exact .inl (by rw [perform, hb]; rfl)
            · exact .inl (by rw [perform, hb]; rfl)
            · exact .inr hw.ne_nil
      rcases hs with hs | hc
      · rw [outcomes, List.countP_cons_of_neg (by simp [hs])]
        exact ih _
      · rw [outcomes, List.countP_cons, countP_outcomes_eq_zero hc]
        split <;> simp

/-- A fresh context, put through any steps in any order, generates at most one body. It refuses all
bodies behind the first one, keeps what it has written, leaves the size of a body that is not
completed at zero, and records the failures and nothing else. -/
theorem oneShot_new (id : DeclId) (d : Decl) : (new id d).OneShot where
  once := countP_outcomes_le_one _
  reused first more hb := by
    have hne := code_after_body_ne_nil hb first more
    have hd := ((new id d).after_extends (first ++ .body :: more)).decl
    rw [generateBody, if_pos hne, hd]
    rfl
  type steps := by
    obtain ⟨bs, ht⟩ := ((new id d).after steps).generateType_eq
    exact ⟨bs, _, ht⟩
  body steps := by
    rcases ((new id d).after steps).generateBody_cases with ⟨-, hb⟩ | ⟨-, -, hb⟩ | ⟨-, -, hw⟩
    · rw [hb]
    · rw [hb]
      rfl
    · exact hw.typeEntry
  code first more := by
    rw [after_append]
    exact (after_extends _ more).code
  relocs first more := by
    rw [after_append]
    exact (after_extends _ more).relocs
  size first more hb hfirst hout := by
    have hd := ((new id d).after_extends first).decl
    have hc : ((new id d).after first).code = [] := code_after_type _ hfirst
    rw [after_append]
    rcases ((new id d).after first).generateBody_cases with ⟨hne, -⟩ | ⟨-, hn, -⟩ | ⟨-, -, hw⟩
    · exact absurd hc hne
    · rw [hd] at hn
      rw [hn] at hb
      cases hb
    · obtain ⟨rest, hrest⟩ := (after_extends ((new id d).after first).generateBody.1 more).code
      rw [← hw.size hout]
      change List.take _ (after ((new id d).after first).generateBody.1 more).code = _
      rw [← hrest, List.take_append_of_le_length hw.width]
  failed steps s f hf := by
    rw [(perform_extends _ s).2, hf]
    rfl
  unfailed steps s hf := by
    rw [(perform_extends _ s).2]
    rcases hout : (((new id d).after steps).perform s).2 with (f | v) | u
    · exact absurd hout (hf f)
    · rfl
    · rfl

end WasmLowering.Context
