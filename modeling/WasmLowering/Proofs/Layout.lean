import WasmLowering.Proofs.Discipline
import WasmLowering.Proofs.Semantics

/-!
# Where arguments and stack slots lie

The slots of a block are numbered in its order, so the arguments lie where the parameters are and
the stack slots behind them. What the locals hold follows the block, instruction by instruction.
-/

namespace WasmLowering

variable {σ : Type}

/-! ## Slots -/

namespace Body

variable {b : Body} {i j : InstId}

theorem notMem_before {l r : List InstId} (hn : b.code.Nodup) (hc : b.code = l ++ i :: r) :
    i ∉ l := by
  rw [hc] at hn
  intro hm
  exact (List.nodup_append.mp hn).2.2 i hm i (List.mem_cons_self ..) rfl

theorem slotOf_lt_slotOf {l mid r : List InstId} (hn : b.code.Nodup)
    (hc : b.code = l ++ i :: (mid ++ j :: r)) (hi : b.takesSlot i = true) :
    b.slotOf i < b.slotOf j := by
  have hc' : b.code = (l ++ i :: mid) ++ j :: r := by simp [hc]
  rw [slotOf_eq hc (notMem_before hn hc), slotOf_eq hc' (notMem_before hn hc')]
  simp [List.countP_append, hi]

theorem slotOf_ne (hn : b.code.Nodup) (hi : i ∈ b.code) (hj : j ∈ b.code)
    (hti : b.takesSlot i = true) (htj : b.takesSlot j = true) (hij : i ≠ j) :
    b.slotOf i ≠ b.slotOf j := by
  obtain ⟨l, r, hc⟩ := List.append_of_mem hi
  rw [hc] at hj
  rcases List.mem_append.mp hj with hj | hj
  · obtain ⟨l₁, l₂, rfl⟩ := List.append_of_mem hj
    have hc' : b.code = l₁ ++ j :: (l₂ ++ i :: r) := by simp [hc]
    have := slotOf_lt_slotOf hn hc' htj
    omega
  · rcases List.mem_cons.mp hj with rfl | hj
    · exact absurd rfl hij
    · obtain ⟨r₁, r₂, rfl⟩ := List.append_of_mem hj
      have := slotOf_lt_slotOf hn hc hti
      omega

theorem slotOf_lt_countP (hn : b.code.Nodup) (hi : i ∈ b.code) (ht : b.takesSlot i = true) :
    b.slotOf i < b.code.countP b.takesSlot := by
  obtain ⟨l, r, hc⟩ := List.append_of_mem hi
  rw [slotOf_eq hc (notMem_before hn hc), hc]
  simp [List.countP_append, ht]

theorem slotOf_lt_args (hn : b.code.Nodup) (hf : b.ArgsFirst) (hi : i ∈ b.code)
    (ha : b.isArg i = true) : b.slotOf i < b.code.countP b.isArg := by
  obtain ⟨l, r, hc⟩ := List.append_of_mem hi
  have hl : l.countP b.takesSlot = l.countP b.isArg := by
    apply List.countP_congr
    intro j hj
    unfold ArgsFirst at hf
    rw [hc, List.pairwise_append] at hf
    have := hf.2.2 j hj i (List.mem_cons_self ..)
    simp [takesSlot_eq, ha] at this ⊢
    simp [this]
  rw [slotOf_eq hc (notMem_before hn hc), hc, hl]
  simp [List.countP_append, ha]

/-- The slots behind those of the parameters are the stack slots in the order of the block. -/
theorem slotOf_alloc (hn : b.code.Nodup) (hf : b.ArgsFirst) (hi : i ∈ b.code)
    (ha : b.isAlloc i = true) : ∃ k, b.slotOf i = b.code.countP b.isArg + k ∧
      (b.code.filter b.isAlloc)[k]? = some i := by
  obtain ⟨l, r, hc⟩ := List.append_of_mem hi
  have hr : r.countP b.isArg = 0 := by
    rw [List.countP_eq_zero]
    intro j hj
    unfold ArgsFirst at hf
    rw [hc, List.pairwise_append] at hf
    have := (List.pairwise_cons.mp hf.2.1).1 j hj
    simpa [ha] using this
  have hia := isArg_eq_false_of_isAlloc ha
  refine ⟨l.countP b.isAlloc, ?_, ?_⟩
  · rw [slotOf_eq hc (notMem_before hn hc), hc, countP_takesSlot]
    simp [List.countP_append, hia, hr]
  · rw [hc, List.filter_append, List.filter_cons_of_pos ha, List.countP_eq_length_filter]
    simp

end Body

/-! ## Locals -/

/-- The locals hold what the block has put into its slots after the instructions of `pre`. -/
structure Agrees (b : Body) (params : List Scalar) (pre : List InstId) (st : Store σ)
    (locals : List Scalar) : Prop where
  length : b.code.countP b.takesSlot ≤ locals.length
  args : ∀ i ∈ b.code, b.isArg i = true → locals[b.slotOf i]? = params[b.slotOf i]?
  values : ∀ i ∈ pre, b.isArg i = true → st.values i = params[b.slotOf i]?
  cells : ∀ i ∈ pre, b.isAlloc i = true → st.cells i = locals[b.slotOf i]?
  fresh : ∀ i ∈ b.code, i ∉ pre → b.isAlloc i = true →
    locals[b.slotOf i]? = (b.slotType? i).map Scalar.zero

namespace Agrees

variable {b : Body} {params locals : List Scalar} {pre : List InstId} {st : Store σ} {i : InstId}

theorem exists_local (h : Agrees b params pre st locals) (hn : b.code.Nodup) (hi : i ∈ b.code)
    (ht : b.takesSlot i = true) : ∃ v, locals[b.slotOf i]? = some v := by
  have hl := h.length
  have := Body.slotOf_lt_countP hn hi ht
  exact ⟨_, List.getElem?_eq_getElem (by omega)⟩

theorem define (h : Agrees b params pre st locals) (hi : i ∉ pre) (v : Scalar) :
    Agrees b params pre (st.define i v) locals where
  length := h.length
  args := h.args
  values j hj ha := by
    have hji : j ≠ i := fun he => hi (he ▸ hj)
    simpa [Store.define, hji] using h.values j hj ha
  cells := h.cells
  fresh := h.fresh

/-- One more instruction agrees when its own slot does. -/
theorem extend (h : Agrees b params pre st locals)
    (ha : b.isArg i = true → st.values i = params[b.slotOf i]?)
    (hl : b.isAlloc i = true → st.cells i = locals[b.slotOf i]?) :
    Agrees b params (pre ++ [i]) st locals where
  length := h.length
  args := h.args
  values j hj hja := by
    rcases List.mem_append.mp hj with hj | hj
    · exact h.values j hj hja
    · obtain rfl := List.mem_singleton.mp hj
      exact ha hja
  cells j hj hja := by
    rcases List.mem_append.mp hj with hj | hj
    · exact h.cells j hj hja
    · obtain rfl := List.mem_singleton.mp hj
      exact hl hja
  fresh j hj hp := h.fresh j hj fun hm => hp (List.mem_append_left _ hm)

theorem skip (h : Agrees b params pre st locals) (hs : b.takesSlot i = false) :
    Agrees b params (pre ++ [i]) st locals := by
  obtain ⟨ha, hl⟩ : b.isArg i = false ∧ b.isAlloc i = false := by simpa [Body.takesSlot_eq] using hs
  exact h.extend (by simp [ha]) (by simp [hl])

theorem arg (h : Agrees b params pre st locals) (hi : i ∉ pre) (ha : b.isArg i = true) {v : Scalar}
    (hv : params[b.slotOf i]? = some v) : Agrees b params (pre ++ [i]) (st.define i v) locals := by
  have hl := Body.isAlloc_eq_false_of_isArg ha
  exact (h.define hi v).extend (by simp [Store.define, hv]) (by simp [hl])

theorem alloc (h : Agrees b params pre st locals) (hc : i ∈ b.code) (hi : i ∉ pre)
    (ha : b.isAlloc i = true) {t : ValType} (ht : b.slotType? i = some t) :
    Agrees b params (pre ++ [i]) (st.write i (Scalar.zero t)) locals := by
  have hl := Body.isArg_eq_false_of_isAlloc ha
  have hw : Agrees b params pre (st.write i (Scalar.zero t)) locals := by
    refine ⟨h.length, h.args, h.values, ?_, h.fresh⟩
    intro j hj hja
    have hji : j ≠ i := fun he => hi (he ▸ hj)
    simpa [Store.write, hji] using h.cells j hj hja
  exact hw.extend (by simp [hl]) (by simp [Store.write, h.fresh i hc hi ha, ht])

theorem write (h : Agrees b params pre st locals) (hn : b.code.Nodup)
    (hsub : ∀ j ∈ pre, j ∈ b.code) (hi : i ∈ pre) (ha : b.isAlloc i = true) (v : Scalar) :
    Agrees b params pre (st.write i v) (locals.set (b.slotOf i) v) := by
  have hti : b.takesSlot i = true := Body.takesSlot_of_isAlloc ha
  have hother : ∀ j ∈ b.code, b.takesSlot j = true → j ≠ i →
      (locals.set (b.slotOf i) v)[b.slotOf j]? = locals[b.slotOf j]? := by
    intro j hj htj hji
    exact List.getElem?_set_ne (Body.slotOf_ne hn (hsub i hi) hj hti htj (Ne.symm hji))
  refine ⟨by simpa using h.length, ?_, h.values, ?_, ?_⟩
  · intro j hj hja
    have hji : j ≠ i := by
      rintro rfl
      rw [Body.isAlloc_eq_false_of_isArg hja] at ha
      cases ha
    rw [hother j hj (Body.takesSlot_of_isArg hja) hji]
    exact h.args j hj hja
  · intro j hj hja
    by_cases hji : j = i
    · subst hji
      have hlt := Body.slotOf_lt_countP hn (hsub j hj) hti
      have hlen := h.length
      simp [Store.write, List.getElem?_set_self (show b.slotOf j < locals.length by omega)]
    · rw [hother j (hsub j hj) (Body.takesSlot_of_isAlloc hja) hji]
      simpa [Store.write, hji] using h.cells j hj hja
  · intro j hj hp hja
    have hji : j ≠ i := by rintro rfl; exact hp hi
    rw [hother j hj (Body.takesSlot_of_isAlloc hja) hji]
    exact h.fresh j hj hp hja

/-- The parameters and one zero for each stack slot fit the empty store. -/
theorem start {s : σ} {types : List ValType} (hn : b.code.Nodup) (hf : b.ArgsFirst)
    (hp : params.length = b.code.countP b.isArg)
    (ht : types.map some = (b.code.filter b.isAlloc).map b.slotType?) :
    Agrees b params [] (.start s) (params ++ types.map Scalar.zero) where
  length := by
    have hl := congrArg List.length ht
    simp only [List.length_map, ← List.countP_eq_length_filter] at hl
    simp [Body.countP_takesSlot, hp, hl]
  args i hi ha := by
    have := Body.slotOf_lt_args hn hf hi ha
    exact List.getElem?_append_left (by omega)
  values i hi := by cases hi
  cells i hi := by cases hi
  fresh i hi _ ha := by
    obtain ⟨k, hk, hki⟩ := Body.slotOf_alloc hn hf hi ha
    have htk := congrArg (·[k]?) ht
    simp only [List.getElem?_map, hki, Option.map_some] at htk
    rw [hk, ← hp, List.getElem?_append_right (by omega)]
    cases hty : types[k]? with
    | none => simp [hty] at htk
    | some t =>
        simp only [hty, Option.map_some, Option.some.injEq] at htk
        simp [hty, ← htk]

end Agrees

end WasmLowering
