import WasmLowering.Error
import WasmLowering.Proofs.Publication

/-!
# Runs that stop at a failure

A run that aborts goes the way of a run that skips failures up to the first function that fails. It
stops there with the error that the other run reports first, and the linker has been told what comes
before that function and nothing else.
-/

namespace WasmLowering

/-- `a` is the run `r` over `t`, cut at the function `i` that fails with `f`. -/
structure Run.CutAt (t : DeclTable) (r a : Run) (i : DeclId) (f : Failure) : Prop where
  mem : i ∈ t.ids
  reported : ∃ d, t.get? i = some d ∧ t.refused? i = some (d, f) ∧
    r.code.diagnostics.head? = some { (Error.codegen f).diagnostic with source? := some d.name }
  first : ∀ j ∈ t.ids, j.index.toNat < i.index.toNat → t.refused? j = none
  earlier : ∀ n < i.index.toNat, a.table.entries[n]? = r.table.entries[n]?
  later : ∀ n ≥ i.index.toNat, a.table.entries[n]? = t.entries[n]?

namespace DeclTable

variable {t : DeclTable}

theorem pairwise_ids (t : DeclTable) :
    t.ids.Pairwise fun i j => i.index.toNat < j.index.toNat := by
  have h : (t.ids.map fun i => i.index.toNat).Pairwise (· < ·) := by
    rw [map_ids]
    exact List.pairwise_lt_range
  exact List.pairwise_map.mp h

theorem get?_of_refused? {i : DeclId} {d : Decl} {f : Failure} (h : t.refused? i = some (d, f)) :
    t.get? i = some d := by
  unfold refused? at h
  cases hd : t.get? i with
  | none => simp [hd] at h
  | some d' =>
      simp only [hd] at h
      split at h
      · split at h
        · cases h
        · cases h
          rfl
      · cases h
        rfl
      · cases h

theorem filterMap_diagnostic?_eq_nil {is : List DeclId} (h : ∀ i ∈ is, t.refused? i = none) :
    is.filterMap t.diagnostic? = [] := by
  rw [List.filterMap_eq_nil_iff]
  intro i hi
  rw [diagnostic?, h i hi, Option.map_none]

theorem link_append (t : DeclTable) (fs gs : List FunctionCode) :
    t.link (fs ++ gs) = (t.link fs).link gs :=
  List.foldl_append

/-- The linker is told nothing about a declaration by the functions of other ids. -/
theorem entries_link_published (u : DeclTable) {is : List DeclId} {n : Nat}
    (h : ∀ i ∈ is, i.index.toNat ≠ n) :
    (u.link (is.filterMap t.published?)).entries[n]? = u.entries[n]? := by
  rw [entries_link, filter_published_eq_nil fun i hi hn => absurd hn (h i hi)]
  simp

end DeclTable

namespace Run

variable {t : DeclTable} {done : List DeclId} {r : Run} {i : DeclId}

/-! ## Runs that break no invariant -/

theorem decls_visit (policy : Policy) (r : Run) (i : DeclId) :
    (r.visit policy i).1.table.decls = r.table.decls := by
  unfold visit
  split
  · rfl
  · split
    · rfl
    · dsimp only
      split
      · exact DeclTable.decls_addRelocs ..
      · rfl
      · cases policy <;> rfl

/-- Only a run that aborts fails, and it does so at a function that the table refuses. -/
theorem refused?_of_visit {policy : Policy} {f : Failure}
    (h : (r.visit policy i).2 = .error (.failed f)) :
    policy = .abort ∧ ∃ d, r.table.refused? i = some (d, f) := by
  unfold visit at h
  unfold DeclTable.refused?
  cases hd : r.table.get? i with
  | none => simp [hd] at h
  | some d =>
      cases hb : d.body? with
      | none => simp [hd, hb] at h
      | some b =>
          simp only [hd, hb, Option.isNone_some, Bool.false_eq_true, if_false,
            DeclTable.generate] at h
          cases hg : generateFunction i d with
          | error stop =>
              cases stop with
              | broken v => simp [hg, bind, Except.bind] at h
              | failed f' => cases policy <;> simp_all [bind, Except.bind]
          | ok code =>
              cases hc : code.checkCallees r.table d with
              | ok u =>
                  simp [hg, hc, bind, Except.bind, Except.mapError, pure, Except.pure] at h
              | error f' =>
                  cases policy <;> simp_all [bind, Except.bind, Except.mapError]

theorem refused?_of_visitAll {policy : Policy} {is : List DeclId} {f : Failure}
    (h : (r.visitAll policy is).2 = .error (.failed f)) :
    policy = .abort ∧ ∃ i ∈ is, ∃ d, r.table.refused? i = some (d, f) := by
  induction is generalizing r with
  | nil => cases h
  | cons i is ih =>
      have hdecls := decls_visit policy r i
      have hvisit : (r.visit policy i).2 = .error (.failed f) → _ := refused?_of_visit
      rw [visitAll] at h
      rcases hv : r.visit policy i with ⟨r', stop | u⟩
      · rw [hv] at h hvisit
        obtain ⟨hp, d, hd⟩ := hvisit h
        exact ⟨hp, i, List.mem_cons_self .., d, hd⟩
      · simp only [hv] at h hdecls
        obtain ⟨hp, j, hj, d, hd⟩ := ih h
        rw [DeclTable.refused?_congr hdecls] at hd
        exact ⟨hp, j, List.mem_cons_of_mem _ hj, d, hd⟩

theorem generateFunction_ne_broken_of_visit {policy : Policy}
    (h : ∀ v, (r.visit policy i).2 ≠ .error (.broken v)) {d : Decl} (hd : r.table.get? i = some d)
    (hb : d.body?.isSome) (v : Violation) : generateFunction i d ≠ .error (.broken v) := by
  intro hg
  apply h v
  have hb : d.body?.isNone = false := by simpa using hb
  have hg : r.table.generate i d = .error (.broken v) := by
    simp [DeclTable.generate, hg, bind, Except.bind]
  simp [visit, hd, hb, hg]

/-- A run that is completed has visited every function, and none broke an invariant. -/
theorem generateFunction_ne_broken_of_visitAll {policy : Policy} {is : List DeclId}
    (h : (r.visitAll policy is).2 = .ok ()) (hi : i ∈ is) {d : Decl}
    (hd : r.table.get? i = some d) (hb : d.body?.isSome) (v : Violation) :
    generateFunction i d ≠ .error (.broken v) := by
  -- by induction on the ids still to be visited: a visit changes relocations, but no declaration
  induction is generalizing r with
  | nil => cases hi
  | cons j is ih =>
      have hdecls := decls_visit policy r j
      rw [visitAll] at h
      rcases hv : r.visit policy j with ⟨r', stop | u⟩
      · rw [hv] at h
        cases h
      · simp only [hv] at h hdecls
        rcases List.mem_cons.mp hi with rfl | hi
        · have hj : ∀ w, (r.visit policy i).2 ≠ .error (.broken w) := by simp [hv]
          exact generateFunction_ne_broken_of_visit hj hd hb v
        · exact ih h hi (by rw [DeclTable.get?_congr hdecls, hd])

/-! ## Where the runs part -/

/-- Unless the function fails, a run goes on and no policy tells. -/
theorem Sorted.visit_unrefused (h : Sorted t done r) (hi : i ∈ t.ids) (hb : t.NeverBroken)
    (hn : t.refused? i = none) :
    ∃ r', (∀ policy, r.visit policy i = (r', .ok ())) ∧ Sorted t (done ++ [i]) r' := by
  obtain ⟨r', hv, hs⟩ := h.visit hi hb
  refine ⟨r', fun policy => ?_, hs⟩
  rw [← hv]
  unfold Run.visit
  rw [DeclTable.get?_congr h.decls, DeclTable.generate_congr h.decls]
  rcases DeclTable.sorted hi hb with ⟨hbody, -, -⟩ | ⟨d, code, hget, -, hg, -, -⟩
    | ⟨d, f, -, -, -, -, hd⟩
  · unfold DeclTable.hasBody at hbody
    cases hget : t.get? i with
    | none => rfl
    | some d => simp_all
  · simp [hget, hg]
  · rw [hn] at hd
    cases hd

theorem Sorted.visit_abort {d : Decl} {f : Failure} (h : Sorted t done r) (hi : i ∈ t.ids)
    (hb : t.NeverBroken) (hd : t.refused? i = some (d, f)) :
    ∃ r', r.visit .abort i = (r', .error (.failed f)) ∧ r'.table = r.table := by
  unfold Run.visit
  rw [DeclTable.get?_congr h.decls, DeclTable.generate_congr h.decls]
  rcases DeclTable.sorted hi hb with ⟨-, -, hn⟩ | ⟨-, -, -, -, -, -, hn⟩
    | ⟨d', f', hget, hbody, hg, -, hd'⟩
  · rw [hn] at hd
    cases hd
  · rw [hn] at hd
    cases hd
  · obtain ⟨rfl, rfl⟩ : d' = d ∧ f' = f := by simpa [hd'] using hd
    have hbody : d'.body?.isNone = false := by simpa using hbody
    simp only [hget, hbody, hg]
    exact ⟨_, rfl, rfl⟩

theorem Sorted.visitAll_unrefused {is : List DeclId} (rest : List DeclId) (h : Sorted t done r)
    (hs : ∀ i ∈ is, i ∈ t.ids) (hb : t.NeverBroken) (hn : ∀ i ∈ is, t.refused? i = none) :
    ∃ r', (∀ policy, r.visitAll policy (is ++ rest) = r'.visitAll policy rest) ∧
      Sorted t (done ++ is) r' := by
  induction is generalizing done r with
  | nil => exact ⟨r, fun policy => rfl, by simpa using h⟩
  | cons i is ih =>
      obtain ⟨r₁, hv, h₁⟩ :=
        h.visit_unrefused (hs i (List.mem_cons_self ..)) hb (hn i (List.mem_cons_self ..))
      obtain ⟨r₂, hr, h₂⟩ := ih h₁ (fun j hj => hs j (List.mem_cons_of_mem _ hj))
        fun j hj => hn j (List.mem_cons_of_mem _ hj)
      refine ⟨r₂, fun policy => ?_, by simpa using h₂⟩
      rw [List.cons_append, Run.visitAll, hv]
      exact hr policy

end Run

namespace DeclTable

variable {t : DeclTable} {r : Run}

theorem exists_run_skip (hb : t.NeverBroken) :
    ∃ r, t.run .skip = (r, .ok ()) ∧ Run.Sorted t t.ids r :=
  (Run.sorted_start t).visitAll (fun _ hi => hi) hb

theorem neverBroken_of_run {policy : Policy} (h : (t.run policy).2 = .ok ()) : t.NeverBroken :=
  fun _ hi _ v hd hbody => Run.generateFunction_ne_broken_of_visitAll h hi hd hbody v

/-- A run breaks an invariant exactly when the generation of one of the functions does. -/
theorem neverBroken_iff : t.NeverBroken ↔ ∀ v, (t.run .skip).2 ≠ .error (.broken v) := by
  constructor
  · intro hb v
    obtain ⟨r, hr, -⟩ := exists_run_skip hb
    rw [hr]
    nofun
  · intro h
    rcases hr : (t.run .skip).2 with (f | v) | u
    · cases (Run.refused?_of_visitAll hr).1
    · exact absurd hr (h v)
    · exact neverBroken_of_run hr

theorem run_abort_eq_skip (hb : t.NeverBroken) (hn : ∀ i ∈ t.ids, t.refused? i = none) :
    t.run .abort = t.run .skip := by
  obtain ⟨r, hr, -⟩ := (Run.sorted_start t).visitAll_unrefused [] (fun _ hi => hi) hb hn
  rw [List.append_nil] at hr
  exact (hr .abort).trans (hr .skip).symm

theorem exists_cutAt {before after : List DeclId} {i : DeclId} {d : Decl} {f : Failure}
    (hb : t.NeverBroken) (hr : Run.Sorted t t.ids r) (hids : t.ids = before ++ i :: after)
    (hn : ∀ j ∈ before, t.refused? j = none) (hd : t.refused? i = some (d, f)) :
    ∃ a, t.run .abort = (a, .error (.failed f)) ∧ Run.CutAt t r a i f := by
  -- the ids increase, so where their list is split the table is split as well
  have hmem : ∀ j ∈ before ++ i :: after, j ∈ t.ids := fun j hj => hids ▸ hj
  have hi : i ∈ t.ids := hmem i (by simp)
  obtain ⟨-, hpost, hcross⟩ := List.pairwise_append.mp (hids ▸ t.pairwise_ids)
  obtain ⟨r₁, hrun, h₁⟩ := (Run.sorted_start t).visitAll_unrefused (i :: after)
    (fun j hj => hmem j (List.mem_append_left _ hj)) hb hn
  obtain ⟨a, hv, ha⟩ := h₁.visit_abort hi hb hd
  refine ⟨a, by rw [run, hids, hrun, Run.visitAll, hv], ?_⟩
  have hlater : ∀ j ∈ i :: after, i.index.toNat ≤ j.index.toNat := by
    intro j hj
    rcases List.mem_cons.mp hj with rfl | hj
    · exact Nat.le_refl _
    · exact Nat.le_of_lt (List.rel_of_pairwise_cons hpost hj)
  have htable : a.table = t.link (before.filterMap t.published?) := by
    rw [ha, h₁.table, h₁.functions, List.nil_append]
  constructor
  case mem => exact hi
  case reported =>
    refine ⟨d, get?_of_refused? hd, hd, ?_⟩
    rw [hr.diagnostics, hids, List.filterMap_append, filterMap_diagnostic?_eq_nil hn,
      List.nil_append, List.filterMap_cons_some (by rw [diagnostic?, hd]; rfl)]
    rfl
  case first =>
    intro j hj hlt
    rw [hids] at hj
    rcases List.mem_append.mp hj with hj | hj
    · exact hn j hj
    · have := hlater j hj
      omega
  case earlier =>
    intro n hlt
    rw [htable, hr.table, hr.functions, hids, List.filterMap_append, link_append]
    refine (entries_link_published _ fun j hj => ?_).symm
    have := hlater j hj
    omega
  case later =>
    intro n hge
    rw [htable, entries_link_published]
    intro j hj
    have := hcross j hj i (List.mem_cons_self ..)
    omega

theorem refused?_eq_none_of_run (h : (t.run .abort).2 = .ok ()) :
    ∀ i ∈ t.ids, t.refused? i = none := by
  have hb := neverBroken_of_run h
  obtain ⟨r, -, hs⟩ := exists_run_skip hb
  cases hf : t.ids.find? fun i => (t.refused? i).isSome with
  | none => simpa using hf
  | some i =>
      obtain ⟨hi, before, after, hids, hn⟩ := List.find?_eq_some_iff_append.mp hf
      obtain ⟨⟨d, f⟩, hd⟩ := Option.isSome_iff_exists.mp hi
      obtain ⟨a, ha, -⟩ := exists_cutAt hb hs hids (by simpa using hn) hd
      rw [ha] at h
      cases h

/-- A run that is completed has sorted all functions of its table. If it aborts at failures, it has
met none. -/
theorem sorted_of_run {policy : Policy} (h : t.run policy = (r, .ok ())) :
    Run.Sorted t t.ids r ∧ (policy = .abort → ∀ i ∈ t.ids, t.refused? i = none) := by
  have hok : (t.run policy).2 = .ok () := by rw [h]
  have hb := neverBroken_of_run hok
  obtain ⟨r', hr, hs⟩ := exists_run_skip hb
  cases policy with
  | skip =>
      obtain ⟨rfl, -⟩ := Prod.ext_iff.mp (hr.symm.trans h)
      exact ⟨hs, nofun⟩
  | abort =>
      have hn := refused?_eq_none_of_run hok
      rw [run_abort_eq_skip hb hn, hr] at h
      obtain ⟨rfl, -⟩ := Prod.ext_iff.mp h
      exact ⟨hs, fun _ => hn⟩

end DeclTable

/-- Where a run that skips failures reports none, a run that aborts is the same run. Else it ends
with the first failure that the other one reports, and the table is cut at the failing function. -/
theorem run_abort {t : DeclTable} {r : Run} {out : Except Stop Unit} (h : t.run .skip = (r, out))
    (hp : ∀ v, out ≠ .error (.broken v)) :
    out = .ok () ∧
      ((∃ f, (t.run .abort).2 = .error (.failed f)) ↔ r.code.diagnostics ≠ []) ∧
      (∀ a f, t.run .abort = (a, .error (.failed f)) → ∃ i, Run.CutAt t r a i f) ∧
      (r.code.diagnostics = [] → t.run .abort = (r, .ok ())) := by
  have hb : t.NeverBroken := DeclTable.neverBroken_iff.mpr (by rw [h]; exact hp)
  obtain ⟨r', hr, hs⟩ := DeclTable.exists_run_skip hb
  obtain ⟨rfl, rfl⟩ := Prod.ext_iff.mp (hr.symm.trans h)
  refine ⟨rfl, ?_⟩
  cases hf : t.ids.find? fun i => (t.refused? i).isSome with
  | none =>
      have hn : ∀ i ∈ t.ids, t.refused? i = none := by simpa using hf
      have habort := (DeclTable.run_abort_eq_skip hb hn).trans hr
      have hdiagnostics : r'.code.diagnostics = [] :=
        hs.diagnostics.trans (DeclTable.filterMap_diagnostic?_eq_nil hn)
      refine ⟨?_, ?_, fun _ => habort⟩
      · simp [habort, hdiagnostics]
      · intro a f ha
        rw [habort] at ha
        cases ha
  | some i =>
      obtain ⟨hi, before, after, hids, hn⟩ := List.find?_eq_some_iff_append.mp hf
      obtain ⟨⟨d, f⟩, hd⟩ := Option.isSome_iff_exists.mp hi
      have hn : ∀ j ∈ before, t.refused? j = none := by simpa using hn
      obtain ⟨a, ha, hcut⟩ := DeclTable.exists_cutAt hb hs hids hn hd
      obtain ⟨d', -, -, hhead⟩ := hcut.reported
      have hdiagnostics : r'.code.diagnostics ≠ [] := by
        intro he
        rw [he] at hhead
        cases hhead
      refine ⟨?_, ?_, fun he => absurd he hdiagnostics⟩
      · exact ⟨fun _ => hdiagnostics, fun _ => ⟨f, by rw [ha]⟩⟩
      · intro a' f' ha'
        obtain ⟨rfl, hf⟩ := Prod.ext_iff.mp (ha.symm.trans ha')
        cases hf
        exact ⟨i, hcut⟩

/-! ## A failure between two functions -/

/-- A function with one relocation already, the callee that it names, a function that returns a
pointer, and the first function once more. -/
def DeclTable.interrupted : DeclTable where
  entries := #[
    ⟨.crossed, [⟨9, ⟨1⟩⟩]⟩,
    ⟨.external "merge" ⟨[.int true 32, .int true 32], .int true 32⟩, []⟩,
    ⟨.pointer, []⟩,
    ⟨.crossed, []⟩]

namespace DeclTable

theorem sorted_crossed {t : DeclTable} {i : DeclId} (hi : t.get? i = some .crossed)
    (hm : (t.get? ⟨1⟩).isSome) :
    t.refused? i = none ∧ ∃ code, t.published? i = some code ∧ code.relocs = [⟨17, ⟨1⟩⟩] := by
  obtain ⟨code, hg⟩ := exists_generates_crossed i
  have h := generateFunction_eq_ok_iff.mpr ⟨_, _, _, hg⟩
  have hbody : Decl.crossed.body? = some .crossed := rfl
  have hrelocs : code.relocs = [⟨17, ⟨1⟩⟩] := by
    rw [hg.code]
    dsimp only
    decide +kernel
  have hall : (code.relocs.all fun r => (t.get? r.target).isSome) = true := by
    rw [hrelocs]
    simpa using hm
  have hcheck : code.checkCallees t .crossed = .ok () := (checkCallees_eq_ok_iff code).mpr hall
  refine ⟨?_, code, ?_, hrelocs⟩
  · simp only [refused?, hi, hbody, h, hcheck]
  · simp only [published?, hi, hbody, h, if_pos hall]

theorem ids_interrupted : interrupted.ids = [⟨0⟩, ⟨1⟩, ⟨2⟩, ⟨3⟩] := rfl

theorem mem_ids_interrupted {i : DeclId} :
    i ∈ interrupted.ids ↔ i = ⟨0⟩ ∨ i = ⟨1⟩ ∨ i = ⟨2⟩ ∨ i = ⟨3⟩ := by
  simp [ids_interrupted]

theorem functions_interrupted :
    ∃ fc₀ fc₃, interrupted.ids.filterMap interrupted.published? = [fc₀, fc₃] ∧
      fc₀.decl = ⟨0⟩ ∧ fc₃.decl = ⟨3⟩ ∧ fc₀.relocs = [⟨17, ⟨1⟩⟩] ∧ fc₃.relocs = [⟨17, ⟨1⟩⟩] := by
  obtain ⟨-, fc₀, h₀, hr₀⟩ := sorted_crossed (t := interrupted) (i := ⟨0⟩) rfl rfl
  obtain ⟨-, fc₃, h₃, hr₃⟩ := sorted_crossed (t := interrupted) (i := ⟨3⟩) rfl rfl
  have h₁ : interrupted.published? ⟨1⟩ = none := rfl
  have h₂ : interrupted.published? ⟨2⟩ = none := rfl
  exact ⟨fc₀, fc₃, by simp [ids_interrupted, h₀, h₁, h₂, h₃], decl_of_published? h₀,
    decl_of_published? h₃, hr₀, hr₃⟩

theorem neverBroken_interrupted : interrupted.NeverBroken := by
  intro i hi d v hd hbody hv
  have hcrossed : ∀ j, generateFunction j .crossed ≠ .error (.broken v) := by
    intro j hj
    obtain ⟨code, hg⟩ := exists_generates_crossed j
    rw [generateFunction_eq_ok_iff.mpr ⟨_, _, _, hg⟩] at hj
    cases hj
  rcases mem_ids_interrupted.mp hi with rfl | rfl | rfl | rfl
  · obtain rfl : Decl.crossed = d := Option.some.inj hd
    exact hcrossed _ hv
  · cases hd
    cases hbody
  · obtain rfl : Decl.pointer = d := Option.some.inj hd
    cases hv
  · obtain rfl : Decl.crossed = d := Option.some.inj hd
    exact hcrossed _ hv

theorem refused?_interrupted :
    interrupted.ids.map interrupted.refused?
      = [none, none, some (.pointer, ⟨.synthetic, .returnType (.ptr .void)⟩), none] := by
  have h₀ := (sorted_crossed (t := interrupted) (i := ⟨0⟩) rfl rfl).1
  have h₃ := (sorted_crossed (t := interrupted) (i := ⟨3⟩) rfl rfl).1
  rw [ids_interrupted, List.map_cons, List.map_cons, List.map_cons, List.map_singleton, h₀, h₃]
  rfl

theorem eq_of_refused?_interrupted {i : DeclId} (hi : i ∈ interrupted.ids)
    (hd : (interrupted.refused? i).isSome) : i = ⟨2⟩ := by
  obtain ⟨h₀, h₁, -, h₃⟩ : _ ∧ _ ∧ _ ∧ _ := by
    simpa only [ids_interrupted, List.map_cons, List.map_nil, List.cons.injEq, and_true]
      using refused?_interrupted
  rcases mem_ids_interrupted.mp hi with rfl | rfl | rfl | rfl
  · simp [h₀] at hd
  · simp [h₁] at hd
  · rfl
  · simp [h₃] at hd

theorem diagnostics_interrupted :
    interrupted.ids.filterMap interrupted.diagnostic?
      = [diagnosticOf .pointer ⟨.synthetic, .returnType (.ptr .void)⟩] := by
  have h : interrupted.ids.filterMap interrupted.diagnostic?
      = (interrupted.ids.map interrupted.refused?).filterMap
        (Option.map fun x => diagnosticOf x.1 x.2) := by
    rw [List.filterMap_map]
    rfl
  rw [h, refused?_interrupted]
  rfl

end DeclTable

/-- The run that aborts has linked the first function and has not come to the last. -/
theorem run_abort_interrupted :
    ∃ r a, DeclTable.interrupted.run .skip = (r, .ok ()) ∧
      DeclTable.interrupted.run .abort
        = (a, .error (.failed ⟨.synthetic, .returnType (.ptr .void)⟩)) ∧
      r.code.diagnostics.map Diagnostic.source? = [some "pointer"] ∧
      r.table.relocs? ⟨0⟩ = some [⟨9, ⟨1⟩⟩, ⟨17, ⟨1⟩⟩] ∧
      a.table.relocs? ⟨0⟩ = some [⟨9, ⟨1⟩⟩, ⟨17, ⟨1⟩⟩] ∧
      r.table.relocs? ⟨3⟩ = some [⟨17, ⟨1⟩⟩] ∧
      a.table.relocs? ⟨3⟩ = some [] := by
  obtain ⟨r, hr, hs⟩ := DeclTable.exists_run_skip DeclTable.neverBroken_interrupted
  have hp := hs.publishes DeclTable.neverBroken_interrupted
  have hdiagnostics := hs.diagnostics.trans DeclTable.diagnostics_interrupted
  have hrelocs : ∀ i ∈ DeclTable.interrupted.ids, DeclTable.interrupted.get? i = some .crossed →
      r.table.relocs? i = (DeclTable.interrupted.relocs? i).map (· ++ [⟨17, ⟨1⟩⟩]) := by
    intro i hi hget
    obtain ⟨-, code, hcode, hc⟩ := DeclTable.sorted_crossed hget rfl
    rw [(hp.relocs i hi code hcode).2, hc]
  obtain ⟨-, hiff, hcut, -⟩ := run_abort hr (by simp)
  obtain ⟨f, hf⟩ := hiff.mpr (by simp [hdiagnostics])
  obtain ⟨i, hi⟩ := hcut _ f (Prod.ext rfl hf)
  obtain ⟨d, -, hd, -⟩ := hi.reported
  obtain rfl := DeclTable.eq_of_refused?_interrupted hi.mem (by simp [hd])
  obtain ⟨rfl, rfl⟩ := Prod.ext_iff.mp (Option.some.inj hd)
  have h₀ : r.table.relocs? ⟨0⟩ = some [⟨9, ⟨1⟩⟩, ⟨17, ⟨1⟩⟩] :=
    hrelocs ⟨0⟩ (by simp [DeclTable.ids_interrupted]) rfl
  have h₃ : r.table.relocs? ⟨3⟩ = some [⟨17, ⟨1⟩⟩] :=
    hrelocs ⟨3⟩ (by simp [DeclTable.ids_interrupted]) rfl
  refine ⟨r, _, hr, Prod.ext rfl hf, ?_, h₀, ?_, h₃, ?_⟩
  · rw [hdiagnostics]
    rfl
  · exact (congrArg (Option.map Entry.relocs) (hi.earlier 0 (by decide))).trans h₀
  · exact congrArg (Option.map Entry.relocs) (hi.later 3 (by decide))

end WasmLowering
