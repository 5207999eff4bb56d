import WasmLowering.Proofs.Abort

/-!
# Failing functions and the others

What becomes of a function depends on its own declaration and on which ids are in the table. So the
functions that fail can lose their bodies, and a table can grow, and the other functions are still
published as before.
-/

namespace WasmLowering

namespace DeclTable

/-- The table without the bodies of some declarations, which keep their names and types. -/
def withoutBodies (t : DeclTable) (is : List DeclId) : DeclTable where
  entries := t.entries.mapIdx fun n e =>
    if is.any fun i => i.index.toNat == n then { e with decl := { e.decl with body? := none } }
    else e

/-- What the linker has been told about each declaration. -/
def links (t : DeclTable) : Array (List Reloc) := t.entries.map Entry.relocs

def pushAll (t : DeclTable) (ds : List Decl) : DeclTable := ds.foldl push t

end DeclTable

/-- The function `code` of the run `r` is published and linked by the run `r'` as well, and there is
no other of its id. -/
structure Run.Keeps (r r' : Run) (code : FunctionCode) : Prop where
  published : code ∈ r'.code.functions
  alone : ∀ code' ∈ r'.code.functions, code'.decl = code.decl → code' = code
  relocs : r'.table.relocs? code.decl = r.table.relocs? code.decl

namespace DeclTable

/-! ## What a function depends on -/

section Frame

variable {t u : DeclTable} {i : DeclId}

theorem checkCallees_eq_of_isSome (h : ∀ j, (u.get? j).isSome = (t.get? j).isSome)
    (code : FunctionCode) (d : Decl) : code.checkCallees u d = code.checkCallees t d := by
  have hn : ∀ j, (u.get? j).isNone = (t.get? j).isNone := by
    intro j
    rw [← Option.not_isSome, ← Option.not_isSome, h]
  unfold FunctionCode.checkCallees
  simp only [hn]

theorem published?_eq_of_get? (hi : u.get? i = t.get? i)
    (h : ∀ j, (u.get? j).isSome = (t.get? j).isSome) : u.published? i = t.published? i := by
  unfold published?
  simp only [hi, h]

theorem refused?_eq_of_get? (hi : u.get? i = t.get? i)
    (h : ∀ j, (u.get? j).isSome = (t.get? j).isSome) : u.refused? i = t.refused? i := by
  unfold refused?
  simp only [hi, checkCallees_eq_of_isSome h]

theorem published?_eq_some_iff {code : FunctionCode} :
    t.published? i = some code ↔ ∃ d, t.get? i = some d ∧ d.body?.isSome ∧
      generateFunction i d = .ok code ∧ ∀ r ∈ code.relocs, (t.get? r.target).isSome := by
  unfold published?
  cases hd : t.get? i with
  | none => simp
  | some d =>
      cases hb : d.body? with
      | none => simp [hb]
      | some b =>
          cases hg : generateFunction i d with
          | error stop => simp [hb, hg]
          | ok code' =>
              simp only [hb, hg, Option.ite_none_right_eq_some, List.all_eq_true,
                Option.some.injEq, Option.isSome_some, exists_eq_left', Except.ok.injEq, true_and]
              constructor
              · rintro ⟨hr, rfl⟩
                exact ⟨rfl, hr⟩
              · rintro ⟨rfl, hr⟩
                exact ⟨hr, rfl⟩

/-- More declarations take back no published function. -/
theorem published?_mono (hi : u.get? i = t.get? i)
    (h : ∀ j, (t.get? j).isSome → (u.get? j).isSome) {code : FunctionCode}
    (hp : t.published? i = some code) : u.published? i = some code := by
  obtain ⟨d, hd, hb, hg, hr⟩ := published?_eq_some_iff.mp hp
  exact published?_eq_some_iff.mpr ⟨d, hi.trans hd, hb, hg, fun r hm => h _ (hr r hm)⟩

theorem published?_eq_none_of_refused? (h : (t.refused? i).isSome) : t.published? i = none := by
  rw [Option.eq_none_iff_forall_ne_some]
  intro code hp
  obtain ⟨d, hd, hb, hg, hr⟩ := published?_eq_some_iff.mp hp
  obtain ⟨b, hb⟩ := Option.isSome_iff_exists.mp hb
  have hc : code.checkCallees t d = .ok () :=
    (checkCallees_eq_ok_iff code).mpr (List.all_eq_true.mpr hr)
  simp [refused?, hd, hb, hg, hc] at h

end Frame

/-! ## Bodies taken away -/

section WithoutBodies

variable {t u : DeclTable} {is : List DeclId}

theorem any_toNat_eq (is : List DeclId) (i : DeclId) :
    (is.any fun j => j.index.toNat == i.index.toNat) = decide (i ∈ is) := by
  rw [Bool.eq_iff_iff, List.any_eq_true, decide_eq_true_iff]
  constructor
  · rintro ⟨j, hj, he⟩
    obtain rfl : j = i := DeclId.eq_of_toNat_eq (by simpa using he)
    exact hj
  · intro hi
    exact ⟨i, hi, beq_self_eq_true _⟩

theorem get?_withoutBodies (t : DeclTable) (is : List DeclId) (i : DeclId) :
    (t.withoutBodies is).get? i
      = (t.get? i).map fun d => if i ∈ is then { d with body? := none } else d := by
  simp only [get?, entry?, withoutBodies, Array.getElem?_mapIdx, any_toNat_eq, Option.map_map]
  congr 1
  funext e
  by_cases hi : i ∈ is <;> simp [hi]

theorem isSome_get?_withoutBodies (t : DeclTable) (is : List DeclId) (j : DeclId) :
    ((t.withoutBodies is).get? j).isSome = (t.get? j).isSome := by
  rw [get?_withoutBodies, Option.isSome_map]

theorem get?_withoutBodies_of_notMem {i : DeclId} (hi : i ∉ is) :
    (t.withoutBodies is).get? i = t.get? i := by
  simp [get?_withoutBodies, hi]

theorem body?_of_mem_withoutBodies {i : DeclId} {d : Decl} (hi : i ∈ is)
    (hd : (t.withoutBodies is).get? i = some d) : d.body? = none := by
  rw [get?_withoutBodies, Option.map_eq_some_iff] at hd
  obtain ⟨d', -, rfl⟩ := hd
  simp [hi]

theorem ids_withoutBodies (t : DeclTable) (is : List DeclId) :
    (t.withoutBodies is).ids = t.ids := by
  simp [ids, size, withoutBodies]

theorem links_withoutBodies (t : DeclTable) (is : List DeclId) :
    (t.withoutBodies is).links = t.links := by
  refine Array.ext_getElem? fun n => ?_
  simp only [links, withoutBodies, Array.getElem?_map, Array.getElem?_mapIdx, Option.map_map]
  congr 1
  funext e
  dsimp only [Function.comp]
  split <;> rfl

theorem published?_withoutBodies (his : ∀ i ∈ is, (t.refused? i).isSome) :
    (t.withoutBodies is).published? = t.published? := by
  funext i
  by_cases hi : i ∈ is
  · rw [published?_eq_none_of_refused? (his i hi), Option.eq_none_iff_forall_ne_some]
    intro code hp
    obtain ⟨d, hd, hb, -⟩ := published?_eq_some_iff.mp hp
    simp [body?_of_mem_withoutBodies hi hd] at hb
  · exact published?_eq_of_get? (get?_withoutBodies_of_notMem hi) (isSome_get?_withoutBodies t is)

theorem refused?_withoutBodies (t : DeclTable) (is : List DeclId) (i : DeclId) :
    (t.withoutBodies is).refused? i = if i ∉ is then t.refused? i else none := by
  by_cases hi : i ∈ is
  · unfold refused?
    cases hd : (t.withoutBodies is).get? i with
    | none => simp [hi]
    | some d => simp [body?_of_mem_withoutBodies hi hd, hi]
  · rw [if_pos hi]
    exact refused?_eq_of_get? (get?_withoutBodies_of_notMem hi) (isSome_get?_withoutBodies t is)

theorem filterMap_diagnostic?_withoutBodies (t : DeclTable) (is : List DeclId) (js : List DeclId) :
    js.filterMap (t.withoutBodies is).diagnostic?
      = (js.filter (· ∉ is)).filterMap t.diagnostic? := by
  rw [List.filterMap_filter]
  congr 1
  funext i
  unfold diagnostic?
  rw [refused?_withoutBodies]
  by_cases hi : i ∈ is <;> simp [hi]

theorem NeverBroken.withoutBodies (hb : t.NeverBroken) (is : List DeclId) :
    (t.withoutBodies is).NeverBroken := by
  intro i hi d v hd hbody
  rw [ids_withoutBodies] at hi
  by_cases hmem : i ∈ is
  · simp [body?_of_mem_withoutBodies hmem hd] at hbody
  · rw [get?_withoutBodies_of_notMem hmem] at hd
    exact hb i hi d v hd hbody

theorem links_link_congr (h : u.links = t.links) (fs : List FunctionCode) :
    (u.link fs).links = (t.link fs).links := by
  have hl : ∀ (w : DeclTable) (n : Nat), (w.link fs).links[n]? = (w.links[n]?).map
      (· ++ (fs.filter fun code => code.decl.index.toNat == n).flatMap FunctionCode.relocs) := by
    intro w n
    unfold links
    rw [Array.getElem?_map, entries_link, Array.getElem?_map, Option.map_map, Option.map_map]
    rfl
  refine Array.ext_getElem? fun n => ?_
  rw [hl, hl, h]

theorem exists_run_withoutBodies {r : Run} (hb : t.NeverBroken) (hr : Run.Sorted t t.ids r)
    (his : ∀ i ∈ is, (t.refused? i).isSome) :
    ∃ r', (t.withoutBodies is).run .skip = (r', .ok ()) ∧
      r'.code.functions = r.code.functions ∧ r'.table.links = r.table.links ∧
      r'.code.diagnostics = (t.ids.filter (· ∉ is)).filterMap t.diagnostic? ∧
      ((∀ i ∈ t.ids, (t.refused? i).isSome → i ∈ is) →
        (t.withoutBodies is).run .abort = (r', .ok ())) := by
  have hb' := hb.withoutBodies is
  obtain ⟨r', hrun, hs⟩ := exists_run_skip hb'
  have hfunctions : r'.code.functions = r.code.functions := by
    rw [hs.functions, hr.functions, ids_withoutBodies, published?_withoutBodies his]
  refine ⟨r', hrun, hfunctions, ?_, ?_, ?_⟩
  · rw [hs.table, hr.table, hfunctions]
    exact links_link_congr (links_withoutBodies t is) _
  · rw [hs.diagnostics, ids_withoutBodies, filterMap_diagnostic?_withoutBodies]
  · intro hall
    rw [← hrun]
    refine run_abort_eq_skip hb' fun i hi => ?_
    rw [ids_withoutBodies] at hi
    rw [refused?_withoutBodies, ite_eq_right_iff]
    intro hmem
    exact Option.not_isSome_iff_eq_none.mp fun hn => hmem (hall i hi hn)

end WithoutBodies

/-! ## Declarations appended -/

section PushAll

variable {t : DeclTable} {ds : List Decl} {i : DeclId}

theorem entries_pushAll (t : DeclTable) (ds : List Decl) :
    (t.pushAll ds).entries = t.entries ++ (ds.map fun d => (⟨d, []⟩ : Entry)).toArray := by
  unfold pushAll
  induction ds generalizing t with
  | nil => simp
  | cons d ds ih =>
      rw [List.foldl_cons, ih]
      simp [push]

theorem entry?_pushAll (hi : i.index.toNat < t.size) :
    entry? (t.pushAll ds) i = entry? t i := by
  unfold entry?
  rw [entries_pushAll, Array.getElem?_append_left hi]

theorem get?_pushAll (hi : i.index.toNat < t.size) : (t.pushAll ds).get? i = t.get? i := by
  rw [get?, entry?_pushAll hi, get?]

theorem toNat_lt_size_of_isSome (h : (t.get? i).isSome) : i.index.toNat < t.size := by
  simpa [get?, entry?, size] using h

theorem isSome_get?_pushAll (h : (t.get? i).isSome) : ((t.pushAll ds).get? i).isSome := by
  rwa [get?_pushAll (toNat_lt_size_of_isSome h)]

theorem toNat_lt_size_of_mem_ids (hi : i ∈ t.ids) : i.index.toNat < t.size := by
  have hm : i.index.toNat ∈ t.ids.map fun j => j.index.toNat :=
    List.mem_map_of_mem (f := fun j : DeclId => j.index.toNat) hi
  rw [map_ids, List.mem_range] at hm
  exact Nat.lt_of_lt_of_le hm (Nat.mod_le ..)

theorem ids_sublist_pushAll (h : (t.pushAll ds).size < UInt32.size) :
    t.ids.Sublist (t.pushAll ds).ids := by
  unfold ids
  apply List.Sublist.map
  rw [List.range_sublist]
  have hle : t.size ≤ (t.pushAll ds).size := by simp [size, entries_pushAll]
  simp only [UInt32.toNat_ofNat', UInt32.size] at h ⊢
  omega

theorem published?_pushAll {code : FunctionCode} (hp : t.published? i = some code) :
    (t.pushAll ds).published? i = some code := by
  obtain ⟨d, hd, -⟩ := published?_eq_some_iff.mp hp
  have hi := toNat_lt_size_of_isSome (hd ▸ rfl : (t.get? i).isSome)
  exact published?_mono (get?_pushAll hi) (fun _ => isSome_get?_pushAll) hp

/-- The longer table breaks an invariant only where the shorter one has nothing to generate. -/
theorem NeverBroken.pushAll (hb : t.NeverBroken)
    (hds : ∀ i ∈ (t.pushAll ds).ids, i ∉ t.ids → ∀ d v, (t.pushAll ds).get? i = some d →
      d.body?.isSome → generateFunction i d ≠ .error (.broken v)) : (t.pushAll ds).NeverBroken := by
  intro i hi d v hd hbody
  by_cases hmem : i ∈ t.ids
  · rw [get?_pushAll (toNat_lt_size_of_mem_ids hmem)] at hd
    exact hb i hmem d v hd hbody
  · exact hds i hi hmem d v hd hbody

theorem sublist_functions_pushAll (h : (t.pushAll ds).size < UInt32.size) :
    (t.ids.filterMap t.published?).Sublist
      ((t.pushAll ds).ids.filterMap (t.pushAll ds).published?) := by
  -- the functions of the longer table at the ids of those that the shorter one publishes
  rw [List.sublist_filterMap_iff]
  refine ⟨t.ids.filter fun i => (t.published? i).isSome,
    List.filter_sublist.trans (ids_sublist_pushAll h), ?_⟩
  rw [List.filterMap_filter]
  congr 1
  funext i
  cases hp : t.published? i with
  | none => rfl
  | some code => simp [published?_pushAll hp]

end PushAll

end DeclTable

namespace Run

variable {t : DeclTable} {ds : List Decl} {r r' : Run} {code : FunctionCode}

theorem Sorted.mem_functions (h : Sorted t t.ids r) :
    code ∈ r.code.functions ↔ code.decl ∈ t.ids ∧ t.published? code.decl = some code := by
  rw [h.functions, List.mem_filterMap]
  constructor
  · rintro ⟨i, hi, hp⟩
    obtain rfl := DeclTable.decl_of_published? hp
    exact ⟨hi, hp⟩
  · rintro ⟨hi, hp⟩
    exact ⟨code.decl, hi, hp⟩

/-- A function that was published before is kept as long as its id is counted. -/
theorem Sorted.keeps_iff (hb : t.NeverBroken) (hb' : (t.pushAll ds).NeverBroken)
    (h : Sorted t t.ids r) (h' : Sorted (t.pushAll ds) (t.pushAll ds).ids r')
    (hm : code ∈ r.code.functions) : r.Keeps r' code ↔ code.decl ∈ (t.pushAll ds).ids := by
  obtain ⟨hi, hp⟩ := h.mem_functions.mp hm
  have hp' : (t.pushAll ds).published? code.decl = some code := DeclTable.published?_pushAll hp
  constructor
  · intro hk
    exact (h'.mem_functions.mp hk.published).1
  · intro hi'
    constructor
    case published => exact h'.mem_functions.mpr ⟨hi', hp'⟩
    case alone =>
      intro code' hm' he
      have hq := (h'.mem_functions.mp hm').2
      rw [he, hp'] at hq
      exact (Option.some.inj hq).symm
    case relocs =>
      rw [((h'.publishes hb').relocs _ hi' code hp').2, ((h.publishes hb).relocs _ hi code hp).2]
      unfold DeclTable.relocs?
      rw [DeclTable.entry?_pushAll (DeclTable.toNat_lt_size_of_mem_ids hi)]

end Run

/-- The functions that fail can lose their bodies, all or some of them, and nothing changes but
their reports. Declarations can be appended, and every function that was published before is
published and linked as it was, as long as the 32 bits of an id count the table. -/
theorem run_isolates {t : DeclTable} {r : Run} {out : Except Stop Unit}
    (h : t.run .skip = (r, out)) (hp : ∀ v, out ≠ .error (.broken v)) :
    r.code.diagnostics = t.ids.filterMap t.diagnostic? ∧
      (∀ is : List DeclId, (∀ i ∈ is, i ∈ t.ids ∧ (t.diagnostic? i).isSome) →
        ∃ r', (t.withoutBodies is).run .skip = (r', .ok ()) ∧
          r'.code.functions = r.code.functions ∧ r'.table.links = r.table.links ∧
          r'.code.diagnostics = (t.ids.filter (· ∉ is)).filterMap t.diagnostic? ∧
          ((∀ i ∈ t.ids, (t.diagnostic? i).isSome → i ∈ is) →
            (t.withoutBodies is).run .abort = (r', .ok ()))) ∧
      ∀ ds : List Decl,
        (∀ i ∈ (t.pushAll ds).ids, i ∉ t.ids → ∀ d v, (t.pushAll ds).get? i = some d →
          d.body?.isSome → generateFunction i d ≠ .error (.broken v)) →
        ∃ r', (t.pushAll ds).run .skip = (r', .ok ()) ∧
          (∀ code ∈ r.code.functions, r.Keeps r' code ↔ code.decl ∈ (t.pushAll ds).ids) ∧
          ((t.pushAll ds).size < UInt32.size →
            (∀ code ∈ r.code.functions, r.Keeps r' code) ∧
            r.code.functions.Sublist r'.code.functions) := by
  have hb : t.NeverBroken := DeclTable.neverBroken_iff.mpr (by rw [h]; exact hp)
  obtain ⟨r', hr, hs⟩ := DeclTable.exists_run_skip hb
  obtain ⟨rfl, rfl⟩ := Prod.ext_iff.mp (hr.symm.trans h)
  have hrefused : ∀ i, (t.diagnostic? i).isSome = (t.refused? i).isSome := fun i =>
    Option.isSome_map
  simp only [hrefused]
  refine ⟨hs.diagnostics, ?bodies, ?appended⟩
  case bodies =>
    intro is his
    exact DeclTable.exists_run_withoutBodies hb hs fun i hi => (his i hi).2
  case appended =>
    intro ds hds
    have hb' := hb.pushAll hds
    obtain ⟨u, hu, hs'⟩ := DeclTable.exists_run_skip hb'
    refine ⟨u, hu, fun code hm => hs.keeps_iff hb hb' hs' hm, fun hlt => ⟨?_, ?_⟩⟩
    · intro code hm
      have hi := (hs.mem_functions.mp hm).1
      exact (hs.keeps_iff hb hb' hs' hm).mpr ((DeclTable.ids_sublist_pushAll hlt).subset hi)
    · rw [hs.functions, hs'.functions]
      exact DeclTable.sublist_functions_pushAll hlt

theorem run_isolates_interrupted :
    ∃ r r' u, DeclTable.interrupted.run .skip = (r, .ok ()) ∧
      r.code.functions.map FunctionCode.decl = [⟨0⟩, ⟨3⟩] ∧
      (DeclTable.interrupted.withoutBodies [⟨2⟩]).run .abort = (r', .ok ()) ∧
      r'.code.functions = r.code.functions ∧ r'.code.diagnostics = [] ∧
      (DeclTable.interrupted.pushAll [.pointer]).run .skip = (u, .ok ()) ∧
      (∀ code ∈ r.code.functions, r.Keeps u code) ∧
      r.code.functions.Sublist u.code.functions := by
  obtain ⟨r, hr, hs⟩ := DeclTable.exists_run_skip DeclTable.neverBroken_interrupted
  have hfailing : ∀ i ∈ DeclTable.interrupted.ids,
      (DeclTable.interrupted.diagnostic? i).isSome → i ∈ [(⟨2⟩ : DeclId)] := by
    intro i hi hd
    rw [DeclTable.diagnostic?, Option.isSome_map] at hd
    exact List.mem_singleton.mpr (DeclTable.eq_of_refused?_interrupted hi hd)
  obtain ⟨-, hbodies, happended⟩ := run_isolates hr (by simp)
  obtain ⟨r', -, hfunctions, -, hdiagnostics, habort⟩ := hbodies [⟨2⟩] fun i hi => by
    obtain rfl := List.mem_singleton.mp hi
    exact ⟨DeclTable.mem_ids_interrupted.mpr (by simp), rfl⟩
  obtain ⟨u, hu, -, hkeeps⟩ := happended [.pointer] fun i hi hn d v hd _ hv => by
    have hids : (DeclTable.interrupted.pushAll [.pointer]).ids
        = DeclTable.interrupted.ids ++ [⟨4⟩] := rfl
    obtain rfl := List.mem_singleton.mp ((List.mem_append.mp (hids ▸ hi)).resolve_left hn)
    obtain rfl : Decl.pointer = d := Option.some.inj hd
    cases hv
  obtain ⟨hkept, hsublist⟩ := hkeeps (by decide)
  refine ⟨r, r', u, hr, ?_, habort hfailing, hfunctions, ?_, hu, hkept, hsublist⟩
  · have hcrossed : ∀ i, DeclTable.interrupted.get? i = some .crossed →
        ∃ code, DeclTable.interrupted.published? i = some code := by
      intro i hi
      obtain ⟨-, code, hp, -⟩ := DeclTable.sorted_crossed hi rfl
      exact ⟨code, hp⟩
    obtain ⟨fc₀, hp₀⟩ := hcrossed ⟨0⟩ rfl
    obtain ⟨fc₃, hp₃⟩ := hcrossed ⟨3⟩ rfl
    have hp₁ : DeclTable.interrupted.published? ⟨1⟩ = none := rfl
    have hp₂ : DeclTable.interrupted.published? ⟨2⟩ = none := rfl
    rw [hs.functions, DeclTable.ids_interrupted]
    simp [hp₀, hp₁, hp₂, hp₃, DeclTable.decl_of_published? hp₀, DeclTable.decl_of_published? hp₃]
  · rw [hdiagnostics, List.filterMap_eq_nil_iff]
    intro i hi
    obtain ⟨hi, hn⟩ := List.mem_filter.mp hi
    refine Option.not_isSome_iff_eq_none.mp fun hd => ?_
    simp [hfailing i hi hd] at hn

end WasmLowering
