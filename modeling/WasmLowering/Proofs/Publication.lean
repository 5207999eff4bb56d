import Mathlib.Data.List.Nodup
import WasmLowering.Codegen.Run
import WasmLowering.Proofs.Delivery

/-!
# What a run publishes

A run that skips failures sorts the functions of a table into those that it publishes and those that
it reports. Which of the two happens to a function depends on the declarations alone, and only the
relocations of published functions are handed to the linker.
-/

namespace WasmLowering

namespace DeclTable

variable (t : DeclTable)

def decls : Array Decl := t.entries.map Entry.decl

def hasBody (i : DeclId) : Bool := (t.get? i).any fun d => d.body?.isSome

/-- The code of a function that is generated and calls declarations of the table only. -/
def published? (i : DeclId) : Option FunctionCode :=
  match t.get? i with
  | none => none
  | some d =>
    match d.body?, generateFunction i d with
    | some _, .ok code =>
      if code.relocs.all fun r => (t.get? r.target).isSome then some code else none
    | _, _ => none

/-- A function that fails, and how: it is not generated, or it calls what is not in the table. -/
def refused? (i : DeclId) : Option (Decl × Failure) :=
  match t.get? i with
  | none => none
  | some d =>
    match d.body?, generateFunction i d with
    | some _, .ok code =>
      match code.checkCallees t d with
      | .ok () => none
      | .error f => some (d, f)
    | some _, .error (.failed f) => some (d, f)
    | _, _ => none

def diagnosticOf (d : Decl) (f : Failure) : Diagnostic :=
  ⟨.error, f.message, some f.span, some d.name, some "codegen"⟩

/-- The report of a function that fails. -/
def diagnostic? (i : DeclId) : Option Diagnostic :=
  (t.refused? i).map fun (d, f) => diagnosticOf d f

/-- No function of the table breaks an invariant while it is generated. -/
def NeverBroken : Prop :=
  ∀ i ∈ t.ids, ∀ d v, t.get? i = some d → d.body?.isSome →
    generateFunction i d ≠ .error (.broken v)

/-- The table with the relocations of some functions handed to the linker. -/
def link (fs : List FunctionCode) : DeclTable :=
  fs.foldl (fun t code => t.addRelocs code.decl code.relocs) t

end DeclTable

/-- The functions of `t` have been sorted into published and reported ones. -/
structure Run.Publishes (t : DeclTable) (r : Run) : Prop where
  functions : r.code.functions = t.ids.filterMap t.published?
  diagnostics : r.code.diagnostics = t.ids.filterMap t.diagnostic?
  /-- The functions with a body are published or reported. -/
  bodies : ∀ i ∈ t.ids,
    t.hasBody i = true ↔ (t.published? i).isSome ∨ (t.diagnostic? i).isSome
  disjoint : ∀ i ∈ t.ids, t.published? i = none ∨ t.diagnostic? i = none
  relocs : ∀ i ∈ t.ids, ∀ code, t.published? i = some code →
    code.decl = i ∧ r.table.relocs? i = (t.relocs? i).map (· ++ code.relocs)
  others : ∀ n : Nat, (∀ i ∈ t.ids, i.index.toNat = n → t.published? i = none) →
    r.table.entries[n]? = t.entries[n]?
  decls : r.table.decls = t.decls
  errors : r.code.hasErrors = true ↔ ∃ i ∈ t.ids, (t.diagnostic? i).isSome

/-! ## Tables -/

theorem DeclId.eq_of_toNat_eq {i j : DeclId} (h : i.index.toNat = j.index.toNat) : i = j := by
  cases i
  cases j
  simpa [UInt32.toNat_inj] using h

namespace DeclTable

section Congr

variable {t t' : DeclTable}

theorem get?_eq (t : DeclTable) (i : DeclId) : t.get? i = t.decls[i.index.toNat]? := by
  simp [get?, entry?, decls]

theorem size_eq (t : DeclTable) : t.size = t.decls.size := by
  simp [size, decls]

theorem map_ids (t : DeclTable) :
    t.ids.map (fun i => i.index.toNat) = List.range (t.size % UInt32.size) := by
  unfold ids
  rw [List.map_map]
  refine (List.map_congr_left fun n hn => ?_).trans (List.map_id _)
  have hlt : n < UInt32.size := by
    have := List.mem_range.mp hn
    have := (UInt32.ofNat t.size).toNat_lt
    simp only [UInt32.size]
    omega
  exact Nat.mod_eq_of_lt hlt

theorem nodup_ids (t : DeclTable) : t.ids.Nodup := by
  refine List.Nodup.of_map (fun i => i.index.toNat) ?_
  rw [map_ids]
  exact List.nodup_range

variable (h : t'.decls = t.decls)
include h

theorem ids_congr : t'.ids = t.ids := by
  unfold ids
  rw [size_eq, size_eq, h]

theorem get?_congr : t'.get? = t.get? := by
  funext i
  rw [get?_eq, get?_eq, h]

theorem checkCallees_congr (code : FunctionCode) (d : Decl) :
    code.checkCallees t' d = code.checkCallees t d := by
  unfold FunctionCode.checkCallees
  rw [get?_congr h]

theorem generate_congr : t'.generate = t.generate := by
  funext i d
  unfold generate
  simp only [checkCallees_congr h]

theorem published?_congr : t'.published? = t.published? := by
  funext i
  unfold published?
  rw [get?_congr h]

theorem refused?_congr : t'.refused? = t.refused? := by
  funext i
  unfold refused?
  simp only [get?_congr h, checkCallees_congr h]

theorem diagnostic?_congr : t'.diagnostic? = t.diagnostic? := by
  funext i
  unfold diagnostic?
  rw [refused?_congr h]

theorem NeverBroken.congr (hb : t.NeverBroken) : t'.NeverBroken := by
  unfold NeverBroken
  rw [ids_congr h, get?_congr h]
  exact hb

end Congr

/-! ## Linking -/

theorem entries_addRelocs (t : DeclTable) (i : DeclId) (rs : List Reloc) (n : Nat) :
    (t.addRelocs i rs).entries[n]? = (t.entries[n]?).map fun e =>
      { e with relocs := e.relocs ++ if i.index.toNat = n then rs else [] } := by
  unfold addRelocs
  rw [Array.getElem?_modify]
  split
  · rfl
  · simp

theorem decls_addRelocs (t : DeclTable) (i : DeclId) (rs : List Reloc) :
    (t.addRelocs i rs).decls = t.decls := by
  refine Array.ext_getElem? fun n => ?_
  unfold decls
  rw [Array.getElem?_map, Array.getElem?_map, entries_addRelocs, Option.map_map]
  rfl

theorem decls_link (t : DeclTable) (fs : List FunctionCode) : (t.link fs).decls = t.decls := by
  induction fs generalizing t with
  | nil => rfl
  | cons code fs ih => exact (ih _).trans (decls_addRelocs t code.decl code.relocs)

/-- Every declaration is handed the relocations of the functions of its id. -/
theorem entries_link (t : DeclTable) (fs : List FunctionCode) (n : Nat) :
    (t.link fs).entries[n]? = (t.entries[n]?).map fun e => { e with
      relocs := e.relocs
        ++ (fs.filter fun code => code.decl.index.toNat == n).flatMap FunctionCode.relocs } := by
  induction fs generalizing t with
  | nil => simp [link]
  | cons code fs ih =>
      refine (ih _).trans ?_
      rw [entries_addRelocs, Option.map_map]
      by_cases hn : code.decl.index.toNat = n <;> simp [hn, Function.comp_def]

/-! ## Sorting -/

variable {t : DeclTable} {i : DeclId} {d : Decl}

theorem checkCallees_eq_ok_iff (code : FunctionCode) :
    code.checkCallees t d = .ok () ↔
      (code.relocs.all fun r => (t.get? r.target).isSome) = true := by
  unfold FunctionCode.checkCallees
  rw [List.all_eq_true]
  cases hf : code.relocs.find? fun r => (t.get? r.target).isNone with
  | none => simpa [Option.isSome_iff_ne_none] using List.find?_eq_none.mp hf
  | some r =>
      have hr := List.find?_some hf
      simp only [reduceCtorEq, false_iff]
      intro h
      have := h r (List.mem_of_find?_eq_some hf)
      simp_all

/-- A function without a body is passed over. Any other is published or refused, as its generation
ends. -/
theorem sorted (hi : i ∈ t.ids) (hb : t.NeverBroken) :
    (t.hasBody i = false ∧ t.published? i = none ∧ t.refused? i = none) ∨
    (∃ d code, t.get? i = some d ∧ d.body?.isSome ∧ t.generate i d = .ok code ∧
      t.published? i = some code ∧ t.refused? i = none) ∨
    ∃ d f, t.get? i = some d ∧ d.body?.isSome ∧ t.generate i d = .error (.failed f) ∧
      t.published? i = none ∧ t.refused? i = some (d, f) := by
  unfold hasBody published? refused? generate
  cases hd : t.get? i with
  | none => exact .inl ⟨rfl, rfl, rfl⟩
  | some d =>
      cases hbody : d.body? with
      | none => exact .inl ⟨by simp [hbody], by simp [hbody], by simp [hbody]⟩
      | some b =>
          cases hg : generateFunction i d with
          | error stop =>
              cases stop with
              | broken v => exact absurd hg (hb i hi d v hd (by simp [hbody]))
              | failed f =>
                  exact .inr (.inr ⟨d, f, rfl, by simp [hbody], by simp [hg, bind, Except.bind],
                    by simp [hbody, hg], by simp [hbody, hg]⟩)
          | ok code =>
              have hiff := checkCallees_eq_ok_iff (t := t) (d := d) code
              cases hc : code.checkCallees t d with
              | error f =>
                  rw [hc] at hiff
                  refine .inr (.inr ⟨d, f, rfl, by simp [hbody], ?_, ?_, ?_⟩)
                  · simp [hg, hc, bind, Except.bind, Except.mapError]
                  · simp only [hbody, hg]
                    simp [← hiff]
                  · simp [hbody, hg, hc]
              | ok u =>
                  refine .inr (.inl ⟨d, code, rfl, by simp [hbody], ?_, ?_, ?_⟩)
                  · simp [hg, hc, bind, Except.bind, Except.mapError, pure, Except.pure]
                  · simp only [hbody, hg]
                    exact if_pos (hiff.mp hc)
                  · simp [hbody, hg, hc]

theorem decl_of_published? {code : FunctionCode} (h : t.published? i = some code) :
    code.decl = i := by
  unfold published? at h
  cases hd : t.get? i with
  | none => simp [hd] at h
  | some d =>
      rw [hd] at h
      cases hg : generateFunction i d with
      | error stop => cases hbody : d.body? <;> simp [hg, hbody] at h
      | ok code' =>
          obtain ⟨_, _, _, hg'⟩ := generateFunction_eq_ok_iff.mp hg
          cases hbody : d.body? with
          | none => simp [hbody] at h
          | some b =>
              simp only [hbody, hg, Option.ite_none_right_eq_some, Option.some.injEq] at h
              rw [← h.2, hg'.code]

theorem filter_published_eq_nil {is : List DeclId} {n : Nat}
    (h : ∀ i ∈ is, i.index.toNat = n → t.published? i = none) :
    (is.filterMap t.published?).filter (fun code => code.decl.index.toNat == n) = [] := by
  rw [List.filter_eq_nil_iff]
  intro code hm he
  obtain ⟨i, hi, hp⟩ := List.mem_filterMap.mp hm
  have hn := h i hi (by rw [← decl_of_published? hp]; simpa using he)
  rw [hp] at hn
  cases hn

theorem filter_published_eq_singleton {is : List DeclId} {code : FunctionCode} (hn : is.Nodup)
    (hi : i ∈ is) (hp : t.published? i = some code) :
    (is.filterMap t.published?).filter (fun code => code.decl.index.toNat == i.index.toNat)
      = [code] := by
  obtain ⟨l, r, rfl⟩ := List.append_of_mem hi
  have hne : ∀ j ∈ l ++ r, j.index.toNat = i.index.toNat → t.published? j = none := by
    intro j hj he
    obtain rfl := DeclId.eq_of_toNat_eq he
    exact absurd hj (List.nodup_middle.mp hn |> List.nodup_cons.mp).1
  rw [List.filterMap_append, List.filterMap_cons_some hp, List.filter_append,
    filter_published_eq_nil fun j hj => hne j (List.mem_append_left _ hj),
    List.filter_cons_of_pos (by simp [decl_of_published? hp]),
    filter_published_eq_nil fun j hj => hne j (List.mem_append_right _ hj), List.nil_append]

end DeclTable

/-! ## Runs -/

namespace Run

/-- The functions of `done` have been sorted, and the table follows the published ones. -/
structure Sorted (t : DeclTable) (done : List DeclId) (r : Run) : Prop where
  functions : r.code.functions = done.filterMap t.published?
  diagnostics : r.code.diagnostics = done.filterMap t.diagnostic?
  table : r.table = t.link r.code.functions

variable {t : DeclTable} {done : List DeclId} {r : Run} {i : DeclId}

theorem sorted_start (t : DeclTable) : Sorted t [] (start t) := ⟨rfl, rfl, rfl⟩

theorem Sorted.log (h : Sorted t done r) (es : List Event) : Sorted t done (r.log es) :=
  ⟨h.functions, h.diagnostics, h.table⟩

theorem Sorted.decls (h : Sorted t done r) : r.table.decls = t.decls := by
  rw [h.table, DeclTable.decls_link]

theorem Sorted.publish {code : FunctionCode} (h : Sorted t done r)
    (hp : t.published? i = some code) (hd : t.refused? i = none) :
    Sorted t (done ++ [i]) (r.publish code) where
  functions := by simp [Run.publish, h.functions, hp]
  diagnostics := by simp [Run.publish, h.diagnostics, DeclTable.diagnostic?, hd]
  table := by
    simp only [Run.publish, DeclTable.link, List.foldl_append, List.foldl_cons, List.foldl_nil]
    rw [h.table, DeclTable.link]

theorem Sorted.report {d : Decl} {f : Failure} (h : Sorted t done r)
    (hp : t.published? i = none) (hd : t.refused? i = some (d, f)) :
    Sorted t (done ++ [i]) (r.report d f) where
  functions := by simp [Run.report, h.functions, hp]
  diagnostics := by
    simp [Run.report, h.diagnostics, DeclTable.diagnostic?, hd, DeclTable.diagnosticOf,
      Failure.diagnostic]
  table := h.table

theorem Sorted.pass (h : Sorted t done r) (hp : t.published? i = none) (hd : t.refused? i = none) :
    Sorted t (done ++ [i]) r where
  functions := by simp [h.functions, hp]
  diagnostics := by simp [h.diagnostics, DeclTable.diagnostic?, hd]
  table := h.table

/-- One more function is sorted, and the run goes on. -/
theorem Sorted.visit (h : Sorted t done r) (hi : i ∈ t.ids) (hb : t.NeverBroken) :
    ∃ r', r.visit .skip i = (r', .ok ()) ∧ Sorted t (done ++ [i]) r' := by
  unfold Run.visit
  rw [DeclTable.get?_congr h.decls, DeclTable.generate_congr h.decls]
  rcases DeclTable.sorted hi hb with ⟨hbody, hp, hd⟩ | ⟨d, code, hget, hbody, hg, hp, hd⟩
    | ⟨d, f, hget, hbody, hg, hp, hd⟩
  · refine ⟨r, ?_, h.pass hp hd⟩
    unfold DeclTable.hasBody at hbody
    cases hget : t.get? i with
    | none => rfl
    | some d => simp_all
  · refine ⟨_, ?_, (h.log (generationEvents i d)).publish hp hd⟩
    obtain ⟨b, hbody⟩ := Option.isSome_iff_exists.mp hbody
    simp [hget, hbody, hg]
  · refine ⟨_, ?_, ((h.log (generationEvents i d)).report hp hd).log [skipEvent d f]⟩
    obtain ⟨b, hbody⟩ := Option.isSome_iff_exists.mp hbody
    simp [hget, hbody, hg]

theorem Sorted.visitAll {is : List DeclId} (h : Sorted t done r) (hs : ∀ i ∈ is, i ∈ t.ids)
    (hb : t.NeverBroken) :
    ∃ r', r.visitAll .skip is = (r', .ok ()) ∧ Sorted t (done ++ is) r' := by
  induction is generalizing done r with
  | nil => exact ⟨_, rfl, by simpa using h.log [r.endEvent]⟩
  | cons i is ih =>
      obtain ⟨r₁, hv, h₁⟩ := h.visit (hs i (List.mem_cons_self ..)) hb
      obtain ⟨r₂, hr, h₂⟩ := ih h₁ fun j hj => hs j (List.mem_cons_of_mem _ hj)
      refine ⟨r₂, ?_, by simpa using h₂⟩
      rw [Run.visitAll, hv]
      exact hr

/-- When all functions have been sorted, the published ones are linked and nothing else changed. -/
theorem Sorted.publishes (h : Sorted t t.ids r) (hb : t.NeverBroken) : Publishes t r where
  functions := h.functions
  diagnostics := h.diagnostics
  bodies i hi := by
    unfold DeclTable.diagnostic?
    rcases DeclTable.sorted hi hb with ⟨hbody, hp, hd⟩ | ⟨d, code, hget, hbody, -, hp, hd⟩
      | ⟨d, f, hget, hbody, -, hp, hd⟩
    · simp [hbody, hp, hd]
    · simp [DeclTable.hasBody, hget, hbody, hp]
    · simp [DeclTable.hasBody, hget, hbody, hd]
  disjoint i hi := by
    unfold DeclTable.diagnostic?
    rcases DeclTable.sorted hi hb with ⟨-, hp, -⟩ | ⟨-, -, -, -, -, -, hd⟩ | ⟨-, -, -, -, -, hp, -⟩
    · exact .inl hp
    · exact .inr (by rw [hd]; rfl)
    · exact .inl hp
  relocs i hi code hp := by
    refine ⟨DeclTable.decl_of_published? hp, ?_⟩
    unfold DeclTable.relocs? DeclTable.entry?
    rw [h.table, h.functions, DeclTable.entries_link,
      DeclTable.filter_published_eq_singleton t.nodup_ids hi hp, Option.map_map, Option.map_map]
    simp [Function.comp_def]
  others n hn := by
    rw [h.table, h.functions, DeclTable.entries_link, DeclTable.filter_published_eq_nil hn]
    simp
  decls := h.decls
  errors := by
    unfold ModuleCode.hasErrors
    rw [h.diagnostics]
    simp [Option.isSome_iff_ne_none]

end Run

/-- A run that skips failures publishes and reports the functions of its table in the order of their
ids, and so does another run over the table that it leaves. -/
theorem run_skip {t : DeclTable} (hb : t.NeverBroken) :
    t.ids.map (fun i => i.index.toNat) = List.range (t.size % UInt32.size) ∧
      ∃ r r', t.run .skip = (r, .ok ()) ∧ r.Publishes t ∧
        r.table.run .skip = (r', .ok ()) ∧ r'.Publishes r.table ∧ r'.code = r.code := by
  obtain ⟨r, hr, hs⟩ := (Run.sorted_start t).visitAll (fun i hi => hi) hb
  have hb' := hb.congr hs.decls
  obtain ⟨r', hr', hs'⟩ := (Run.sorted_start r.table).visitAll (fun i hi => hi) hb'
  have hcode : r'.code = r.code := by
    have hf : r'.code.functions = r.code.functions := by
      rw [hs'.functions, hs.functions, DeclTable.ids_congr hs.decls,
        DeclTable.published?_congr hs.decls]
    have hd : r'.code.diagnostics = r.code.diagnostics := by
      rw [hs'.diagnostics, hs.diagnostics, DeclTable.ids_congr hs.decls,
        DeclTable.diagnostic?_congr hs.decls]
    calc r'.code = ⟨r'.code.functions, r'.code.diagnostics⟩ := rfl
      _ = r.code := by rw [hf, hd]
  exact ⟨t.map_ids, r, r', hr, hs.publishes hb, hr', hs'.publishes hb', hcode⟩

/-! ## A table of all sorts -/

def Decl.pointer : Decl := .function "pointer" ⟨[], .ptr .void⟩ .empty

/-- A function with one relocation already, the callee that it names, a function that calls what is
not in the table, and one that returns a pointer. -/
def DeclTable.mixed : DeclTable where
  entries := #[
    ⟨.crossed, [⟨9, ⟨1⟩⟩]⟩,
    ⟨.external "merge" ⟨[.int true 32, .int true 32], .int true 32⟩, []⟩,
    ⟨.settle, []⟩,
    ⟨.pointer, []⟩]

theorem run_skip_mixed :
    ∃ r, DeclTable.mixed.NeverBroken ∧ DeclTable.mixed.run .skip = (r, .ok ()) ∧
      r.code.functions.map FunctionCode.decl = [⟨0⟩] ∧
      r.code.diagnostics.map Diagnostic.source? = [some "settle", some "pointer"] ∧
      r.code.diagnostics.map Diagnostic.message = ["call to unknown declaration decl7",
        "unsupported type '*void' for wasm return type"] ∧
      r.table.relocs? ⟨0⟩ = some [⟨9, ⟨1⟩⟩, ⟨17, ⟨1⟩⟩] ∧
      r.table.entries[2]? = some ⟨.settle, []⟩ := by
  obtain ⟨fc₀, hg₀⟩ := exists_generates_crossed ⟨0⟩
  obtain ⟨fc₂, hg₂⟩ := exists_generates_settle ⟨2⟩
  have h₀ := generateFunction_eq_ok_iff.mpr ⟨_, _, _, hg₀⟩
  have h₂ := generateFunction_eq_ok_iff.mpr ⟨_, _, _, hg₂⟩
  have h₃ : generateFunction ⟨3⟩ .pointer
      = .error (.failed ⟨.synthetic, .returnType (.ptr .void)⟩) := rfl
  have hr₀ : fc₀.relocs = [⟨17, ⟨1⟩⟩] := by rw [hg₀.code]; decide +kernel
  have hr₂ : fc₂.relocs = [⟨20, ⟨7⟩⟩] := by rw [hg₂.code]; decide +kernel
  have hids : DeclTable.mixed.ids = [⟨0⟩, ⟨1⟩, ⟨2⟩, ⟨3⟩] := rfl
  have hb : DeclTable.mixed.NeverBroken := by
    intro i hi d v hd hbody hv
    have hi : i = ⟨0⟩ ∨ i = ⟨1⟩ ∨ i = ⟨2⟩ ∨ i = ⟨3⟩ := by simpa [hids] using hi
    rcases hi with rfl | rfl | rfl | rfl
    · obtain rfl : Decl.crossed = d := Option.some.inj hd
      rw [h₀] at hv
      cases hv
    · cases hd
      cases hbody
    · obtain rfl : Decl.settle = d := Option.some.inj hd
      rw [h₂] at hv
      cases hv
    · obtain rfl : Decl.pointer = d := Option.some.inj hd
      rw [h₃] at hv
      cases hv
  obtain ⟨-, r, -, hr, hp, -⟩ := run_skip hb
  have hp₀ : DeclTable.mixed.published? ⟨0⟩ = some fc₀ := by
    have hget : DeclTable.mixed.get? ⟨0⟩ = some .crossed := rfl
    have hbody : Decl.crossed.body? = some .crossed := rfl
    have hall : (fc₀.relocs.all fun r => (DeclTable.mixed.get? r.target).isSome) = true := by
      rw [hr₀]
      rfl
    simp only [DeclTable.published?, hget, hbody, h₀, if_pos hall]
  have hd₂ : DeclTable.mixed.refused? ⟨2⟩
      = some (.settle, ⟨.synthetic, .unknownCallee ⟨7⟩⟩) := by
    have hget : DeclTable.mixed.get? ⟨2⟩ = some .settle := rfl
    have hbody : Decl.settle.body? = some .settle := rfl
    have hcheck : fc₂.checkCallees .mixed .settle
        = .error ⟨.synthetic, .unknownCallee ⟨7⟩⟩ := by
      unfold FunctionCode.checkCallees
      rw [hr₂]
      rfl
    simp only [DeclTable.refused?, hget, hbody, h₂, hcheck]
  have hd₃ : DeclTable.mixed.refused? ⟨3⟩
      = some (.pointer, ⟨.synthetic, .returnType (.ptr .void)⟩) := rfl
  have hp₂ := (hp.disjoint ⟨2⟩ (by simp [hids])).resolve_right
    (by simp [DeclTable.diagnostic?, hd₂])
  have hd₀ := (hp.disjoint ⟨0⟩ (by simp [hids])).resolve_left (by simp [hp₀])
  have hfunctions : r.code.functions = [fc₀] := by
    rw [hp.functions, hids]
    simp [hp₀, hp₂, show DeclTable.mixed.published? ⟨1⟩ = none from rfl,
      show DeclTable.mixed.published? ⟨3⟩ = none from rfl]
  have hdiagnostics : r.code.diagnostics = [DeclTable.diagnosticOf .settle
      ⟨.synthetic, .unknownCallee ⟨7⟩⟩, DeclTable.diagnosticOf .pointer
      ⟨.synthetic, .returnType (.ptr .void)⟩] := by
    rw [hp.diagnostics, hids, List.filterMap_cons_none hd₀]
    simp [DeclTable.diagnostic?, hd₂, hd₃, show DeclTable.mixed.refused? ⟨1⟩ = none from rfl]
  refine ⟨r, hb, hr, ?_, ?_, ?_, ?_, ?_⟩
  · rw [hfunctions, List.map_singleton, hg₀.code]
  · rw [hdiagnostics]
    rfl
  · rw [hdiagnostics]
    decide +kernel
  · rw [(hp.relocs ⟨0⟩ (by simp [hids]) fc₀ hp₀).2, hr₀]
    rfl
  · rw [hp.others 2]
    · rfl
    · intro i hi hn
      obtain rfl : i = ⟨2⟩ := DeclId.eq_of_toNat_eq hn
      exact hp₂

end WasmLowering
