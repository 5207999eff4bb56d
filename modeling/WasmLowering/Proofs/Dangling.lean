import WasmLowering.Proofs.Isolation
import WasmLowering.Proofs.Relocations

/-!
# Calls of what is not in the table

The relocations of a function are looked through for a target that the table does not have, and the
place of the failure is looked for in the block. Both searches end at the same call, the first one
of the block that dangles, so a run publishes relocations within its table only.
-/

namespace WasmLowering

namespace Body

variable (b : Body) (t : DeclTable)

/-- The instruction calls what is not in the table. -/
def dangles (i : InstId) : Bool := (b.callTarget? i).any fun target => (t.get? target).isNone

/-- All calls of the instructions name declarations of the table. -/
def CallsWithin (is : List InstId) : Prop :=
  ∀ i ∈ is, ∀ target, b.callTarget? i = some target → (t.get? target).isSome

/-- The failure names the target of the first call that dangles, and it is located where that call
stands. -/
def FirstDangling (f : Failure) : Prop :=
  ∃ before i after inst target, b.code = before ++ i :: after ∧ b.get? i = some inst ∧
    b.callTarget? i = some target ∧ t.get? target = none ∧ b.CallsWithin t before ∧
    f = ⟨inst.span, .unknownCallee target⟩

end Body

namespace Run

/-- The run over `t` comes to the state `r`, and `rest` is still to be visited. -/
inductive Reaches (t : DeclTable) (policy : Policy) : Run → List DeclId → Prop
  | start : Reaches t policy (Run.start t) t.ids
  | visit {r r' : Run} {i : DeclId} {rest : List DeclId} :
      Reaches t policy r (i :: rest) → r.visit policy i = (r', .ok ()) → Reaches t policy r' rest

/-- The visit publishes the function. -/
structure Accepts (policy : Policy) (r : Run) (fc : FunctionCode) : Prop where
  outcome : (r.visit policy fc.decl).2 = .ok ()
  code : (r.visit policy fc.decl).1.code
    = { r.code with functions := r.code.functions ++ [fc] }
  table : (r.visit policy fc.decl).1.table = r.table.addRelocs fc.decl fc.relocs

/-- The visit of `i` reports the failure, and it stops there unless failures are skipped. -/
structure Refuses (policy : Policy) (r : Run) (i : DeclId) (d : Decl) (f : Failure) : Prop where
  outcome : (r.visit policy i).2
    = match policy with
      | .skip => .ok ()
      | .abort => .error (.failed f)
  code : (r.visit policy i).1.code
    = { r.code with diagnostics := r.code.diagnostics ++ [DeclTable.diagnosticOf d f] }
  table : (r.visit policy i).1.table = r.table

/-- The relocations that the run has published, in functions and to the linker, lie within `t`. -/
structure Within (t : DeclTable) (r : Run) : Prop where
  functions : ∀ fc ∈ r.code.functions, ∀ reloc ∈ fc.relocs, (t.get? reloc.target).isSome
  links : ∀ n : Nat, ∃ added : List Reloc,
    r.table.entries[n]? = (t.entries[n]?).map (fun e => { e with relocs := e.relocs ++ added }) ∧
      ∀ reloc ∈ added, (t.get? reloc.target).isSome

end Run

/-- Runs over `t` publish the function `fc` of the block `b`, or they refuse it at the first call
that dangles. -/
structure DeclTable.Judges (t : DeclTable) (policy : Policy) (d : Decl) (b : Body)
    (fc : FunctionCode) : Prop where
  /-- The place of the declaration never stands in for that of a call. -/
  located : ∀ reloc ∈ fc.relocs, (b.callSpan? reloc.target).isSome
  accepted : ∀ r rest, Run.Reaches t policy r (fc.decl :: rest) →
    (r.Accepts policy fc ↔ b.CallsWithin t b.code)
  refused : ¬b.CallsWithin t b.code → ∃ f, b.FirstDangling t f ∧
    ∀ r rest, Run.Reaches t policy r (fc.decl :: rest) → r.Refuses policy fc.decl d f
  completed : ∀ r, t.run policy = (r, .ok ()) →
    (fc ∈ r.code.functions ↔ fc.decl ∈ t.ids ∧ b.CallsWithin t b.code) ∧
      (fc.decl ∈ t.ids → ¬b.CallsWithin t b.code →
        ∃ f, b.FirstDangling t f ∧ DeclTable.diagnosticOf d f ∈ r.code.diagnostics)

/-! ## The two searches -/

namespace Body

variable {b : Body} {t : DeclTable} {i : InstId} {target : DeclId} {f : Failure}

theorem callTarget?_of_not_call (h : b.isCall i = false) : b.callTarget? i = none := by
  unfold isCall at h
  unfold callTarget?
  cases hi : b.get? i with
  | none => rfl
  | some inst =>
      rw [hi] at h
      cases hk : inst.kind with
      | call callee args => simp [hk] at h
      | _ => simp [hk, InstKind.callee?]

theorem exists_inst_of_callTarget? (h : b.callTarget? i = some target) :
    ∃ inst, b.get? i = some inst := by
  unfold callTarget? at h
  cases hi : b.get? i with
  | none => simp [hi] at h
  | some inst => exact ⟨inst, rfl⟩

theorem dangles_eq_true_iff :
    b.dangles t i = true ↔ ∃ target, b.callTarget? i = some target ∧ t.get? target = none := by
  simp [dangles, Option.any_eq_true]

theorem callsWithin_iff {is : List InstId} :
    b.CallsWithin t is ↔ ∀ i ∈ is, b.dangles t i = false := by
  refine forall₂_congr fun i _ => ?_
  rw [← Bool.not_eq_true, dangles_eq_true_iff]
  simp [Option.isSome_iff_ne_none]

theorem callsWithin_code_iff :
    b.CallsWithin t b.code ↔ b.code.find? (b.dangles t) = none := by
  simp [callsWithin_iff]

/-- The failure is that of the call that a search for calls that dangle comes to. -/
theorem firstDangling_iff : b.FirstDangling t f ↔ ∃ i inst target,
    b.code.find? (b.dangles t) = some i ∧ b.get? i = some inst ∧
      b.callTarget? i = some target ∧ f = ⟨inst.span, .unknownCallee target⟩ := by
  simp only [List.find?_eq_some_iff_append, Bool.not_eq_true', ← callsWithin_iff]
  constructor
  · rintro ⟨before, i, after, inst, target, hc, hi, ht, hn, hw, rfl⟩
    exact ⟨i, inst, target, ⟨dangles_eq_true_iff.mpr ⟨target, ht, hn⟩, before, after, hc, hw⟩, hi,
      ht, rfl⟩
  · rintro ⟨i, inst, target, ⟨hd, before, after, hc, hw⟩, hi, ht, rfl⟩
    obtain ⟨target', ht', hn⟩ := dangles_eq_true_iff.mp hd
    obtain rfl := Option.some.inj (ht.symm.trans ht')
    exact ⟨before, i, after, inst, target, hc, hi, ht, hn, hw, rfl⟩

theorem FirstDangling.not_callsWithin (h : b.FirstDangling t f) : ¬b.CallsWithin t b.code := by
  obtain ⟨i, inst, target, hf, -, -, -⟩ := firstDangling_iff.mp h
  rw [callsWithin_code_iff, hf]
  nofun

theorem callSpan?_eq (b : Body) (target : DeclId) : b.callSpan? target
    = b.code.findSome? fun i =>
      if b.callTarget? i = some target then (b.get? i).map Inst.span else none := by
  unfold callSpan?
  congr 1
  funext i
  cases hi : b.get? i with
  | none => simp
  | some inst =>
      rw [callTarget?_eq hi]
      cases hk : inst.kind with
      | call callee args =>
          simp only [hk, InstKind.callee?, Option.bind_some, Option.map_some]
          congr
      | _ => simp [hk, InstKind.callee?]

/-- The place of a target is that of the first call that has it. -/
theorem callSpan?_eq_some {before after : List InstId} {inst : Inst}
    (hc : b.code = before ++ i :: after) (hi : b.get? i = some inst)
    (ht : b.callTarget? i = some target) (hn : ∀ j ∈ before, b.callTarget? j ≠ some target) :
    b.callSpan? target = some inst.span := by
  rw [callSpan?_eq, List.findSome?_eq_some_iff]
  refine ⟨before, i, after, hc, ?_, fun j hj => if_neg (hn j hj)⟩
  rw [if_pos ht, hi, Option.map_some]

theorem isSome_callSpan? (hi : i ∈ b.code) (ht : b.callTarget? i = some target) :
    (b.callSpan? target).isSome := by
  obtain ⟨inst, hget⟩ := exists_inst_of_callTarget? ht
  rw [callSpan?_eq, List.findSome?_isSome_iff]
  refine ⟨i, hi, ?_⟩
  rw [if_pos ht, hget]
  rfl

end Body

namespace Generates

variable {id : DeclId} {d : Decl} {s : Signature} {b : Body} {slots : Slots} {fc : FunctionCode}
  {t : DeclTable}

theorem exists_of_ok (hb : d.body? = some b) (hg : generateFunction id d = .ok fc) :
    ∃ s slots, Generates id d s b slots fc := by
  obtain ⟨s, b', slots, h⟩ := generateFunction_eq_ok_iff.mp hg
  obtain rfl : b' = b := Option.some.inj (h.body.symm.trans hb)
  exact ⟨s, slots, h⟩

theorem decl (h : Generates id d s b slots fc) : fc.decl = id := by
  rw [h.code]

theorem map_target (h : Generates id d s b slots fc) :
    fc.relocs.map Reloc.target = b.code.filterMap b.callTarget? := by
  have hcalls : b.code.filterMap b.callTarget?
      = ((b.code.filter b.isCall).map b.callTarget?).filterMap fun target => target := by
    rw [List.filterMap_map, List.filterMap_filter]
    refine List.filterMap_congr fun i _ => ?_
    cases hc : b.isCall i with
    | true => rfl
    | false => exact Body.callTarget?_of_not_call hc
  rw [hcalls, ← h.marksCalls.targets]
  simp [List.filterMap_map]

/-- No target is without a place. -/
theorem isSome_callSpan? (h : Generates id d s b slots fc) :
    ∀ reloc ∈ fc.relocs, (b.callSpan? reloc.target).isSome := by
  intro reloc hr
  have hm := List.mem_map_of_mem (f := Reloc.target) hr
  rw [h.map_target] at hm
  obtain ⟨i, hi, ht⟩ := List.mem_filterMap.mp hm
  exact Body.isSome_callSpan? hi ht

/-- The first relocation that leaves the table is that of the first call that dangles. -/
theorem find?_target (h : Generates id d s b slots fc) (t : DeclTable) :
    (fc.relocs.find? fun reloc => (t.get? reloc.target).isNone).map Reloc.target
      = (b.code.find? (b.dangles t)).bind b.callTarget? := by
  have hf : (b.code.filterMap b.callTarget?).find? (fun target => (t.get? target).isNone)
      = (b.code.find? (b.dangles t)).bind b.callTarget? := List.find?_filterMap
  rw [← h.map_target, List.find?_map] at hf
  exact hf

/-- The calls of a function are found to be within the table, or else it fails at the first one
that dangles. -/
theorem checkCallees (h : Generates id d s b slots fc) :
    (b.CallsWithin t b.code ∧ fc.checkCallees t d = .ok ()) ∨
      ∃ f, b.FirstDangling t f ∧ fc.checkCallees t d = .error f := by
  have hfind := h.find?_target t
  unfold FunctionCode.checkCallees
  cases hf : b.code.find? (b.dangles t) with
  | none =>
      rw [hf, Option.bind_none, Option.map_eq_none_iff] at hfind
      rw [hfind]
      exact .inl ⟨Body.callsWithin_code_iff.mpr hf, rfl⟩
  | some i =>
      obtain ⟨hd, before, after, hc, hw⟩ := List.find?_eq_some_iff_append.mp hf
      obtain ⟨target, ht, hn⟩ := Body.dangles_eq_true_iff.mp hd
      obtain ⟨inst, hi⟩ := Body.exists_inst_of_callTarget? ht
      rw [hf, Option.bind_some, ht, Option.map_eq_some_iff] at hfind
      obtain ⟨reloc, hr, rfl⟩ := hfind
      -- a call before `i` with this target would dangle as well
      have hfirst : ∀ j ∈ before, b.callTarget? j ≠ some reloc.target := by
        intro j hj hjt
        have := hw j hj
        rw [Body.dangles_eq_true_iff.mpr ⟨_, hjt, hn⟩] at this
        cases this
      have hspan := Body.callSpan?_eq_some hc hi ht hfirst
      refine .inr ⟨⟨inst.span, .unknownCallee reloc.target⟩,
        Body.firstDangling_iff.mpr ⟨i, inst, _, hf, hi, ht, rfl⟩, ?_⟩
      simp only [hr, h.body, Option.bind_some, hspan, Option.getD_some]

end Generates

/-! ## Visits -/

namespace DeclTable

variable {t : DeclTable} {i : DeclId} {d : Decl} {fc : FunctionCode}

theorem generate_eq (hg : generateFunction i d = .ok fc) :
    t.generate i d = ((fc.checkCallees t d).mapError .failed).map fun _ => fc := by
  simp only [generate, hg, bind, Except.bind]
  cases fc.checkCallees t d <;> rfl

/-- What is generated for a table is a function with relocations within the table. -/
theorem within_of_generate (h : t.generate i d = .ok fc) :
    ∀ reloc ∈ fc.relocs, (t.get? reloc.target).isSome := by
  cases hg : generateFunction i d with
  | error stop => simp [generate, hg, bind, Except.bind] at h
  | ok fc' =>
      rw [generate_eq hg] at h
      cases hc : fc'.checkCallees t d with
      | error f => simp [hc, Except.mapError, Except.map] at h
      | ok u =>
          rw [hc] at h
          obtain rfl := Except.ok.inj h
          exact List.all_eq_true.mp ((checkCallees_eq_ok_iff fc').mp hc)

end DeclTable

namespace Run

variable {t : DeclTable} {policy : Policy} {r : Run} {i : DeclId} {d : Decl} {b : Body}
  {fc : FunctionCode} {rest : List DeclId}

theorem Reaches.decls (h : Reaches t policy r rest) : r.table.decls = t.decls := by
  induction h with
  | start => rfl
  | @visit r r' i rest _ hv ih =>
      have hd := decls_visit policy r i
      rw [hv] at hd
      exact hd.trans ih

/-- The run is what has been reached, and what is done from there. -/
theorem Reaches.run_eq (h : Reaches t policy r rest) :
    t.run policy = r.visitAll policy rest := by
  induction h with
  | start => rfl
  | visit _ hv ih => rw [ih, visitAll, hv]

theorem accepts_of_generate (hi : r.table.get? fc.decl = some d) (hb : d.body? = some b)
    (hg : r.table.generate fc.decl d = .ok fc) : r.Accepts policy fc := by
  have hv : r.visit policy fc.decl
      = ((r.log (generationEvents fc.decl d)).publish fc, .ok ()) := by
    simp [visit, hi, hb, hg]
  constructor <;> rw [hv] <;> rfl

theorem refuses_of_generate {f : Failure} (hi : r.table.get? i = some d) (hb : d.body? = some b)
    (hg : r.table.generate i d = .error (.failed f)) : r.Refuses policy i d f := by
  cases policy with
  | skip =>
      have hv : r.visit .skip i
          = (((r.log (generationEvents i d)).report d f).log [skipEvent d f], .ok ()) := by
        simp [visit, hi, hb, hg]
      constructor <;> rw [hv] <;> rfl
  | abort =>
      have hv : r.visit .abort i
          = ((r.log (generationEvents i d)).report d f, .error (.failed f)) := by
        simp [visit, hi, hb, hg]
      constructor <;> rw [hv] <;> rfl

theorem Refuses.not_accepts {f : Failure} (h : r.Refuses policy fc.decl d f) :
    ¬r.Accepts policy fc := by
  intro ha
  have hcode := congrArg ModuleCode.functions (h.code.symm.trans ha.code)
  simp at hcode

/-! ## Published relocations -/

/-- The linker has been told what the published functions need, and that is within the table. -/
structure Linked (t : DeclTable) (r : Run) : Prop where
  table : r.table = t.link r.code.functions
  functions : ∀ fc ∈ r.code.functions, ∀ reloc ∈ fc.relocs, (t.get? reloc.target).isSome

theorem linked_start (t : DeclTable) : Linked t (start t) where
  table := rfl
  functions := List.forall_mem_nil _

theorem Linked.publish (h : Linked t r) (hf : ∀ reloc ∈ fc.relocs, (t.get? reloc.target).isSome) :
    Linked t (r.publish fc) where
  table := by
    change r.table.addRelocs fc.decl fc.relocs = t.link (r.code.functions ++ [fc])
    rw [DeclTable.link_append, ← h.table]
    rfl
  functions := List.forall_mem_append.mpr ⟨h.functions, List.forall_mem_singleton.mpr hf⟩

theorem Linked.visit (h : Linked t r) (policy : Policy) (i : DeclId) :
    Linked t (r.visit policy i).1 := by
  unfold Run.visit
  split
  · exact h
  · split
    · exact h
    · have hlog : ∀ es, Linked t (r.log es) := fun es => ⟨h.table, h.functions⟩
      dsimp only
      split
      case _ fc hg =>
        refine (hlog _).publish fun reloc hr => ?_
        rw [← DeclTable.get?_congr (show r.table.decls = t.decls by
          rw [h.table, DeclTable.decls_link])]
        exact DeclTable.within_of_generate hg reloc hr
      case _ => exact hlog _
      case _ => cases policy <;> exact ⟨h.table, h.functions⟩

theorem Linked.visitAll (h : Linked t r) (policy : Policy) (is : List DeclId) :
    Linked t (r.visitAll policy is).1 := by
  induction is generalizing r with
  | nil => exact ⟨h.table, h.functions⟩
  | cons i is ih =>
      have hi := h.visit policy i
      rw [Run.visitAll]
      rcases hv : r.visit policy i with ⟨r', stop | u⟩
      · rw [hv] at hi
        exact hi
      · rw [hv] at hi
        exact ih hi

theorem Linked.within (h : Linked t r) : Within t r where
  functions := h.functions
  links n := by
    refine ⟨(r.code.functions.filter fun fc => fc.decl.index.toNat == n).flatMap
      FunctionCode.relocs, ?_, ?_⟩
    · rw [h.table]
      exact DeclTable.entries_link t r.code.functions n
    · intro reloc hr
      obtain ⟨fc, hf, hr⟩ := List.mem_flatMap.mp hr
      exact h.functions fc (List.mem_of_mem_filter hf) reloc hr

end Run

/-! ## Runs -/

namespace DeclTable

variable {t : DeclTable} {i : DeclId} {d : Decl} {b : Body} {fc : FunctionCode}

/-- A function whose calls are within the table is published. -/
theorem published?_iff_callsWithin (hi : t.get? i = some d) (hb : d.body? = some b)
    (hg : generateFunction i d = .ok fc) :
    t.published? i = some fc ↔ b.CallsWithin t b.code := by
  obtain ⟨s, slots, h⟩ := Generates.exists_of_ok hb hg
  have hp : t.published? i = some fc ↔ fc.checkCallees t d = .ok () := by
    simp only [published?, hi, hb, hg, checkCallees_eq_ok_iff, Option.ite_none_right_eq_some,
      and_true]
  rw [hp]
  rcases h.checkCallees (t := t) with ⟨hw, hc⟩ | ⟨f, hf, hc⟩
  · exact iff_of_true hc hw
  · rw [hc]
    exact iff_of_false (by simp) hf.not_callsWithin

theorem generate_of_callsWithin (hb : d.body? = some b) (hg : generateFunction i d = .ok fc)
    (hw : b.CallsWithin t b.code) : t.generate i d = .ok fc := by
  obtain ⟨s, slots, h⟩ := Generates.exists_of_ok hb hg
  rcases h.checkCallees (t := t) with ⟨-, hc⟩ | ⟨f, hf, -⟩
  · rw [generate_eq hg, hc]
    rfl
  · exact absurd hw hf.not_callsWithin

/-- A function that is not published is refused at the first call that dangles. -/
theorem exists_firstDangling (hi : t.get? i = some d) (hb : d.body? = some b)
    (hg : generateFunction i d = .ok fc) (hw : ¬b.CallsWithin t b.code) :
    ∃ f, b.FirstDangling t f ∧ t.generate i d = .error (.failed f) ∧
      t.refused? i = some (d, f) := by
  obtain ⟨s, slots, h⟩ := Generates.exists_of_ok hb hg
  obtain ⟨f, hf, hc⟩ := (h.checkCallees (t := t)).resolve_left fun hw' => hw hw'.1
  refine ⟨f, hf, ?_, ?_⟩
  · rw [generate_eq hg, hc]
    rfl
  · simp only [refused?, hi, hb, hg, hc]

theorem judges (policy : Policy) (hi : t.get? i = some d) (hb : d.body? = some b)
    (hg : generateFunction i d = .ok fc) : t.Judges policy d b fc := by
  obtain ⟨s, slots, h⟩ := Generates.exists_of_ok hb hg
  obtain rfl := h.decl
  have hrefused : ¬b.CallsWithin t b.code → ∃ f, b.FirstDangling t f ∧
      ∀ r rest, Run.Reaches t policy r (fc.decl :: rest) → r.Refuses policy fc.decl d f := by
    intro hw
    obtain ⟨f, hf, hgen, -⟩ := exists_firstDangling hi hb hg hw
    refine ⟨f, hf, fun r rest hr => Run.refuses_of_generate ?_ hb ?_⟩
    · rw [get?_congr hr.decls, hi]
    · rw [generate_congr hr.decls, hgen]
  constructor
  case located => exact h.isSome_callSpan?
  case refused => exact hrefused
  case accepted =>
    intro r rest hr
    constructor
    · intro ha
      by_contra hw
      obtain ⟨f, -, hf⟩ := hrefused hw
      exact (hf r rest hr).not_accepts ha
    · intro hw
      refine Run.accepts_of_generate (by rw [get?_congr hr.decls, hi]) hb ?_
      rw [generate_congr hr.decls, generate_of_callsWithin hb hg hw]
  case completed =>
    intro r hr
    have hs := (sorted_of_run hr).1
    refine ⟨?_, fun hm hw => ?_⟩
    · rw [hs.mem_functions, published?_iff_callsWithin hi hb hg]
    · obtain ⟨f, hf, -, hd⟩ := exists_firstDangling hi hb hg hw
      refine ⟨f, hf, ?_⟩
      rw [hs.diagnostics]
      exact List.mem_filterMap.mpr ⟨fc.decl, hm, by rw [diagnostic?, hd]; rfl⟩

end DeclTable

/-- A function that a run comes to is published exactly when all its calls are within the table, and
else it fails where the first call that dangles stands. Nothing that leaves the table is ever
published, however the run ends. -/
theorem run_refuses_dangling (t : DeclTable) (policy : Policy) :
    (∀ i d b fc, t.get? i = some d → d.body? = some b → generateFunction i d = .ok fc →
      fc.decl = i ∧ t.Judges policy d b fc) ∧
    (∀ r rest, Run.Reaches t policy r rest → t.run policy = r.visitAll policy rest) ∧
    (t.run policy).1.Within t := by
  refine ⟨?judged, fun r rest hr => hr.run_eq, ?within⟩
  case judged =>
    intro i d b fc hi hb hg
    obtain ⟨_, _, h⟩ := Generates.exists_of_ok hb hg
    exact ⟨h.decl, DeclTable.judges policy hi hb hg⟩
  case within => exact ((Run.linked_start t).visitAll policy t.ids).within

/-! ## Four calls into tables of two sizes -/

def Decl.next : Decl := .external "next" ⟨[.int true 32], .void⟩

/-- Four calls, and `n` declarations that can be called. -/
def DeclTable.relaying (n : Nat) : DeclTable :=
  ⟨(⟨.relay, []⟩ :: List.replicate n ⟨.next, []⟩).toArray⟩

namespace DeclTable

theorem neverBroken_relaying (n : Nat) : (relaying n).NeverBroken := by
  intro i _ d v hd hbody hv
  have hm : d = .relay ∨ d = .next := by
    obtain ⟨e, he, rfl⟩ := Option.map_eq_some_iff.mp hd
    have he := Array.mem_of_getElem? he
    simp only [relaying, List.mem_toArray, List.mem_cons, List.mem_replicate] at he
    rcases he with rfl | ⟨-, rfl⟩
    · exact .inl rfl
    · exact .inr rfl
  rcases hm with rfl | rfl
  · obtain ⟨fc, hg⟩ := exists_generates_relay i
    rw [generateFunction_eq_ok_iff.mpr ⟨_, _, _, hg⟩] at hv
    cases hv
  · cases hbody

theorem callsWithin_relaying : Body.relay.CallsWithin (relaying 9) Body.relay.code :=
  Body.callsWithin_code_iff.mpr (by decide +kernel)

theorem eq_of_firstDangling_relaying {f : Failure} (h : Body.relay.FirstDangling (relaying 1) f) :
    f = ⟨⟨0, 20, 24⟩, .unknownCallee ⟨9⟩⟩ := by
  obtain ⟨i, inst, target, hf, hi, ht, rfl⟩ := Body.firstDangling_iff.mp h
  have hfind : Body.relay.code.find? (Body.relay.dangles (relaying 1)) = some ⟨5⟩ := by
    decide +kernel
  obtain rfl := Option.some.inj (hf.symm.trans hfind)
  obtain rfl := Option.some.inj hi
  obtain rfl := Option.some.inj ht
  rfl

end DeclTable

theorem run_refuses_dangling_relaying :
    ∃ fc r r', generateFunction ⟨0⟩ .relay = .ok fc ∧
      (DeclTable.relaying 9).run .skip = (r', .ok ()) ∧ fc ∈ r'.code.functions ∧
      (DeclTable.relaying 1).run .skip = (r, .ok ()) ∧ fc ∉ r.code.functions ∧
      DeclTable.diagnosticOf .relay ⟨⟨0, 20, 24⟩, .unknownCallee ⟨9⟩⟩ ∈ r.code.diagnostics ∧
      ((DeclTable.relaying 1).run .abort).2
        = .error (.failed ⟨⟨0, 20, 24⟩, .unknownCallee ⟨9⟩⟩) := by
  obtain ⟨fc, h⟩ := exists_generates_relay ⟨0⟩
  have hg := generateFunction_eq_ok_iff.mpr ⟨_, _, _, h⟩
  have hn : ¬Body.relay.CallsWithin (DeclTable.relaying 1) Body.relay.code := by
    rw [Body.callsWithin_code_iff]
    decide +kernel
  obtain ⟨r, hr, -⟩ := DeclTable.exists_run_skip (DeclTable.neverBroken_relaying 1)
  obtain ⟨r', hr', -⟩ := DeclTable.exists_run_skip (DeclTable.neverBroken_relaying 9)
  have hids : ∀ n, n = 1 ∨ n = 9 → fc.decl ∈ (DeclTable.relaying n).ids := by
    rw [h.decl]
    rintro n (rfl | rfl) <;> decide +kernel
  have hwide := ((run_refuses_dangling (.relaying 9) .skip).1 ⟨0⟩ _ _ fc rfl rfl hg).2
  have hskip := ((run_refuses_dangling (.relaying 1) .skip).1 ⟨0⟩ _ _ fc rfl rfl hg).2
  obtain ⟨hjudged, hreached, -⟩ := run_refuses_dangling (.relaying 1) .abort
  obtain ⟨f, hf, hd⟩ := (hskip.completed r hr).2 (hids 1 (.inl rfl)) hn
  obtain rfl := DeclTable.eq_of_firstDangling_relaying hf
  obtain ⟨f, hf, hstop⟩ := (hjudged ⟨0⟩ _ _ fc rfl rfl hg).2.refused hn
  obtain rfl := DeclTable.eq_of_firstDangling_relaying hf
  have hstart : Run.Reaches (.relaying 1) .abort (.start (.relaying 1)) (fc.decl :: [⟨1⟩]) := by
    rw [h.decl]
    exact .start
  refine ⟨fc, r, r', hg, hr', ?_, hr, ?_, hd, ?_⟩
  · exact (hwide.completed r' hr').1.mpr ⟨hids 9 (.inr rfl), DeclTable.callsWithin_relaying⟩
  · exact fun hm => hn ((hskip.completed r hr).1.mp hm).2
  · have hout := (hstop _ _ hstart).outcome
    rw [hreached _ _ hstart, Run.visitAll]
    rcases hv : (Run.start (.relaying 1)).visit .abort fc.decl with ⟨a, stop | u⟩
    · rw [hv] at hout
      exact hout
    · rw [hv] at hout
      cases hout

end WasmLowering
