import WasmLowering.Command.Program
import WasmLowering.Proofs.CodeSection
import WasmLowering.Proofs.ModuleText

/-!
# What a command writes

A command writes once, at its end, and what it writes has been rendered as a whole. Only a text that
is no module and a run that aborts keep it from writing: the bodies of a completed run can be read
back, so that none of the written forms fails.
-/
namespace WasmLowering

/-! ## Rendering -/

theorem Generates.exists_listing {id : DeclId} {d : Decl} {s : Signature} {b : Body} {slots : Slots}
    {fc : FunctionCode} (h : Generates id d s b slots fc) : ∃ text, fc.listing = .ok text := by
  have hread := h.read
  exact ⟨_, by rw [FunctionCode.listing, FunctionCode.decode, hread]; rfl⟩

theorem ModuleCode.exists_listing {m : ModuleCode}
    (h : ∀ fc ∈ m.functions, ∃ text, fc.listing = .ok text) : ∃ text, m.listing = .ok text := by
  have all : ∀ fs : List FunctionCode, (∀ fc ∈ fs, ∃ text, fc.listing = .ok text) →
      ∃ texts, fs.mapM FunctionCode.listing = .ok texts := by
    intro fs hfs
    induction fs with
    | nil => exact ⟨[], rfl⟩
    | cons fc fs ih =>
        obtain ⟨text, ht⟩ := hfs fc List.mem_cons_self
        obtain ⟨texts, hts⟩ := ih fun fc hm => hfs fc (.tail _ hm)
        exact ⟨text :: texts, by rw [List.mapM_cons, ht, hts]; rfl⟩
  obtain ⟨texts, hts⟩ := all m.functions h
  exact ⟨_, by rw [ModuleCode.listing, hts]; rfl⟩

theorem DeclTable.exists_listing_of_run {t : DeclTable} {policy : Policy} {r : Run}
    (h : t.run policy = (r, .ok ())) : ∃ text, r.code.listing = .ok text := by
  refine ModuleCode.exists_listing fun fc hm => ?_
  obtain ⟨d, s, b, slots, hg⟩ := generates_of_run h hm
  exact hg.exists_listing

theorem ModuleCode.exists_render {m : ModuleCode} {text : String} (h : m.listing = .ok text)
    (t : DeclTable) (f : OutputFormat) : ∃ bytes, m.render t f = .ok bytes := by
  cases f with
  | binary => exact ⟨_, rfl⟩
  | hex => exact ⟨_, rfl⟩
  | listing => exact ⟨_, by rw [ModuleCode.render, h]; rfl⟩

/-! ## Counting -/

theorem Run.Publishes.length_add {t : DeclTable} {r : Run} (h : r.Publishes t) :
    r.code.functions.length + r.code.diagnostics.length = t.ids.countP t.hasBody := by
  have count : ∀ is : List DeclId, (∀ i ∈ is, i ∈ t.ids) →
      (is.filterMap t.published?).length + (is.filterMap t.diagnostic?).length
        = is.countP t.hasBody := by
    intro is his
    induction is with
    | nil => rfl
    | cons i is ih =>
        have rest := ih fun j hj => his j (.tail _ hj)
        have hb := h.bodies i (his i List.mem_cons_self)
        have hd := h.disjoint i (his i List.mem_cons_self)
        cases hp : t.published? i with
        | none =>
            cases hq : t.diagnostic? i with
            | none =>
                simp only [hp, hq, Option.isSome_none, Bool.false_eq_true, or_self, iff_false] at hb
                simp [hp, hq, hb, rest]
            | some _ =>
                have hb : t.hasBody i = true := hb.2 (.inr (by simp [hq]))
                simp [hp, hq, hb, ← rest]
                omega
        | some _ =>
            have hq : t.diagnostic? i = none := hd.resolve_left (by simp [hp])
            have hb : t.hasBody i = true := hb.2 (.inl (by simp [hp]))
            simp [hp, hq, hb, ← rest]
            omega
  rw [h.functions, h.diagnostics, count t.ids fun _ hi => hi]

theorem Module.decls_table (m : Module) : m.table.decls = m.decls.toArray := by
  simp [DeclTable.decls, entries_table, Function.comp_def]

theorem Module.get?_table (m : Module) (i : DeclId) :
    m.table.get? i = m.decls[i.index.toNat]? := by
  rw [DeclTable.get?_eq, decls_table, List.getElem?_toArray]

theorem countP_range_getElem? {α : Type} (p : α → Bool) (as : List α) :
    (List.range as.length).countP (fun n => as[n]?.any p) = as.countP p := by
  induction as with
  | nil => rfl
  | cons a as ih =>
      rw [List.length_cons, List.range_succ_eq_map, List.countP_cons, List.countP_map,
        List.countP_cons, ← ih]
      rfl

/-- There are ids for as many declarations as 32 bits can count. -/
theorem Module.countP_hasBody {m : Module} (h : m.decls.length < UInt32.size) :
    m.table.ids.countP m.table.hasBody = m.decls.countP fun d => d.body?.isSome := by
  have hids : m.table.ids.map (fun i => i.index.toNat) = List.range m.decls.length := by
    rw [DeclTable.map_ids, DeclTable.size_eq, decls_table, List.size_toArray, Nat.mod_eq_of_lt h]
  have hbody : m.table.hasBody
      = (fun n => m.decls[n]?.any fun d => d.body?.isSome) ∘ fun i => i.index.toNat := by
    funext i
    simp [DeclTable.hasBody, get?_table]
  rw [hbody, ← List.countP_map, hids, countP_range_getElem?]

/-! ## Outcomes -/

/-- The compiler has refused the input with `e`, and nothing is written. -/
structure Outcome.Refused (out : Outcome Summary) (e : Error) : Prop where
  result : out.result = .error (.failed (.compilation e))
  written : out.written? = none

/-- The run `r` over the module is completed, and `bytes` are its code in the format `f`. -/
structure Outcome.Completed (out : Outcome Summary) (m : Module) (policy : Policy)
    (f : OutputFormat) (r : Run) (s : Summary) (bytes : List UInt8) : Prop where
  run : m.table.run policy = (r, .ok ())
  result : out.result = .ok s
  written : out.written? = some bytes
  rendered : r.code.render r.table f = .ok bytes
  listed : ∃ text, r.code.listing = .ok text
  generated : s.generated = r.code.functions.length
  failed : s.failed = r.code.diagnostics.length
  counted : s.generated + s.failed = m.table.ids.countP m.table.hasBody
  /-- Beyond 32 bits there are declarations without an id. -/
  bodies : m.decls.length < UInt32.size →
    s.generated + s.failed = m.decls.countP fun d => d.body?.isSome

/-- The program ends as the command did, and writes the same to the one place it was given. -/
structure Program.Exit.Reports (x : Program.Exit) (out : Outcome Summary) (output? : Option String) :
    Prop where
  status : x.status = 0 ↔ ∃ s, out.result = .ok s ∧ s.failed = 0
  stdout : x.stdout = if output?.isNone then out.written?.getD [] else []
  file : x.file? = out.written?.bind fun bytes => output?.map (·, bytes)

namespace Job

variable {env : Environment} {job : Job} {config : Config} {m : Module}

theorem readModule_eq {source : String} (h : env.readText job.input = .ok source) :
    job.readModule env = (Module.ofText source).mapError fun m => .compilation (.source m) := by
  rw [readModule, h]
  rfl

theorem generate_of_error {e : Error} (h : job.readModule env = .error (.compilation e)) :
    (job.generate env config).Refused e := by
  unfold generate
  rw [h]
  exact ⟨rfl, rfl⟩

theorem generate_of_failed {f : Failure} (hm : job.readModule env = .ok m)
    (h : (m.table.run config.policy).2 = .error (.failed f)) :
    (job.generate env config).Refused (.codegen f) := by
  unfold generate
  rw [hm]
  dsimp only
  rw [h]
  exact ⟨rfl, rfl⟩

theorem generate_of_broken {v : Violation} (hm : job.readModule env = .ok m)
    (h : (m.table.run config.policy).2 = .error (.broken v)) :
    (job.generate env config).result = .error (.broken v) := by
  unfold generate
  rw [hm]
  dsimp only
  rw [h]
  rfl

theorem generate_of_run {r : Run} (hm : job.readModule env = .ok m)
    (hw : job.writeError? env = none) (h : m.table.run config.policy = (r, .ok ())) :
    ∃ s bytes, (job.generate env config).Completed m config.policy (job.format?.getD config.format)
      r s bytes := by
  have hb := DeclTable.neverBroken_of_run (congrArg Prod.snd h)
  have count := ((DeclTable.sorted_of_run h).1.publishes hb).length_add
  obtain ⟨text, listed⟩ := DeclTable.exists_listing_of_run h
  obtain ⟨bytes, rendered⟩ :=
    ModuleCode.exists_render listed r.table (job.format?.getD config.format)
  have out : job.generate env config = ⟨job.loadedEvent m :: r.events ++ [finishedEvent
      ⟨r.code.functions.length, r.code.diagnostics.length⟩], some bytes,
      .ok ⟨r.code.functions.length, r.code.diagnostics.length⟩⟩ := by
    simp only [generate, hm, h, write, rendered, hw]
  refine ⟨⟨r.code.functions.length, r.code.diagnostics.length⟩, bytes, ?_⟩
  exact {
    run := h
    result := by rw [out]
    written := by rw [out]
    rendered := rendered
    listed := ⟨text, listed⟩
    generated := rfl
    failed := rfl
    counted := count
    bodies := fun hlt => count.trans (Module.countP_hasBody hlt) }

end Job

theorem Program.reports_run {env : Environment} {o : CommandLine.Options} {input : String}
    {config : Config} (h : Config.load env o.config? = .ok config) :
    (run env o input).Reports ((job o input).generate env (configure o config)) o.output? := by
  rw [run, h]
  dsimp only [runWith]
  generalize (job o input).generate env (configure o config) = out
  constructor
  case status =>
    have status : (conclusion o out.result).1 = 0 ↔ ∃ s, out.result = .ok s ∧ s.failed = 0 := by
      rcases out.result with (e | v) | s <;> simp [conclusion]
    split <;> exact status
  case stdout => cases out.written? <;> cases o.output? <;> rfl
  case file => cases out.written? <;> cases o.output? <;> rfl

namespace Job

variable {env : Environment} {job : Job} {config : Config} {source : String}

/-- A command that can read its input and write its output, and that breaks no invariant, writes
nothing if the input is no module or if it aborts at a function that fails. In all other cases it
writes the code of the functions that do not fail. -/
theorem generate_completed (hs : env.readText job.input = .ok source)
    (hw : job.writeError? env = none)
    (hb : ∀ v, (job.generate env config).result ≠ .error (.broken v)) :
    (∀ e, Module.ofText source = .error e → (job.generate env config).Refused (.source e)) ∧
    (∀ m, Module.ofText source = .ok m →
      (config.policy = .abort → ∀ i ∈ m.table.ids, (m.table.refused? i).isSome →
        ∃ f, (job.generate env config).Refused (.codegen f)) ∧
      ((config.policy = .abort → ∀ i ∈ m.table.ids, m.table.refused? i = none) →
        ∃ r s bytes, (job.generate env config).Completed m config.policy
          (job.format?.getD config.format) r s bytes)) ∧
    ∀ o c, Config.load env o.config? = .ok c → job = Program.job o job.input →
      config = Program.configure o c →
      (Program.run env o job.input).Reports (job.generate env config) job.output? := by
  refine ⟨fun e he => ?_, fun m hm => ?_, fun o c hc hj hconfig => ?_⟩
  · apply generate_of_error
    rw [readModule_eq hs, he]
    rfl
  · have hread : job.readModule env = .ok m := by
      rw [readModule_eq hs, hm]
      rfl
    rcases hr : m.table.run config.policy with ⟨r, (f | v) | u⟩
    · have hfailed : (m.table.run config.policy).2 = .error (.failed f) := by rw [hr]
      obtain ⟨hp, i, hi, d, hd⟩ := Run.refused?_of_visitAll hfailed
      have hd : m.table.refused? i = some (d, f) := hd
      refine ⟨fun _ _ _ _ => ⟨f, generate_of_failed hread hfailed⟩, fun h => ?_⟩
      rw [h hp i hi] at hd
      cases hd
    · exact absurd (generate_of_broken hread (by rw [hr])) (hb v)
    · refine ⟨fun hp i hi hd => ?_, fun _ => ⟨r, generate_of_run hread hw hr⟩⟩
      rw [(DeclTable.sorted_of_run hr).2 hp i hi] at hd
      cases hd
  · have reports : (Program.run env o job.input).Reports _ _ := Program.reports_run hc
    have output : job.output? = o.output? := congrArg Job.output? hj
    rwa [← hj, ← hconfig, ← output] at reports

end Job

/-! ## A module with a function that fails -/

def Module.interrupted : Module where
  decls :=
    [.crossed, .external "merge" ⟨[.int true 32, .int true 32], .int true 32⟩, .pointer, .crossed]

/-- One file that can be read, and nothing against writing. -/
def Environment.holding (path text : String) : Environment where
  read p := if p = path then .ok text.toUTF8.data.toList else .error .missing
  writeError? _ := none

theorem Environment.readText_holding (path text : String) :
    (holding path text).readText path = .ok text := by
  have decoded : String.fromUTF8? text.toUTF8 = some text := by
    rw [String.fromUTF8?, dif_pos (text.toUTF8_eq_toByteArray ▸ text.isValidUTF8)]
    rfl
  have bytes : (ByteArray.mk text.toUTF8.data.toList.toArray) = text.toUTF8 := by simp
  have read : (holding path text).read path = .ok text.toUTF8.data.toList := if_pos rfl
  simp only [readText, read, bind, Except.bind, bytes, decoded]
  rfl

namespace Module

theorem decls_table_interrupted : interrupted.table.decls = DeclTable.interrupted.decls := by
  rw [decls_table]
  simp [interrupted, DeclTable.decls, DeclTable.interrupted]

theorem ofText_text_interrupted : ofText interrupted.text = .ok interrupted :=
  ofText_eq_ok (by decide) (by decide)

theorem run_skip_table_interrupted :
    ∃ r, interrupted.table.run .skip = (r, .ok ()) ∧ r.code.functions.length = 2 ∧
      r.code.diagnostics.length = 1 := by
  have hids := DeclTable.ids_congr decls_table_interrupted
  obtain ⟨r, hr, hs⟩ :=
    DeclTable.exists_run_skip (DeclTable.neverBroken_interrupted.congr decls_table_interrupted)
  obtain ⟨fc₀, fc₃, hf, -⟩ := DeclTable.functions_interrupted
  refine ⟨r, hr, ?_, ?_⟩
  · rw [hs.functions, hids, DeclTable.published?_congr decls_table_interrupted, hf]
    rfl
  · rw [hs.diagnostics, hids, DeclTable.diagnostic?_congr decls_table_interrupted,
      DeclTable.diagnostics_interrupted]
    rfl

end Module

/-- Two functions are written and one is not, and the program tells so by its status. -/
theorem Job.generate_completed_interrupted :
    let env := Environment.holding "module.json" Module.interrupted.text
    let job : Job := ⟨"module.json", some "module.wat", some .listing⟩
    let o := { CommandLine.Options.empty with output? := job.output?, format? := job.format? }
    (∃ r bytes, (job.generate env .standard).Completed Module.interrupted .skip .listing r ⟨2, 1⟩
      bytes) ∧ (Program.run env o job.input).status ≠ 0 := by
  intro env job o
  have hs : env.readText job.input = .ok Module.interrupted.text :=
    Environment.readText_holding _ _
  have hread : job.readModule env = .ok Module.interrupted := by
    rw [Job.readModule_eq hs, Module.ofText_text_interrupted]
    rfl
  obtain ⟨r, hr, hf, hd⟩ := Module.run_skip_table_interrupted
  obtain ⟨s₀, _, h₀⟩ := @Job.generate_of_run env job .standard _ _ hread rfl hr
  have hb : ∀ v, (job.generate env .standard).result ≠ .error (.broken v) := by
    rw [h₀.result]
    nofun
  obtain ⟨-, hm, hx⟩ := Job.generate_completed hs rfl hb
  obtain ⟨r', s, bytes, h⟩ := (hm _ Module.ofText_text_interrupted).2 nofun
  obtain ⟨rfl, -⟩ := Prod.ext_iff.mp (h.run.symm.trans hr)
  obtain rfl : s = ⟨2, 1⟩ :=
    calc s = ⟨s.generated, s.failed⟩ := rfl
      _ = ⟨2, 1⟩ := by rw [h.generated, h.failed, hf, hd]
  refine ⟨⟨_, bytes, h⟩, ?_⟩
  rw [Ne, (hx o .standard rfl rfl rfl).status, h.result]
  rintro ⟨s, he, hz⟩
  cases he
  cases hz

end WasmLowering
