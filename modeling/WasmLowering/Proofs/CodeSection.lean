import WasmLowering.Proofs.Isolation
import WasmLowering.Proofs.Linking

/-!
# Splitting a code section

The size in front of a body is that of the linked body. A reader who knows how many function indices
are still missing in each body finds the bodies of a section one after the other, and once the bodies
are linked their sizes alone suffice.
-/

namespace WasmLowering

/-! ## Cutting bodies off -/

namespace CodeSection

/-- The body in front and what follows it. The size in its first bytes counts `missing` function
indices that the body does not hold. -/
def cut (missing : Nat) (bs : List UInt8) : Option (List UInt8 × List UInt8) :=
  let size := Leb.value (bs.take paddedWidth)
  let length := paddedWidth + size - missing * paddedWidth
  if missing * paddedWidth ≤ size ∧ length ≤ bs.length then some (bs.take length, bs.drop length)
  else none

/-- One body for each number of missing indices, and what stands behind the last one. -/
def split : (missing : List Nat) → List UInt8 → Option (List (List UInt8) × List UInt8)
  | [], bs => some ([], bs)
  | n :: ns, bs => do
    let (body, bs) ← cut n bs
    let (bodies, bs) ← split ns bs
    return (body :: bodies, bs)

theorem length_lt_of_cut {missing : Nat} {bs body rest : List UInt8}
    (h : cut missing bs = some (body, rest)) : rest.length < bs.length := by
  unfold cut at h
  dsimp only at h
  split at h
  · next hl =>
    cases h
    simp only [List.length_drop, paddedWidth] at hl ⊢
    omega
  · cases h

/-- The bodies of a section without missing indices. -/
def splitLinked (bs : List UInt8) : Option (List (List UInt8)) :=
  if bs = [] then some []
  else match _h : cut 0 bs with
    | none => none
    | some (body, rest) => (splitLinked rest).map (body :: ·)
termination_by bs.length
decreasing_by exact length_lt_of_cut _h

/-- The size in front of the body is right once the missing indices are there. -/
structure Sized (missing : Nat) (body : List UInt8) : Prop where
  prefixed : paddedWidth ≤ body.length
  size : body.length + missing * paddedWidth = paddedWidth + Leb.value (body.take paddedWidth)

theorem cut_append {missing : Nat} {body : List UInt8} (h : Sized missing body)
    (rest : List UInt8) : cut missing (body ++ rest) = some (body, rest) := by
  have hsize := h.size
  have hprefix := h.prefixed
  have hlength : paddedWidth + Leb.value (body.take paddedWidth) - missing * paddedWidth
      = body.length := by omega
  unfold cut
  simp only [List.take_append_of_le_length hprefix, hlength]
  rw [if_pos ⟨by omega, by simp⟩, List.take_left, List.drop_left]

theorem split_flatMap {fs : List FunctionCode} (h : ∀ fc ∈ fs, Sized fc.relocs.length fc.body)
    (rest : List UInt8) :
    split (fs.map fun fc => fc.relocs.length) (fs.flatMap FunctionCode.body ++ rest)
      = some (fs.map FunctionCode.body, rest) := by
  induction fs with
  | nil => rfl
  | cons fc fs ih =>
      have hfc := cut_append (h fc (List.mem_cons_self ..)) (fs.flatMap FunctionCode.body ++ rest)
      have hfs := ih fun fc hm => h fc (List.mem_cons_of_mem _ hm)
      simp only [List.map_cons, List.flatMap_cons, List.append_assoc, split, hfc, hfs,
        Option.bind_eq_bind, Option.bind_some, Option.pure_def]

theorem splitLinked_append {body : List UInt8} (h : Sized 0 body) (rest : List UInt8) :
    splitLinked (body ++ rest) = (splitLinked rest).map (body :: ·) := by
  have hne : body ++ rest ≠ [] := by
    have := h.prefixed
    exact List.append_ne_nil_of_left_ne_nil (List.ne_nil_of_length_pos (by
      simp only [paddedWidth] at this; omega)) _
  rw [splitLinked, if_neg hne]
  split
  · next hc => rw [cut_append h] at hc; cases hc
  · next hc => rw [cut_append h] at hc; cases hc; rfl

theorem splitLinked_flatten {bodies : List (List UInt8)} (h : ∀ body ∈ bodies, Sized 0 body) :
    splitLinked bodies.flatten = some bodies := by
  induction bodies with
  | nil => rw [List.flatten_nil, splitLinked, if_pos rfl]
  | cons body bodies ih =>
      rw [List.flatten_cons, splitLinked_append (h body (List.mem_cons_self ..)),
        ih fun body hm => h body (List.mem_cons_of_mem _ hm), Option.map_some]

end CodeSection

/-! ## Sizes of generated bodies -/

namespace Generates

variable {id : DeclId} {d : Decl} {s : Signature} {b : Body} {slots : Slots} {fc : FunctionCode}

theorem value_size (h : Generates id d s b slots fc) (rest : List UInt8) :
    Leb.value ((Leb.padded paddedWidth (b.linkedSize slots) ++ rest).take paddedWidth)
      = b.linkedSize slots := by
  have hs := h.size
  rw [List.take_left' (Leb.length_padded ..)]
  apply Leb.value_padded
  simp only [UInt32.size] at hs
  simp only [paddedWidth]
  omega

theorem sized (h : Generates id d s b slots fc) :
    CodeSection.Sized fc.relocs.length fc.body := by
  rw [h.code]
  constructor
  case prefixed => simp
  case size =>
    simp only
    rw [List.append_assoc, h.value_size]
    simp [Body.linkedSize]
    omega

theorem sized_link (h : Generates id d s b slots fc) (idx : DeclId → UInt32) :
    CodeSection.Sized 0 (fc.link idx) := by
  rw [h.link idx]
  constructor
  case prefixed => simp
  case size =>
    rw [List.append_assoc, h.value_size]
    simp only [List.length_append, Leb.length_padded,
      Op.length_paddedBytes_link slots.blockStart h.emitted]
    simp [Body.linkedSize, Body.blockBytes, Body.blockRelocs]
    omega

end Generates

/-! ## Sections of a run -/

/-- The bodies one after the other, with the function indices in place. -/
def ModuleCode.linkedSection (m : ModuleCode) (idx : DeclId → UInt32) : List UInt8 :=
  m.functions.flatMap fun fc => fc.link idx

theorem DeclTable.generates_of_run {t : DeclTable} {policy : Policy} {r : Run}
    (h : t.run policy = (r, .ok ())) {fc : FunctionCode} (hm : fc ∈ r.code.functions) :
    ∃ d s b slots, Generates fc.decl d s b slots fc := by
  obtain ⟨-, hp⟩ := (sorted_of_run h).1.mem_functions.mp hm
  obtain ⟨d, -, -, hg, -⟩ := published?_eq_some_iff.mp hp
  exact ⟨d, generateFunction_eq_ok_iff.mp hg⟩

/-- The sizes in a code section lead from body to body and to its end, less the bytes of the indices
that are missing. In the linked section they do so alone. -/
theorem split_codeSection {t : DeclTable} {policy : Policy} {r : Run}
    (h : t.run policy = (r, .ok ())) :
    CodeSection.split (r.code.functions.map fun fc => fc.relocs.length) r.code.codeSection
        = some (r.code.functions.map FunctionCode.body, []) ∧
      ∀ idx : DeclId → UInt32, CodeSection.splitLinked (r.code.linkedSection idx)
        = some (r.code.functions.map fun fc => fc.link idx) := by
  have hsized : ∀ fc ∈ r.code.functions, CodeSection.Sized fc.relocs.length fc.body ∧
      ∀ idx, CodeSection.Sized 0 (fc.link idx) := by
    intro fc hm
    obtain ⟨d, s, b, slots, hg⟩ := DeclTable.generates_of_run h hm
    exact ⟨hg.sized, hg.sized_link⟩
  constructor
  · have hs := CodeSection.split_flatMap (fun fc hm => (hsized fc hm).1) []
    rwa [List.append_nil] at hs
  · intro idx
    unfold ModuleCode.linkedSection
    rw [List.flatMap_def]
    apply CodeSection.splitLinked_flatten
    intro body hbody
    obtain ⟨fc, hm, rfl⟩ := List.mem_map.mp hbody
    exact (hsized fc hm).2 idx

theorem split_codeSection_interrupted :
    ∃ r, DeclTable.interrupted.run .skip = (r, .ok ()) ∧
      r.code.functions.map FunctionCode.decl = [⟨0⟩, ⟨3⟩] ∧
      CodeSection.split [1, 1] r.code.codeSection
        = some (r.code.functions.map FunctionCode.body, []) ∧
      CodeSection.splitLinked (r.code.linkedSection fun d => d.index + 300)
        = some (r.code.functions.map fun fc => fc.link fun d => d.index + 300) := by
  obtain ⟨r, hr, hs⟩ := DeclTable.exists_run_skip DeclTable.neverBroken_interrupted
  obtain ⟨fc₀, fc₃, hf, hd₀, hd₃, hr₀, hr₃⟩ := DeclTable.functions_interrupted
  have hfunctions : r.code.functions = [fc₀, fc₃] := hs.functions.trans hf
  obtain ⟨hsplit, hlinked⟩ := split_codeSection hr
  have hmissing : (r.code.functions.map fun fc => fc.relocs.length) = [1, 1] := by
    simp [hfunctions, hr₀, hr₃]
  rw [hmissing] at hsplit
  exact ⟨r, hr, by simp [hfunctions, hd₀, hd₃], hsplit, hlinked _⟩

end WasmLowering
