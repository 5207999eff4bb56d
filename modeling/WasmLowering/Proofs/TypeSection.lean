import WasmLowering.Codegen.Context
import WasmLowering.Proofs.TypeEntry

/-!
# Type sections

The entries of function types can stand one behind the other without a separator. No entry goes on
where another one ends, so what they say can be told from all their bytes together. Where a type has
no value type, an entry ends early, and a sink keeps what was written to it before.
-/

namespace WasmLowering

theorem Ty.valType?_of_isVoid {t : Ty} (h : t.isVoid = true) : t.valType? = none := by
  cases t with
  | void => rfl
  | noReturn => rfl
  | _ => cases h

namespace Signature

/-- What an entry says: the value types of the parameters, and that of the result if there is one. -/
def valTypes (s : Signature) : List (Option ValType) × Option ValType :=
  (s.params.map Ty.valType?, s.ret.valType?)

/-- The entry is written to its end, and the number of parameters in it has 32 bits. -/
structure HasEntry (s : Signature) : Prop where
  written : s.entry.2 = none
  count : s.params.length < UInt32.size

/-- What a sink holds when the entry has been written to it, and how the writing ended. -/
def into (s : Signature) (sink : List UInt8) (span : Span) : List UInt8 × Except Failure Unit :=
  (sink ++ s.entry.1, match s.entry.2 with
    | none => .ok ()
    | some cause => .error ⟨span, cause⟩)

/-- The bytes of an entry up to the parameter that stands behind those of `before`. -/
def bytesBefore (s : Signature) (before : List Ty) : List UInt8 :=
  0x60 :: (Leb.unsigned s.paramCount ++ (before.filterMap Ty.valType?).map ValType.byte)

/-- How the writing of an entry fails, and what it leaves in the sink then. -/
structure Appends (s : Signature) (sink : List UInt8) (span : Span) : Prop where
  fails : (s.into sink span).2 ≠ .ok () ↔
    (∃ p ∈ s.params, p.valType? = none) ∨ (s.ret.isVoid = false ∧ s.ret.valType? = none)
  /-- The first parameter without a value type is named. -/
  parameter : ∀ before p after, s.params = before ++ p :: after →
    (∀ q ∈ before, q.valType?.isSome) → p.valType? = none →
      s.into sink span = (sink ++ s.bytesBefore before, .error ⟨span, .argumentType p⟩)
  result : (∀ q ∈ s.params, q.valType?.isSome) → s.ret.isVoid = false → s.ret.valType? = none →
    s.into sink span = (sink ++ s.bytesBefore s.params, .error ⟨span, .returnType s.ret⟩)
  kept : sink <+: (s.into sink span).1

variable {s t : Signature} {ss ts : List Signature}

/-! ## Entries that are complete -/

theorem HasEntry.mapped (h : s.HasEntry) : s.Mapped := entry_snd_eq_none_iff.mp h.written

theorem resultTypes_eq (s : Signature) : s.resultTypes = s.ret.valType?.toList := by
  unfold resultTypes
  split
  · next hv => rw [Ty.valType?_of_isVoid hv]; rfl
  · rfl

theorem map_valType?_of_isSome {ps : List Ty} (h : ∀ p ∈ ps, p.valType?.isSome) :
    ps.map Ty.valType? = (ps.filterMap Ty.valType?).map some := by
  induction ps with
  | nil => rfl
  | cons p ps ih =>
      obtain ⟨t, ht⟩ := Option.isSome_iff_exists.mp (h p (List.mem_cons_self ..))
      simp [ht, ih fun q hq => h q (List.mem_cons_of_mem _ hq)]

/-- The value types of a signature are those that a reader finds in its entry. -/
theorem valTypes_eq_iff (hs : s.Mapped) (ht : t.Mapped) :
    s.valTypes = t.valTypes ↔ s.paramTypes = t.paramTypes ∧ s.resultTypes = t.resultTypes := by
  unfold valTypes
  rw [Prod.mk.injEq, map_valType?_of_isSome hs.params, map_valType?_of_isSome ht.params,
    List.map_inj_right fun _ _ => Option.some.inj, resultTypes_eq, resultTypes_eq]
  refine and_congr_right fun _ => ?_
  cases s.ret.valType? <;> cases t.ret.valType? <;> simp

theorem HasEntry.entry_eq (hs : s.HasEntry) (ht : t.HasEntry) (h : s.valTypes = t.valTypes) :
    s.entry.1 = t.entry.1 := by
  obtain ⟨hp, hr⟩ := (valTypes_eq_iff hs.mapped ht.mapped).mp h
  rw [entry_fst hs.mapped, entry_fst ht.mapped, paramCount_of_lt hs.count,
    paramCount_of_lt ht.count, ← hs.mapped.length_paramTypes, ← ht.mapped.length_paramTypes, hp, hr]

/-- An entry is read to its end whatever stands behind it, so it ends nowhere else. -/
theorem HasEntry.append_inj (hs : s.HasEntry) (ht : t.HasEntry) {r r' : List UInt8}
    (h : s.entry.1 ++ r = t.entry.1 ++ r') : s.valTypes = t.valTypes ∧ r = r' := by
  have hread := Cursor.functionType_entry 0 r hs.mapped hs.count
  rw [h, Cursor.functionType_entry 0 r' ht.mapped ht.count] at hread
  simp only [Except.ok.injEq, Prod.mk.injEq, FunctionType.mk.injEq, Cursor.mk.injEq] at hread
  obtain ⟨⟨hp, hr⟩, -, hrest⟩ := hread
  exact ⟨(valTypes_eq_iff hs.mapped ht.mapped).mpr ⟨hp.symm, hr.symm⟩, hrest.symm⟩

theorem HasEntry.entry_eq_iff (hs : s.HasEntry) (ht : t.HasEntry) :
    s.entry.1 = t.entry.1 ↔ s.valTypes = t.valTypes :=
  ⟨fun h => (hs.append_inj ht (congrArg (· ++ []) h)).1, hs.entry_eq ht⟩

theorem HasEntry.prefixFree (hs : s.HasEntry) (ht : t.HasEntry) (h : s.entry.1 <+: t.entry.1) :
    s.entry.1 = t.entry.1 := by
  obtain ⟨r, hr⟩ := h
  rw [← List.append_nil t.entry.1] at hr
  exact hs.entry_eq ht (hs.append_inj ht hr).1

theorem HasEntry.entry_ne_nil (h : s.HasEntry) : s.entry.1 ≠ [] := by
  rw [entry_fst h.mapped]
  exact List.cons_ne_nil _ _

/-- The bytes of all entries together say what each of them says. -/
theorem flatMap_entry_eq_iff (hs : ∀ s ∈ ss, s.HasEntry) (ht : ∀ t ∈ ts, t.HasEntry) :
    (ss.flatMap fun s => s.entry.1) = (ts.flatMap fun t => t.entry.1) ↔
      ss.map valTypes = ts.map valTypes := by
  induction ss generalizing ts with
  | nil =>
      cases ts with
      | nil => simp
      | cons t ts => simp [(ht t (List.mem_cons_self ..)).entry_ne_nil]
  | cons s ss ih =>
      have hs' := hs s (List.mem_cons_self ..)
      cases ts with
      | nil => simp [hs'.entry_ne_nil]
      | cons t ts =>
          have ht' := ht t (List.mem_cons_self ..)
          have ih := @ih ts (fun s h => hs s (List.mem_cons_of_mem _ h))
            fun t h => ht t (List.mem_cons_of_mem _ h)
          simp only [List.flatMap_cons, List.map_cons, List.cons.injEq, ← ih]
          constructor
          · exact hs'.append_inj ht'
          · rintro ⟨h, htail⟩
            rw [hs'.entry_eq ht' h, htail]

/-! ## Entries that end early -/

theorem paramBytes_append {before : List Ty} (h : ∀ q ∈ before, q.valType?.isSome)
    (ps : List Ty) : paramBytes (before ++ ps)
      = ((before.filterMap Ty.valType?).map ValType.byte ++ (paramBytes ps).1,
        (paramBytes ps).2) := by
  induction before with
  | nil => rfl
  | cons q before ih =>
      obtain ⟨t, ht⟩ := Option.isSome_iff_exists.mp (h q (List.mem_cons_self ..))
      simp [paramBytes, ht, ih fun q hq => h q (List.mem_cons_of_mem _ hq)]

theorem entry_of_parameter {before after : List Ty} {p : Ty} (hs : s.params = before ++ p :: after)
    (hb : ∀ q ∈ before, q.valType?.isSome) (hp : p.valType? = none) :
    s.entry = (s.bytesBefore before, some (.argumentType p)) := by
  have hbytes := paramBytes_append hb (p :: after)
  rw [← hs] at hbytes
  simp [entry, bytesBefore, hbytes, paramBytes, hp]

theorem entry_of_result (hs : ∀ q ∈ s.params, q.valType?.isSome) (hv : s.ret.isVoid = false)
    (hr : s.ret.valType? = none) : s.entry = (s.bytesBefore s.params, some (.returnType s.ret)) := by
  have hbytes := paramBytes_append hs []
  rw [List.append_nil] at hbytes
  simp [entry, bytesBefore, hbytes, paramBytes, resultBytes, hv, hr]

theorem into_snd_eq_ok_iff {sink : List UInt8} {span : Span} :
    (s.into sink span).2 = .ok () ↔ s.Mapped := by
  rw [← entry_snd_eq_none_iff]
  unfold into
  cases s.entry.2 <;> simp

theorem not_mapped_iff : ¬s.Mapped ↔
    (∃ p ∈ s.params, p.valType? = none) ∨ (s.ret.isVoid = false ∧ s.ret.valType? = none) := by
  constructor
  · intro h
    by_contra hn
    rw [not_or, not_and, not_exists] at hn
    refine h ⟨fun p hp => Option.isSome_iff_ne_none.mpr fun hnone => hn.1 p ⟨hp, hnone⟩, ?_⟩
    cases hv : s.ret.isVoid with
    | true => exact .inl rfl
    | false => exact .inr (Option.isSome_iff_ne_none.mpr (hn.2 hv))
  · rintro (⟨p, hp, hnone⟩ | ⟨hv, hnone⟩) h
    · exact Option.isSome_iff_ne_none.mp (h.params p hp) hnone
    · exact Option.isSome_iff_ne_none.mp (h.ret.resolve_left (by simp [hv])) hnone

theorem appends (s : Signature) (sink : List UInt8) (span : Span) : s.Appends sink span where
  fails := (not_congr into_snd_eq_ok_iff).trans not_mapped_iff
  parameter before p after hs hb hp := by rw [into, entry_of_parameter hs hb hp]
  result hs hv hr := by rw [into, entry_of_result hs hv hr]
  kept := List.prefix_append ..

end Signature

/-- The type step of a context writes the entry behind what its buffer holds. -/
theorem Context.generateType_into {c : Context} {s : Signature} (h : c.decl.signature? = some s) :
    (c.generateType.1.typeEntry, c.generateType.2)
      = ((s.into c.typeEntry c.decl.span).1,
        (s.into c.typeEntry c.decl.span).2.mapError .failed) := by
  unfold generateType Signature.into
  rw [h]
  cases he : s.entry.2 <;> simp [he, fail, stop, Except.mapError]

/-- Complete entries tell which value types their signatures have, alone and one behind the other:
none of them is the front of another one. An entry fails at the first parameter without a value
type, or else at such a result, behind what was written before. -/
theorem entries_decodable {ss ts : List Signature} (hs : ∀ s ∈ ss, s.HasEntry)
    (ht : ∀ t ∈ ts, t.HasEntry) :
    ((ss.flatMap fun s => s.entry.1) = (ts.flatMap fun t => t.entry.1) ↔
      ss.map Signature.valTypes = ts.map Signature.valTypes) ∧
    (∀ s ∈ ss, ∀ t ∈ ts, (s.entry.1 = t.entry.1 ↔ s.valTypes = t.valTypes) ∧
      (s.entry.1 <+: t.entry.1 → s.entry.1 = t.entry.1)) ∧
    (∀ (s : Signature) sink span, s.Appends sink span) ∧
    ∀ (c : Context) s, c.decl.signature? = some s →
      (c.generateType.1.typeEntry, c.generateType.2)
        = ((s.into c.typeEntry c.decl.span).1,
          (s.into c.typeEntry c.decl.span).2.mapError .failed) :=
  ⟨Signature.flatMap_entry_eq_iff hs ht,
    fun s hm t hn => ⟨(hs s hm).entry_eq_iff (ht t hn), (hs s hm).prefixFree (ht t hn)⟩,
    Signature.appends, fun _ _ => Context.generateType_into⟩

/-! ## Signatures that share their entries -/

/-- Takes an integer and a float. -/
def Signature.mixed (signed : Bool) (ret : Ty) : Signature := ⟨[.int signed 32, .float 64], ret⟩

theorem Signature.hasEntry_mixed (signed : Bool) {ret : Ty}
    (h : ret.isVoid = true ∨ ret.valType?.isSome) : (mixed signed ret).HasEntry where
  written := entry_snd_eq_none_iff.mpr ⟨by simp [mixed, Ty.valType?], h⟩
  count := (by decide : 2 < UInt32.size)

/-- Without a value type behind two types that have one. -/
def Signature.unsupported : Signature := ⟨[.int true 32, .ptr (.int true 32), .bool], .void⟩

/-- The sign of an integer has no part in an entry, nor has the way in which nothing is returned. -/
theorem entries_decodable_mixed :
    (Signature.mixed true .void).entry.1 ++ (Signature.mixed false (.int true 64)).entry.1
      = (Signature.mixed false .noReturn).entry.1 ++ (Signature.mixed true (.int false 64)).entry.1 ∧
    Signature.unsupported.into [0x0B] ⟨0, 3, 7⟩
      = ([0x0B, 0x60, 0x03, 0x7F], .error ⟨⟨0, 3, 7⟩, .argumentType (.ptr (.int true 32))⟩) ∧
    (Cause.argumentType (.ptr (.int true 32))).message
      = "unsupported type '*i32' for wasm argument" := by
  have hs : ∀ s ∈ [Signature.mixed true .void, .mixed false (.int true 64)], s.HasEntry :=
    List.forall_mem_cons.mpr ⟨Signature.hasEntry_mixed _ (.inl rfl),
      List.forall_mem_singleton.mpr (Signature.hasEntry_mixed _ (.inr rfl))⟩
  have ht : ∀ t ∈ [Signature.mixed false .noReturn, .mixed true (.int false 64)], t.HasEntry :=
    List.forall_mem_cons.mpr ⟨Signature.hasEntry_mixed _ (.inl rfl),
      List.forall_mem_singleton.mpr (Signature.hasEntry_mixed _ (.inr rfl))⟩
  obtain ⟨hall, -, happ, -⟩ := entries_decodable hs ht
  have hbytes : Signature.unsupported.bytesBefore [.int true 32] = [0x60, 0x03, 0x7F] := by
    decide +kernel
  have hinto := (happ .unsupported [0x0B] ⟨0, 3, 7⟩).parameter [.int true 32] _ _ rfl
    (by simp [Ty.valType?]) rfl
  rw [hbytes] at hinto
  exact ⟨by simpa using hall.mpr rfl, hinto, by decide +kernel⟩

end WasmLowering
