import WasmLowering.Json.Module
import WasmLowering.Proofs.Isolation
import WasmLowering.Proofs.JsonShape

/-!
# A written module is read back

One lemma for each type of the representation: the reader is given room for what was written, and
finds it. The room is counted down level by level, so types are read by induction on it.
-/
namespace WasmLowering

open Json (Value Mismatch Member ok_bind)
open Json.Value (depth_object_le depth_array_le depth_tagged_le depth_tagged_object_le
  readRecord_object readList_map readVariant_string readVariant_tagged)

/-! ## Spans and ids -/

namespace Span

@[simp] theorem plain_toJson (s : Span) : s.toJson.Plain := by simp [toJson]

theorem ofJson_toJson {s : Span} {room : Nat} (h : s.toJson.depth ≤ room) :
    ofJson room s.toJson = .ok s := by
  obtain ⟨hr, -⟩ := depth_object_le.1 h
  rw [ofJson, toJson, readRecord_object hr (by simp [fields]) rfl]
  simp [fields]

end Span

namespace DeclId

@[simp] theorem ofJson_toJson (d : DeclId) : ofJson d.toJson = .ok d := by
  simp [ofJson, toJson]

@[simp] theorem plain_toJson (d : DeclId) : d.toJson.Plain := by simp [toJson]

end DeclId

namespace InstId

@[simp] theorem ofJson_toJson (i : InstId) : ofJson i.toJson = .ok i := by
  simp [ofJson, toJson]

@[simp] theorem plain_toJson (i : InstId) : i.toJson.Plain := by simp [toJson]

@[simp] theorem plain_listToJson (is : List InstId) : (listToJson is).Plain := by
  simp [listToJson]

theorem listOfJson_listToJson {is : List InstId} {room : Nat} (h : (listToJson is).depth ≤ room) :
    listOfJson room (listToJson is) = .ok is :=
  readList_map (depth_array_le.1 h).1 fun i _ => i.ofJson_toJson

end InstId

/-! ## Types -/

namespace Ty

theorem listToJson_eq (ts : List Ty) : listToJson ts = ts.map toJson := by
  induction ts with
  | nil => rfl
  | cons t ts ih => rw [listToJson, ih, List.map_cons]

mutual
theorem plain_toJson : (t : Ty) → t.toJson.Plain
  | void => .string _
  | noReturn => .string _
  | bool => .string _
  | int _ _ => by simp [toJson]
  | float _ => by simp [toJson]
  | ptr t => by simp [toJson, plain_toJson t]
  | array t _ => by simp [toJson, plain_toJson t]
  | struct _ fs => by simpa [toJson] using plain_listToJson fs
  | fn ps r => by simpa [toJson, plain_toJson r] using plain_listToJson ps

theorem plain_listToJson : (ts : List Ty) → ∀ v ∈ listToJson ts, v.Plain
  | [] => by simp [listToJson]
  | t :: ts => by
    rw [listToJson, List.forall_mem_cons]
    exact ⟨plain_toJson t, plain_listToJson ts⟩
end

/-- What `k` levels leave of `room` is enough for `inner k` to read a type. -/
def ReadsWithin (room : Nat) (inner : Nat → Value → Except Mismatch Ty) : Prop :=
  ∀ k (t : Ty), 0 < k → k ≤ room → t.toJson.depth ≤ room - k → inner k t.toJson = .ok t

section

variable {room : Nat} {inner : Nat → Value → Except Mismatch Ty}

theorem readSignature_toJson {s : Signature} (h : s.toJson.depth ≤ room)
    (read : ReadsWithin room inner) : readSignature room inner s.toJson = .ok s := by
  obtain ⟨hr, hf⟩ := depth_object_le.1 h
  simp only [List.forall_mem_cons, depth_array_le, listToJson_eq, List.forall_mem_map] at hf
  obtain ⟨⟨hr', hps⟩, hret, -⟩ := hf
  have params := readList_map hr' fun t ht => read 2 t (by decide) (by omega) (hps t ht)
  have ret := read 1 s.ret (by decide) (by omega) hret
  rw [readSignature, Signature.toJson, readRecord_object hr (by simp [signatureFields]) rfl]
  simp [signatureFields, listToJson_eq, params, ret]

theorem ofVariant_toJson {t : Ty} (h : t.toJson.depth ≤ room) (read : ReadsWithin room inner) :
    Value.readVariant room variants (ofVariant room inner) t.toJson = .ok t := by
  cases t with
  | void => exact readVariant_string (by simp [variants]) room
  | noReturn => exact readVariant_string (by simp [variants]) room
  | bool => exact readVariant_string (by simp [variants]) room
  | int signed bits =>
      obtain ⟨hr, hr', -⟩ := depth_tagged_object_le.1 h
      rw [toJson, readVariant_tagged (by simp [variants]) hr, ofVariant, Json.contentOf, ok_bind,
        readRecord_object hr' (by simp [intFields]) rfl]
      simp [intFields]
  | float bits =>
      obtain ⟨hr, hr', -⟩ := depth_tagged_object_le.1 h
      rw [toJson, readVariant_tagged (by simp [variants]) hr, ofVariant, Json.contentOf, ok_bind,
        readRecord_object hr' (by simp [floatFields]) rfl]
      simp [floatFields]
  | ptr t =>
      obtain ⟨hr, ht⟩ := depth_tagged_le.1 h
      rw [toJson, readVariant_tagged (by simp [variants]) hr, ofVariant, Json.contentOf, ok_bind,
        read 1 t (by decide) hr ht]
      rfl
  | array t n =>
      obtain ⟨hr, hv⟩ := depth_tagged_le.1 h
      obtain ⟨hr', hf⟩ := depth_array_le.1 hv
      have elem := read 2 t (by decide) (by omega) (hf _ List.mem_cons_self)
      rw [toJson, readVariant_tagged (by simp [variants]) hr, ofVariant, Json.contentOf, ok_bind,
        Value.readItems, if_neg (by omega)]
      simp [arrayFields, elem]
  | struct name fs =>
      obtain ⟨hr, hr', hf⟩ := depth_tagged_object_le.1 h
      simp only [List.forall_mem_cons, depth_array_le, listToJson_eq, List.forall_mem_map] at hf
      obtain ⟨-, ⟨hl, hts⟩, -⟩ := hf
      have types : Value.readList (room - 2) (inner 3) (.array (fs.map toJson)) = .ok fs :=
        readList_map hl fun t ht => read 3 t (by decide) (by omega) (hts t ht)
      rw [toJson, readVariant_tagged (by simp [variants]) hr, ofVariant, Json.contentOf, ok_bind,
        readRecord_object hr' (by simp [structFields]) rfl]
      simp [structFields, listToJson_eq, types]
  | fn ps r =>
      obtain ⟨hr, hs⟩ := depth_tagged_le.1 h
      have signature := readSignature_toJson (s := ⟨ps, r⟩) hs fun k t hk hk' ht =>
        read (k + 1) t (by omega) (by omega) (by omega)
      rw [Signature.toJson] at signature
      rw [toJson, readVariant_tagged (by simp [variants]) hr, ofVariant, Json.contentOf, ok_bind,
        signature]
      rfl

end

theorem ofJson_toJson {t : Ty} {room : Nat} (h : t.toJson.depth ≤ room) :
    ofJson room t.toJson = .ok t := by
  induction room using Nat.strongRecOn generalizing t with
  | ind room ih =>
      rw [ofJson]
      refine ofVariant_toJson h fun k t hk hk' ht => ?_
      rw [dif_neg (by omega)]
      exact ih (room - k) (by omega) ht

end Ty

/-! ## Literals -/

namespace Literal

/-- Every literal but a float is written as a plain value. -/
theorem plain_toJson {l : Literal} (h : l.float? = none) : l.toJson.Plain := by
  cases l with
  | float v => cases h
  | _ => simp [toJson]

theorem ofJson_toJson {l : Literal} {room : Nat} (h : l.toJson.depth ≤ room) :
    ofJson room l.toJson = .ok l := by
  cases l
  case void => exact readVariant_string (by simp [variants]) room
  case int v | uInt v | float v | bool v | function v =>
      rw [ofJson, toJson, readVariant_tagged (by simp [variants]) (depth_tagged_le.1 h).1, ofVariant,
        Json.contentOf, ok_bind]
      simp

end Literal

/-! ## Instructions -/

@[simp] theorem Comparison.ofJson_toJson (c : Comparison) (room : Nat) :
    ofJson room c.toJson = .ok c := by
  cases c <;> exact readVariant_string (by simp [all, name]) room

namespace InstKind

theorem plain_toJson {k : InstKind} (h : ∀ l ∈ k.literal?, l.float? = none) : k.toJson.Plain := by
  cases k with
  | constant l => simpa [toJson] using l.plain_toJson (h l rfl)
  | cmp op lhs rhs => simp [toJson, Comparison.toJson]
  | _ => simp [toJson]

section

variable {room : Nat} {α β γ : Type} {readA : Value → Except Mismatch α}
  {readB : Value → Except Mismatch β} {readC : Value → Except Mismatch γ} {u v w : Value}
  {x : α} {y : β} {z : γ}

theorem readContent_object {σ : Type} {fields : List (Member σ)} {given : List (String × Value)}
    (hr : 0 < room) (hk : (fields.map Member.name).Nodup)
    (names : given.map Prod.fst = fields.map Member.name) (variant : String) (start : σ) :
    readContent room variant fields start (some (.object given))
      = Member.putItems ("struct variant InstKind::" ++ variant) 0 fields (given.map Prod.snd)
          start := by
  rw [readContent, Json.contentOf, ok_bind, readRecord_object hr hk names]

theorem readContent_one (hr : 0 < room) (hx : readA u = .ok x) (variant a : String) (start : α) :
    readContent room variant (one a readA) start (some (.object [(a, u)])) = .ok x := by
  rw [readContent_object hr (by simp [one]) rfl]
  simp [one, hx]

theorem readContent_two (hr : 0 < room) (hx : readA u = .ok x) (hy : readB v = .ok y)
    {a b : String} (hab : a ≠ b) (variant : String) (start : α × β) :
    readContent room variant (two a readA b readB) start (some (.object [(a, u), (b, v)]))
      = .ok (x, y) := by
  rw [readContent_object hr (by simp [two, hab]) rfl]
  simp [two, hx, hy]

theorem readContent_three (hr : 0 < room) (hx : readA u = .ok x) (hy : readB v = .ok y)
    (hz : readC w = .ok z) {a b c : String} (hn : [a, b, c].Nodup) (variant : String)
    (start : α × β × γ) :
    readContent room variant (three a readA b readB c readC) start
      (some (.object [(a, u), (b, v), (c, w)])) = .ok (x, y, z) := by
  rw [readContent_object hr (by simpa [three] using hn) rfl]
  simp [three, hx, hy, hz]

theorem operand_object (hr : 0 < room) (variant name : String) (i : InstId) :
    operand room variant name (some (.object [(name, i.toJson)])) = .ok i :=
  readContent_one hr i.ofJson_toJson variant name _

theorem operands_object (hr : 0 < room) (variant : String) {a b : String} (hab : a ≠ b)
    (i j : InstId) :
    operands room variant a b (some (.object [(a, i.toJson), (b, j.toJson)])) = .ok (i, j) :=
  readContent_two hr i.ofJson_toJson j.ofJson_toJson hab variant _

end

theorem ofJson_tagged {name : String} {v : Value} {room : Nat} (hn : name ∈ variants)
    (hr : 0 < room) : ofJson room (.tagged name v) = ofVariant (room - 1) name (some v) :=
  readVariant_tagged hn hr v

theorem ofJson_toJson {k : InstKind} {room : Nat} (h : k.toJson.depth ≤ room) :
    ofJson room k.toJson = .ok k := by
  cases k
  case constant l =>
      obtain ⟨hr, hl⟩ := depth_tagged_le.1 h
      rw [toJson, ofJson_tagged (by simp [variants]) hr, ofVariant, Json.contentOf, ok_bind,
        Literal.ofJson_toJson hl]
      rfl
  case alloc | retVoid | unreach => exact readVariant_string (by simp [variants]) room
  case arg index =>
      obtain ⟨hr, hr', -⟩ := depth_tagged_object_le.1 h
      rw [toJson, ofJson_tagged (by simp [variants]) hr, ofVariant,
        readContent_one hr' (Value.readUInt32_nat index)]
      rfl
  case load i | ret i | bitCast i | intCast i =>
      obtain ⟨hr, hr', -⟩ := depth_tagged_object_le.1 h
      rw [toJson, ofJson_tagged (by simp [variants]) hr, ofVariant, operand_object hr']
      rfl
  case store i j | add i j | sub i j | mul i j | br i j =>
      obtain ⟨hr, hr', -⟩ := depth_tagged_object_le.1 h
      rw [toJson, ofJson_tagged (by simp [variants]) hr, ofVariant, operands_object hr' _ (by simp)]
      rfl
  case cmp op lhs rhs =>
      obtain ⟨hr, hr', -⟩ := depth_tagged_object_le.1 h
      rw [toJson, ofJson_tagged (by simp [variants]) hr, ofVariant,
        readContent_three hr' (op.ofJson_toJson _) lhs.ofJson_toJson rhs.ofJson_toJson (by simp)]
      rfl
  case call callee args =>
      obtain ⟨hr, hr', hf⟩ := depth_tagged_object_le.1 h
      have list := InstId.listOfJson_listToJson (hf ("args", InstId.listToJson args) (by simp))
      rw [toJson, ofJson_tagged (by simp [variants]) hr, ofVariant,
        readContent_two hr' callee.ofJson_toJson list (by simp)]
      rfl
  case dbgStmt line column =>
      obtain ⟨hr, hr', -⟩ := depth_tagged_object_le.1 h
      rw [toJson, ofJson_tagged (by simp [variants]) hr, ofVariant,
        readContent_two hr' (Value.readUInt32_nat line) (Value.readUInt32_nat column) (by simp)]
      rfl
  case block body =>
      obtain ⟨hr, hr', hf⟩ := depth_tagged_object_le.1 h
      have list := InstId.listOfJson_listToJson (hf ("body", InstId.listToJson body) (by simp))
      rw [toJson, ofJson_tagged (by simp [variants]) hr, ofVariant, readContent_one hr' list]
      rfl
  case condBr condition thenBody elseBody =>
      obtain ⟨hr, hr', hf⟩ := depth_tagged_object_le.1 h
      have thenList :=
        InstId.listOfJson_listToJson (hf ("then_body", InstId.listToJson thenBody) (by simp))
      have elseList :=
        InstId.listOfJson_listToJson (hf ("else_body", InstId.listToJson elseBody) (by simp))
      rw [toJson, ofJson_tagged (by simp [variants]) hr, ofVariant,
        readContent_three hr' condition.ofJson_toJson thenList elseList (by simp)]
      rfl

end InstKind

namespace Inst

theorem plain_toJson {i : Inst} (h : ∀ l ∈ i.kind.literal?, l.float? = none) :
    i.toJson.Plain := by
  simp [toJson, Ty.plain_toJson, InstKind.plain_toJson h]

theorem ofJson_toJson {i : Inst} {room : Nat} (h : i.toJson.depth ≤ room) :
    ofJson room i.toJson = .ok i := by
  obtain ⟨hr, hf⟩ := depth_object_le.1 h
  simp only [List.forall_mem_cons] at hf
  obtain ⟨ht, hk, hs, -⟩ := hf
  rw [ofJson, toJson, readRecord_object hr (by simp [fields]) rfl]
  simp [fields, Ty.ofJson_toJson ht, InstKind.ofJson_toJson hk, Span.ofJson_toJson hs]

end Inst

/-! ## Bodies and declarations -/

namespace Body

/-- No constant of the arena is a float. -/
def FloatFree (b : Body) : Prop := ∀ i ∈ b.insts, ∀ l ∈ i.kind.literal?, l.float? = none

instance (b : Body) : Decidable b.FloatFree :=
  inferInstanceAs (Decidable (∀ i ∈ b.insts, ∀ l ∈ i.kind.literal?, l.float? = none))

theorem plain_toJson {b : Body} (h : b.FloatFree) : b.toJson.Plain := by
  have insts : ∀ i ∈ b.insts, i.toJson.Plain := fun i hi => Inst.plain_toJson (h i hi)
  simpa [toJson] using insts

theorem ofJson_toJson {b : Body} {room : Nat} (h : b.toJson.depth ≤ room) :
    ofJson room b.toJson = .ok b := by
  obtain ⟨hr, hf⟩ := depth_object_le.1 h
  simp only [List.forall_mem_cons, depth_array_le, List.forall_mem_map] at hf
  obtain ⟨⟨hr', hi⟩, hc, -⟩ := hf
  have insts := readList_map hr' fun i hm => Inst.ofJson_toJson (hi i hm)
  rw [ofJson, toJson, readRecord_object hr (by simp [fields]) rfl]
  simp [fields, insts, InstId.listOfJson_listToJson hc]

theorem optionOfJson_toJson {b? : Option Body} {room : Nat}
    (h : ((b?.map toJson).getD .null).depth ≤ room) :
    optionOfJson room ((b?.map toJson).getD .null) = .ok b? := by
  cases b? with
  | none => rfl
  | some b => exact congrArg (Except.map some) (ofJson_toJson h)

end Body

namespace Decl

def FloatFree (d : Decl) : Prop := ∀ b ∈ d.body?, b.FloatFree

instance (d : Decl) : Decidable d.FloatFree :=
  inferInstanceAs (Decidable (∀ b ∈ d.body?, b.FloatFree))

theorem plain_toJson {d : Decl} (h : d.FloatFree) : d.toJson.Plain := by
  have body : ((d.body?.map Body.toJson).getD .null).Plain := by
    cases hb : d.body? with
    | none => exact .null
    | some b => exact Body.plain_toJson (h b hb)
  simp [toJson, Ty.plain_toJson, body]

theorem ofJson_toJson {d : Decl} {room : Nat} (h : d.toJson.depth ≤ room) :
    ofJson room d.toJson = .ok d := by
  obtain ⟨hr, hf⟩ := depth_object_le.1 h
  simp only [List.forall_mem_cons] at hf
  obtain ⟨-, ht, hs, hb, -⟩ := hf
  rw [ofJson, toJson, readRecord_object hr (by simp [fields]) rfl]
  simp [fields, Ty.ofJson_toJson ht, Span.ofJson_toJson hs, Body.optionOfJson_toJson hb]

end Decl

/-! ## Modules -/

namespace Module

def FloatFree (m : Module) : Prop := ∀ d ∈ m.decls, d.FloatFree

instance (m : Module) : Decidable m.FloatFree :=
  inferInstanceAs (Decidable (∀ d ∈ m.decls, d.FloatFree))

theorem plain_toJson {m : Module} (h : m.FloatFree) : m.toJson.Plain := by
  have decls : ∀ d ∈ m.decls, d.toJson.Plain := fun d hd => d.plain_toJson (h d hd)
  simpa [toJson] using decls

theorem ofJson_toJson {m : Module} {room : Nat} (h : m.toJson.depth ≤ room) :
    ofJson room m.toJson = .ok m := by
  obtain ⟨hr, hf⟩ := depth_object_le.1 h
  simp only [List.forall_mem_cons, depth_array_le, List.forall_mem_map] at hf
  obtain ⟨⟨hr', hd⟩, -⟩ := hf
  have decls := readList_map hr' fun d hm => Decl.ofJson_toJson (hd d hm)
  rw [ofJson, toJson, readRecord_object hr (by simp [fields]) rfl]
  simp [fields, decls]

theorem ofText_eq_ok {m : Module} (hf : m.FloatFree) (hd : m.toJson.depth ≤ maxDepth) :
    ofText m.text = .ok m := by
  rw [ofText, text, Json.parse_text (plain_toJson hf)]
  dsimp only
  rw [ofJson_toJson hd]

theorem entries_table (m : Module) :
    m.table.entries = (m.decls.map fun d => (⟨d, []⟩ : Entry)).toArray := by
  have pushed := DeclTable.entries_pushAll .empty m.decls
  rwa [DeclTable.empty, Array.empty_append] at pushed

/-- Floats apart, a module whose text does not nest too deep comes back from its text, and a
literal that names a function names the declaration at the same place. -/
theorem ofText_text {m : Module} (hf : m.FloatFree) (hd : m.toJson.depth ≤ maxDepth) :
    ofText m.text = .ok m ∧ m.table.size = m.decls.length ∧
      ∀ i, m.table.entry? i = m.decls[i.index.toNat]?.map (⟨·, []⟩) := by
  refine ⟨ofText_eq_ok hf hd, ?_, fun i => ?_⟩
  · rw [DeclTable.size, entries_table, List.size_toArray, List.length_map]
  · rw [DeclTable.entry?, entries_table, List.getElem?_toArray, List.getElem?_map]

/-- Names with quotes, a control character and letters of other scripts. -/
def quoted : Module where
  decls :=
    [.external "a \"quoted\"\\\n\x01\u03bb" ⟨[.ptr (.array (.int false 8) 4)], .noReturn⟩,
     ⟨"caller", .fn [.struct "pair" [.bool, .float 64]] .void, ⟨1, 2, 3⟩,
      some
        ⟨#[⟨.fn [] .void, .constant (.function ⟨0⟩), .synthetic⟩,
           ⟨.int true 64, .constant (.int (-5)), .synthetic⟩,
           ⟨.bool, .cmp .lt ⟨1⟩ ⟨1⟩, ⟨4, 5, 6⟩⟩,
           ⟨.void, .call ⟨0⟩ [⟨1⟩], ⟨7, 8, 9⟩⟩],
         [⟨2⟩, ⟨3⟩]⟩⟩]

theorem ofText_text_quoted :
    quoted.FloatFree ∧ quoted.toJson.depth ≤ maxDepth ∧ ofText quoted.text = .ok quoted ∧
      quoted.table.size = 2 ∧
      ∀ i, quoted.table.entry? i = quoted.decls[i.index.toNat]?.map (⟨·, []⟩) :=
  ⟨by decide, by decide, ofText_text (by decide) (by decide)⟩

end Module

end WasmLowering
