import WasmLowering.Json.Ir
import WasmLowering.Proofs.JsonText

/-!
# Values of an expected shape are read
-/
namespace WasmLowering.Json

open Numeral (Binary64 InRange)

section

variable {ε α β : Type}

@[simp] theorem map_ok (f : α → β) (a : α) : (Except.ok a : Except ε α).map f = .ok (f a) := rfl

@[simp] theorem bind_ok (f : α → Except ε β) (a : α) : (Except.ok a).bind f = f a := rfl

@[simp] theorem fmap_ok (f : α → β) (a : α) : f <$> (Except.ok a : Except ε α) = .ok (f a) := rfl

@[simp] theorem ok_bind (f : α → Except ε β) (a : α) : (Except.ok a >>= f) = f a := rfl

end

/-! ## Depth -/

namespace Value

theorem depthItems_le {vs : List Value} {n : Nat} :
    depthItems vs ≤ n ↔ ∀ v ∈ vs, v.depth ≤ n := by
  induction vs with
  | nil => simp [depthItems]
  | cons v vs ih => rw [depthItems, Nat.max_le, ih, List.forall_mem_cons]

theorem depthFields_le {fs : List (String × Value)} {n : Nat} :
    depthFields fs ≤ n ↔ ∀ f ∈ fs, f.2.depth ≤ n := by
  induction fs with
  | nil => simp [depthFields]
  | cons f fs ih => rw [depthFields, Nat.max_le, ih, List.forall_mem_cons]

theorem depth_array_le {vs : List Value} {room : Nat} :
    (array vs).depth ≤ room ↔ 0 < room ∧ ∀ v ∈ vs, v.depth ≤ room - 1 := by
  rw [← depthItems_le, depth]
  omega

theorem depth_object_le {fs : List (String × Value)} {room : Nat} :
    (object fs).depth ≤ room ↔ 0 < room ∧ ∀ f ∈ fs, f.2.depth ≤ room - 1 := by
  rw [← depthFields_le, depth]
  omega

theorem depth_tagged_le {name : String} {v : Value} {room : Nat} :
    (tagged name v).depth ≤ room ↔ 0 < room ∧ v.depth ≤ room - 1 := by
  simp [tagged, depth_object_le]

theorem depth_tagged_object_le {name : String} {fs : List (String × Value)} {room : Nat} :
    (tagged name (object fs)).depth ≤ room
      ↔ 0 < room ∧ 0 < room - 1 ∧ ∀ f ∈ fs, f.2.depth ≤ room - 1 - 1 := by
  rw [depth_tagged_le, depth_object_le]

/-! ## Plain values -/

@[simp] theorem plain_bool (b : Bool) : (bool b).Plain := .bool b

@[simp] theorem plain_string (s : String) : (string s).Plain := .string s

@[simp] theorem plain_array {vs : List Value} : (array vs).Plain ↔ ∀ v ∈ vs, v.Plain :=
  ⟨fun h => by cases h; assumption, .array⟩

@[simp] theorem plain_object {fs : List (String × Value)} :
    (object fs).Plain ↔ ∀ f ∈ fs, f.2.Plain :=
  ⟨fun h => by cases h; assumption, .object⟩

@[simp] theorem plain_tagged {name : String} {v : Value} : (tagged name v).Plain ↔ v.Plain := by
  simp [tagged]

theorem plain_nat {n : Nat} (h : n < UInt64.size) : (nat n).Plain := by
  refine .integer (.inr ?_)
  simp only [UInt64.size] at h
  simp [InRange]
  omega

@[simp] theorem plain_uInt16 (n : UInt16) : (nat n.toNat).Plain :=
  plain_nat (Nat.lt_trans n.toNat_lt (by decide))

@[simp] theorem plain_uInt32 (n : UInt32) : (nat n.toNat).Plain :=
  plain_nat (Nat.lt_trans n.toNat_lt (by decide))

@[simp] theorem plain_uInt64 (n : UInt64) : (nat n.toNat).Plain := plain_nat n.toNat_lt

theorem inRange_int64 (v : Int64) : InRange true 64 v.toInt := by
  have := v.le_toInt
  have := v.toInt_lt
  simp [InRange]
  omega

@[simp] theorem plain_int64 (v : Int64) : (integer v.toInt).Plain := .integer (.inl (inRange_int64 v))

/-! ## Scalars -/

theorem readNat_nat {bits n : Nat} (h : n < 1 <<< bits) : (nat n).readNat bits = .ok n := by
  have hr : InRange false bits n := ⟨Int.natCast_nonneg n, Int.ofNat_lt.2 h⟩
  simp [readNat, readInteger, nat, hr]

@[simp] theorem readUInt16_nat (n : UInt16) : (nat n.toNat).readUInt16 = .ok n := by
  rw [readUInt16, readNat_nat n.toNat_lt]
  exact congrArg Except.ok UInt16.ofNat_toNat

@[simp] theorem readUInt32_nat (n : UInt32) : (nat n.toNat).readUInt32 = .ok n := by
  rw [readUInt32, readNat_nat n.toNat_lt]
  exact congrArg Except.ok UInt32.ofNat_toNat

@[simp] theorem readUInt64_nat (n : UInt64) : (nat n.toNat).readUInt64 = .ok n := by
  rw [readUInt64, readNat_nat n.toNat_lt]
  exact congrArg Except.ok UInt64.ofNat_toNat

@[simp] theorem readInt64_integer (v : Int64) : (integer v.toInt).readInt64 = .ok v := by
  simp [readInt64, readInteger, inRange_int64 v]

@[simp] theorem readFloat_float (x : Binary64) : (float x).readFloat = .ok x := rfl

@[simp] theorem readBool_bool (b : Bool) : (bool b).readBool = .ok b := rfl

@[simp] theorem readString_string (s : String) : (string s).readString = .ok s := rfl

/-! ## Lists -/

theorem readList_map {α : Type} {read : Value → Except Mismatch α} {f : α → Value} {room : Nat}
    (hr : 0 < room) {as : List α} (h : ∀ a ∈ as, read (f a) = .ok a) :
    readList room read (array (as.map f)) = .ok as := by
  rw [readList, if_neg (by omega)]
  induction as with
  | nil => rfl
  | cons a as ih =>
      rw [List.map_cons, List.mapM_cons, h a List.mem_cons_self,
        ih fun b hb => h b (.tail _ hb)]
      rfl

end Value

/-! ## Records -/

namespace Member

variable {σ β : Type} {known fields : List (Member σ)} {expected : String} {s : σ}

@[simp] theorem name_required (name : String) (read : Value → Except Mismatch β)
    (set : β → σ → σ) : (required name read set).name = name := rfl

@[simp] theorem name_defaulted (name : String) (read : Value → Except Mismatch β)
    (set : β → σ → σ) : (defaulted name read set).name = name := rfl

@[simp] theorem putItems_nil (n : Nat) : putItems expected n [] [] s = .ok s := rfl

@[simp] theorem putItems_required (name : String) (read : Value → Except Mismatch β)
    (set : β → σ → σ) (n : Nat) (v : Value) (vs : List Value) :
    putItems expected n (required name read set :: fields) (v :: vs) s
      = (read v).bind fun x => putItems expected (n + 1) fields vs (set x s) := by
  cases h : read v <;> simp [putItems, required, h, Except.map, Except.bind, bind]

@[simp] theorem putItems_defaulted (name : String) (read : Value → Except Mismatch β)
    (set : β → σ → σ) (n : Nat) (v : Value) (vs : List Value) :
    putItems expected n (defaulted name read set :: fields) (v :: vs) s
      = (read v).bind fun x => putItems expected (n + 1) fields vs (set x s) :=
  putItems_required name read set n v vs

theorem checkComplete_of_seen {seen : List String} (h : ∀ f ∈ fields, f.name ∈ seen) :
    checkComplete seen fields = .ok () := by
  induction fields with
  | nil => rfl
  | cons f fs ih =>
      simp [checkComplete, h f List.mem_cons_self, ih fun g hg => h g (.tail _ hg)]

theorem find?_name (hk : (known.map name).Nodup) {f : Member σ} (hf : f ∈ known) :
    (known.find? fun g => g.name == f.name) = some f := by
  induction known with
  | nil => exact absurd hf List.not_mem_nil
  | cons g gs ih =>
      rw [List.map_cons, List.nodup_cons] at hk
      rcases List.mem_cons.1 hf with rfl | hf
      · simp
      · have ne : g.name ≠ f.name := fun e => hk.1 (e ▸ List.mem_map_of_mem hf)
        rw [List.find?_cons_of_neg (by simpa using ne), ih hk.2 hf]

/-- Values under the names of the fields, in their order, are read as the list of the values. -/
theorem putNamed_eq_putItems (expected : String) (n : Nat) {given : List (String × Value)} {seen : List String}
    (hk : (known.map name).Nodup) (hf : ∀ f ∈ fields, f ∈ known)
    (names : given.map Prod.fst = fields.map name)
    (fresh : (seen ++ fields.map name).Nodup) :
    putNamed known given seen s
      = (putItems expected n fields (given.map Prod.snd) s).map
          fun s => ((fields.map name).reverse ++ seen, s) := by
  induction fields generalizing given seen s n with
  | nil =>
      obtain rfl := List.map_eq_nil_iff.1 names
      rfl
  | cons f fs ih =>
      cases given with
      | nil => cases names
      | cons g gs =>
          obtain ⟨k, v⟩ := g
          obtain ⟨rfl, names'⟩ : k = f.name ∧ gs.map Prod.fst = fs.map name := by
            simpa using names
          have notSeen : f.name ∉ seen := by
            intro h
            exact (List.nodup_append.1 fresh).2.2 _ h _ List.mem_cons_self rfl
          have fresh' : (f.name :: seen ++ fs.map name).Nodup := by
            rw [List.map_cons] at fresh
            exact (List.perm_middle.nodup_iff).1 fresh
          simp only [putNamed, find?_name hk (hf f List.mem_cons_self), List.contains_eq_mem,
            notSeen, decide_false, Bool.false_eq_true, if_false, List.map_cons, putItems]
          cases f.put v s with
          | error e => rfl
          | ok s' =>
              have rest := ih (n + 1) (s := s') (fun g hg => hf g (.tail _ hg)) names' fresh'
              simpa [bind, Except.bind] using rest

end Member

theorem Value.readRecord_object {σ : Type} {fields : List (Member σ)} {expected : String}
    {start : σ} {room : Nat} (hr : 0 < room) {given : List (String × Value)}
    (hk : (fields.map Member.name).Nodup)
    (names : given.map Prod.fst = fields.map Member.name) :
    (object given).readRecord room expected fields start
      = Member.putItems expected 0 fields (given.map Prod.snd) start := by
  rw [readRecord, if_neg (by omega),
    Member.putNamed_eq_putItems expected 0 hk (fun _ h => h) names (by simpa using hk)]
  cases Member.putItems expected 0 fields (given.map Prod.snd) start with
  | error e => rfl
  | ok s =>
      have complete : Member.checkComplete ((fields.map Member.name).reverse ++ []) fields = .ok () :=
        Member.checkComplete_of_seen fun f hf => by simpa using ⟨f, hf, rfl⟩
      simp only [Except.map, bind, Except.bind, complete]
      rfl

/-! ## Variants -/

namespace Value

variable {α : Type} {known : List String} {read : String → Option Value → Except Mismatch α}

theorem readVariant_string {name : String} (h : name ∈ known) (room : Nat) :
    readVariant room known read (string name) = read name none := by
  simp [readVariant, h]

theorem readVariant_tagged {name : String} (h : name ∈ known) {room : Nat} (hr : 0 < room)
    (v : Value) : readVariant room known read (tagged name v) = read name (some v) := by
  simp only [readVariant, tagged, if_neg (show ¬ room = 0 by omega), List.contains_eq_mem, h,
    decide_true, if_true]
  cases read name (some v) <;> rfl

end Value

end WasmLowering.Json
