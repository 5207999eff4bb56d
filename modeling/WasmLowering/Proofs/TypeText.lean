import WasmLowering.Ir.Ty
import WasmLowering.Proofs.Decimal

/-!
# A type is known by its text

The text of a struct is its name only. All other types can be told from their texts, also where more
text follows: the first characters of a text say how the type is built, and its parts are told
apart one after the other. Only a bit width has to be told from what stands behind it.
-/

namespace WasmLowering

namespace Ty

/-! ## Types without structs -/

mutual
/-- No struct occurs in the type. -/
def StructFree : Ty → Prop
  | ptr t => t.StructFree
  | array t _ => t.StructFree
  | struct _ _ => False
  | fn ps r => StructFreeAll ps ∧ r.StructFree
  | _ => True

def StructFreeAll : List Ty → Prop
  | [] => True
  | t :: ts => t.StructFree ∧ StructFreeAll ts
end

/-- How a type is built, as far as the beginning of its text says. -/
inductive Head where
  | void | noReturn | bool
  | int (signed : Bool)
  | float | ptr | array | fn
deriving DecidableEq, Repr

def head? : Ty → Option Head
  | void => some .void
  | noReturn => some .noReturn
  | bool => some .bool
  | int signed _ => some (.int signed)
  | float _ => some .float
  | ptr _ => some .ptr
  | array _ _ => some .array
  | struct _ _ => none
  | fn _ _ => some .fn

def Head.ofText? : List Char → Option Head
  | 'v' :: _ => some void
  | 'n' :: _ => some noReturn
  | 'b' :: _ => some bool
  | 'i' :: _ => some (int true)
  | 'u' :: _ => some (int false)
  | 'f' :: cs => some (if cs.head? = some 'n' then fn else float)
  | '*' :: _ => some ptr
  | '[' :: _ => some array
  | _ => none

/-! ## Texts -/

section

variable {t u : Ty} {ts us : List Ty} {r s : List Char}

theorem toList_text_int (signed : Bool) (bits : UInt16) : (int signed bits).text.toList
    = (if signed then 'i' else 'u') :: Nat.toDigits 10 bits.toNat := by
  have hb : (toString bits).toList = Nat.toDigits 10 bits.toNat := Nat.toList_repr
  cases signed <;> simp [text, hb]

theorem toList_text_float (bits : UInt16) :
    (float bits).text.toList = 'f' :: Nat.toDigits 10 bits.toNat := by
  have hb : (toString bits).toList = Nat.toDigits 10 bits.toNat := Nat.toList_repr
  simp [text, hb]

theorem toList_text_ptr (t : Ty) : (ptr t).text.toList = '*' :: t.text.toList := by
  simp [text]

theorem toList_text_array (t : Ty) (n : UInt64) : (array t n).text.toList
    = '[' :: (Nat.toDigits 10 n.toNat ++ ']' :: t.text.toList) := by
  have hn : (toString n).toList = Nat.toDigits 10 n.toNat := Nat.toList_repr
  simp [text, hn]

theorem toList_text_fn (ps : List Ty) (t : Ty) : (fn ps t).text.toList
    = 'f' :: 'n' :: '(' :: ((textList ps).toList ++ ')' :: ' ' :: t.text.toList) := by
  simp [text]

/-- What stands behind the first type of a list, up to the parenthesis that ends the list. -/
def afterFirst : List Ty → List Char → List Char
  | [], r => ')' :: r
  | t :: ts, r => ',' :: ' ' :: ((textList (t :: ts)).toList ++ ')' :: r)

theorem textList_cons (t : Ty) (ts : List Ty) (r : List Char) :
    (textList (t :: ts)).toList ++ ')' :: r = t.text.toList ++ afterFirst ts r := by
  cases ts <;> simp [textList, afterFirst]

theorem endsNumber_afterFirst (ts : List Ty) (r : List Char) : EndsNumber (afterFirst ts r) := by
  cases ts <;> simp [EndsNumber, afterFirst]

theorem afterFirst_inj (h : afterFirst ts r = afterFirst us s) :
    (textList ts).toList ++ ')' :: r = (textList us).toList ++ ')' :: s := by
  cases ts with
  | nil =>
      cases us with
      | nil => exact h
      | cons u us => exact absurd (List.cons.inj h).1 (by decide)
  | cons t ts =>
      cases us with
      | nil => exact absurd (List.cons.inj h).1 (by decide)
      | cons u us => exact (List.cons.inj (List.cons.inj h).2).2

theorem Head.ofText?_append (h : t.StructFree) (r : List Char) :
    Head.ofText? (t.text.toList ++ r) = t.head? := by
  cases t with
  | int signed bits => cases signed <;> rw [toList_text_int] <;> rfl
  | float bits =>
      obtain ⟨c, cs, hcs, hc⟩ := exists_toDigits bits.toNat
      rw [toList_text_float, hcs]
      simp [ofText?, head?, digit_ne hc (d := 'n') rfl]
  | ptr t => rw [toList_text_ptr]; rfl
  | array t n => rw [toList_text_array]; rfl
  | struct name fields => cases h
  | fn ps t => rw [toList_text_fn]; rfl
  | _ => simp [text, head?, ofText?]

/-- Two types are built alike if their texts begin alike. -/
theorem head?_congr (ht : t.StructFree) (hu : u.StructFree)
    (h : t.text.toList ++ r = u.text.toList ++ s) : t.head? = u.head? := by
  rw [← Head.ofText?_append ht r, h, Head.ofText?_append hu]

theorem isSome_head? (h : t.StructFree) : t.head?.isSome := by
  cases t with
  | struct name fields => cases h
  | _ => rfl

theorem text_append_ne (h : t.StructFree) (r s : List Char) : t.text.toList ++ r ≠ ')' :: s := by
  intro he
  have hs := isSome_head? h
  rw [← Head.ofText?_append h r, he] at hs
  cases hs

end

mutual
/-- The text of a type is told from whatever stands behind it. -/
theorem text_append_inj {t u : Ty} {r s : List Char} (ht : t.StructFree) (hu : u.StructFree)
    (hr : EndsNumber r) (hs : EndsNumber s) (h : t.text.toList ++ r = u.text.toList ++ s) :
    t = u ∧ r = s := by
  -- the texts begin alike, so that `u` is built as `t` is, and parts are compared with parts
  have hh := head?_congr ht hu h
  cases t with
  | void =>
      cases u with
      | void => exact ⟨rfl, List.append_cancel_left h⟩
      | _ => cases hh
  | noReturn =>
      cases u with
      | noReturn => exact ⟨rfl, List.append_cancel_left h⟩
      | _ => cases hh
  | bool =>
      cases u with
      | bool => exact ⟨rfl, List.append_cancel_left h⟩
      | _ => cases hh
  | int signed bits =>
      cases u with
      | int signed' bits' =>
          cases hh
          rw [toList_text_int, toList_text_int] at h
          obtain ⟨hb, rfl⟩ := hr.toDigits_append_inj hs (List.cons.inj h).2
          exact ⟨by rw [UInt16.toNat_inj.mp hb], rfl⟩
      | _ => cases hh
  | float bits =>
      cases u with
      | float bits' =>
          rw [toList_text_float, toList_text_float] at h
          obtain ⟨hb, rfl⟩ := hr.toDigits_append_inj hs (List.cons.inj h).2
          exact ⟨by rw [UInt16.toNat_inj.mp hb], rfl⟩
      | _ => cases hh
  | ptr t =>
      cases u with
      | ptr u =>
          rw [toList_text_ptr, toList_text_ptr] at h
          obtain ⟨rfl, rfl⟩ := text_append_inj (t := t) (u := u) ht hu hr hs (List.cons.inj h).2
          exact ⟨rfl, rfl⟩
      | _ => cases hh
  | array t n =>
      cases u with
      | array u n' =>
          rw [toList_text_array, toList_text_array] at h
          simp only [List.cons_append, List.append_assoc, List.cons.injEq, true_and] at h
          obtain ⟨hn, hrest⟩ := EndsNumber.toDigits_append_inj (by simp [EndsNumber])
            (by simp [EndsNumber]) h
          obtain ⟨rfl, rfl⟩ :=
            text_append_inj (t := t) (u := u) ht hu hr hs (List.cons.inj hrest).2
          exact ⟨by rw [UInt64.toNat_inj.mp hn], rfl⟩
      | _ => cases hh
  | struct name fields => cases ht
  | fn ps t =>
      cases u with
      | fn qs u =>
          rw [toList_text_fn, toList_text_fn] at h
          simp only [List.cons_append, List.append_assoc, List.cons.injEq, true_and] at h
          obtain ⟨rfl, hrest⟩ := textList_append_inj ht.1 hu.1 h
          obtain ⟨rfl, rfl⟩ := text_append_inj ht.2 hu.2 hr hs (List.cons.inj hrest).2
          exact ⟨rfl, rfl⟩
      | _ => cases hh

theorem textList_append_inj {ts us : List Ty} {r s : List Char} (ht : StructFreeAll ts)
    (hu : StructFreeAll us)
    (h : (textList ts).toList ++ ')' :: r = (textList us).toList ++ ')' :: s) :
    ts = us ∧ r = s := by
  cases ts with
  | nil =>
      cases us with
      | nil => exact ⟨rfl, (List.cons.inj h).2⟩
      | cons u us =>
          rw [textList_cons] at h
          exact absurd h.symm (text_append_ne hu.1 _ _)
  | cons t ts =>
      rw [textList_cons] at h
      cases us with
      | nil => exact absurd h (text_append_ne ht.1 _ _)
      | cons u us =>
          rw [textList_cons] at h
          -- a comma or the parenthesis ends the first type, and says whether there is another one
          obtain ⟨rfl, hrest⟩ := text_append_inj ht.1 hu.1 (endsNumber_afterFirst ts r)
            (endsNumber_afterFirst us s) h
          obtain ⟨rfl, rfl⟩ := textList_append_inj ht.2 hu.2 (afterFirst_inj hrest)
          exact ⟨rfl, rfl⟩
end

/-- Types without structs are the same if their texts are. -/
theorem text_inj {t u : Ty} (ht : t.StructFree) (hu : u.StructFree) : t.text = u.text ↔ t = u := by
  constructor
  · intro h
    have hnil : EndsNumber [] := by simp [EndsNumber]
    exact (text_append_inj ht hu hnil hnil (congrArg (·.toList ++ []) h)).1
  · rintro rfl
    rfl

/-- The texts are `fn(fn(i32) f64, u8) void` and `fn(fn(i32, f64) u8) void`. -/
theorem text_inj_nested :
    let i32 := int true 32
    let u8 := int false 8
    let t := fn [fn [i32] (float 64), u8] void
    let u := fn [fn [i32, float 64] u8] void
    t.StructFree ∧ u.StructFree ∧ t.text ≠ u.text := by
  intro i32 u8 t u
  have ht : t.StructFree := by simp [t, i32, u8, StructFree, StructFreeAll]
  have hu : u.StructFree := by simp [u, i32, u8, StructFree, StructFreeAll]
  have hne : t ≠ u := by simp [t, u]
  exact ⟨ht, hu, fun h => hne ((text_inj ht hu).mp h)⟩

/-- The text of a struct does not say what its fields are. -/
example : (struct "pair" [bool, void]).text = (struct "pair" []).text := rfl

end Ty

end WasmLowering
