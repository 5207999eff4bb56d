import Mathlib.Data.List.Nodup

/-!
# Lists taken apart at an entry

What holds of every entry of a block together with those before it is stated for all ways to write
the block as a list, an entry and another list.
-/

namespace WasmLowering

variable {α : Type} {l before after : List α} {a : α}

theorem forall_cons_eq_append_iff {P : List α → α → Prop} :
    (∀ before b after, a :: l = before ++ b :: after → P before b) ↔
      P [] a ∧ ∀ before b after, l = before ++ b :: after → P (a :: before) b := by
  constructor
  · intro h
    exact ⟨h [] a l rfl, fun before b after hs => h (a :: before) b after (by simp [hs])⟩
  · rintro ⟨ha, h⟩ before b after hs
    cases before with
    | nil =>
        obtain ⟨rfl, -⟩ := List.cons.inj hs
        exact ha
    | cons x before =>
        obtain ⟨rfl, ht⟩ := List.cons.inj hs
        exact h before b after ht

instance decidableForallEqAppend {P : List α → α → Prop} [∀ before a, Decidable (P before a)] :
    (l : List α) → Decidable (∀ before a after, l = before ++ a :: after → P before a)
  | [] => isTrue (by simp)
  | a :: l =>
    have : Decidable (∀ before b after, l = before ++ b :: after → P (a :: before) b) :=
      decidableForallEqAppend l
    decidable_of_iff _ forall_cons_eq_append_iff.symm

theorem forall_append_singleton_iff {P : List α → α → Prop} :
    (∀ before b after, l ++ [a] = before ++ b :: after → P before b) ↔
      (∀ before b after, l = before ++ b :: after → P before b) ∧ P l a := by
  constructor
  · intro h
    exact ⟨fun before b after hs => h before b (after ++ [a]) (by simp [hs]), h l a [] rfl⟩
  · rintro ⟨h, ha⟩ before b after hs
    rcases List.eq_nil_or_concat after with rfl | ⟨after, c, rfl⟩
    · obtain ⟨rfl, hb⟩ := List.append_inj' hs rfl
      obtain rfl : a = b := by simpa using hb
      exact ha
    · have hs' : l ++ [a] = (before ++ b :: after) ++ [c] := by simpa using hs
      exact h before b after (List.append_inj' hs' rfl).1

theorem pairwise_iff_append {r : α → α → Prop} : l.Pairwise r ↔
    ∀ before b after, l = before ++ b :: after → ∀ a ∈ before, r a b := by
  constructor
  · rintro h before b after rfl a ha
    exact (List.pairwise_append.mp h).2.2 a ha b (List.mem_cons_self ..)
  · intro h
    rw [List.pairwise_iff_forall_sublist]
    intro a b hs
    obtain ⟨l₁, l₂, rfl, ha, hs⟩ := List.cons_sublist_iff.mp hs
    obtain ⟨l₃, l₄, rfl⟩ := List.append_of_mem (List.singleton_sublist.mp hs)
    exact h (l₁ ++ l₃) b l₄ (by simp) a (List.mem_append_left _ ha)

/-! ## Filtered lists -/

variable {p : α → Bool}

theorem getElem?_filter_append_cons (ha : p a = true) :
    ((before ++ a :: after).filter p)[before.countP p]? = some a := by
  rw [List.filter_append, List.filter_cons_of_pos ha, List.countP_eq_length_filter]
  simp

/-- An entry of a filtered list stands behind as many that pass the filter as its position says. -/
theorem exists_append_of_getElem?_filter {k : Nat} (h : (l.filter p)[k]? = some a) :
    ∃ before after, l = before ++ a :: after ∧ p a = true ∧ before.countP p = k := by
  induction l generalizing k with
  | nil => simp at h
  | cons x l ih =>
      cases hx : p x with
      | false =>
          rw [List.filter_cons_of_neg (by simp [hx])] at h
          obtain ⟨before, after, rfl, ha, hk⟩ := ih h
          exact ⟨x :: before, after, rfl, ha, by simp [hx, hk]⟩
      | true =>
          rw [List.filter_cons_of_pos hx] at h
          cases k with
          | zero =>
              obtain rfl : x = a := by simpa using h
              exact ⟨[], l, rfl, hx, rfl⟩
          | succ k =>
              obtain ⟨before, after, rfl, ha, hk⟩ := ih (by simpa using h)
              exact ⟨x :: before, after, rfl, ha, by simp [hx, hk]⟩

end WasmLowering
