import WasmLowering.Json.Reader
import WasmLowering.Proofs.Decimal

/-!
# A written JSON value is read back

Whatever stands behind the text of a value is left alone, so that the parts of a list and of an
object are read one after the other. Only a number has to be told from what follows it.
-/
namespace WasmLowering.Json

open Numeral (InRange)

/-- Values without floats and without parts that denote nothing. -/
inductive Value.Plain : Value → Prop where
  | null : Plain .null
  | bool (b : Bool) : Plain (.bool b)
  | integer {v : Int} (h : InRange true 64 v ∨ InRange false 64 v) : Plain (.integer v)
  | string (s : String) : Plain (.string s)
  | array {vs : List Value} (h : ∀ v ∈ vs, Plain v) : Plain (.array vs)
  | object {fs : List (String × Value)} (h : ∀ f ∈ fs, Plain f.2) : Plain (.object fs)

/-! ## Strings -/

theorem number?_control (n : Nat) (h : n < 32) :
    Hex.number? ['0', '0', Nat.digitChar (n / 16), Nat.digitChar (n % 16)] = some n := by
  have all : ∀ n < 32,
      Hex.number? ['0', '0', Nat.digitChar (n / 16), Nat.digitChar (n % 16)] = some n := by decide
  exact all n h

theorem pieces_cons {c : Char} (hq : c ≠ '"') (hb : c ≠ '\\') (hc : ¬ c.toNat < 32)
    (cs : List Char) :
    pieces (c :: cs) = (pieces cs).map fun (ps, rest) => (.char c :: ps, rest) := by
  rw [pieces.eq_5 c cs hq (fun _ _ _ _ _ h => absurd h hb) (fun _ _ h => absurd h hb)]
  rw [if_neg (by simp [hb, hc])]
  cases pieces cs <;> rfl

theorem pieces_short {e c : Char} (hu : e ≠ 'u') (he : shortEscape? e = some c) (cs : List Char) :
    pieces ('\\' :: e :: cs) = (pieces cs).map fun (ps, rest) => (.char c :: ps, rest) := by
  rw [pieces.eq_4 _ _ (fun _ _ _ _ _ h => absurd h hu), he]
  cases pieces cs <;> rfl

theorem pieces_unit {a b c d : Char} {n : Nat} (h : Hex.number? [a, b, c, d] = some n)
    (cs : List Char) :
    pieces ('\\' :: 'u' :: a :: b :: c :: d :: cs)
      = (pieces cs).map fun (ps, rest) => (.unit n :: ps, rest) := by
  rw [pieces, h]
  cases pieces cs <;> rfl

theorem joinPieces_unit {n : Nat} (h : n < 0xD800) (ps : List Piece) :
    joinPieces (.unit n :: ps) = (joinPieces ps).map (Char.ofNat n :: ·) := by
  have high : isHighSurrogate n = false := by simp [isHighSurrogate]; omega
  have low : isLowSurrogate n = false := by simp [isLowSurrogate]; omega
  rw [joinPieces.eq_def]
  simp only [high, low, Bool.false_eq_true, if_false]

/-- The piece `p` is read where the character `c` is written, and stands for it. -/
structure Piece.Denotes (p : Piece) (c : Char) : Prop where
  read : ∀ cs, pieces (Value.escape c ++ cs) = (pieces cs).map fun (ps, rest) => (p :: ps, rest)
  join : ∀ ps, joinPieces (p :: ps) = (joinPieces ps).map (c :: ·)

theorem denotes_short {e c : Char} (hu : e ≠ 'u') (he : shortEscape? e = some c)
    (hw : Value.escape c = ['\\', e]) : ∃ p : Piece, p.Denotes c :=
  ⟨.char c, fun cs => by rw [hw]; exact pieces_short hu he cs, fun _ => rfl⟩

theorem exists_denotes (c : Char) : ∃ p : Piece, p.Denotes c := by
  by_cases hq : c = '"'
  · subst hq; exact denotes_short (e := '"') (by decide) rfl rfl
  by_cases hb : c = '\\'
  · subst hb; exact denotes_short (e := '\\') (by decide) rfl rfl
  by_cases hn : c = '\n'
  · subst hn; exact denotes_short (e := 'n') (by decide) rfl rfl
  by_cases hr : c = '\r'
  · subst hr; exact denotes_short (e := 'r') (by decide) rfl rfl
  by_cases ht : c = '\t'
  · subst ht; exact denotes_short (e := 't') (by decide) rfl rfl
  by_cases hbs : c = '\x08'
  · subst hbs; exact denotes_short (e := 'b') (by decide) rfl rfl
  by_cases hff : c = '\x0c'
  · subst hff; exact denotes_short (e := 'f') (by decide) rfl rfl
  by_cases hc : c.toNat < 32
  · refine ⟨.unit c.toNat, fun cs => ?_, fun ps => ?_⟩
    · rw [Value.escape, if_neg hq, if_neg hb, if_neg hn, if_neg hr, if_neg ht, if_neg hbs,
        if_neg hff, if_pos hc]
      exact pieces_unit (number?_control c.toNat hc) cs
    · rw [joinPieces_unit (by omega), Char.ofNat_toNat]
  · refine ⟨.char c, fun cs => ?_, fun ps => rfl⟩
    rw [Value.escape, if_neg hq, if_neg hb, if_neg hn, if_neg hr, if_neg ht, if_neg hbs, if_neg hff,
      if_neg hc]
    exact pieces_cons hq hb hc cs

theorem pieces_escaped (cs rest : List Char) :
    ∃ ps, pieces (cs.flatMap Value.escape ++ '"' :: rest) = some (ps, rest) ∧
      joinPieces ps = some cs := by
  induction cs with
  | nil => exact ⟨[], rfl, rfl⟩
  | cons c cs ih =>
      obtain ⟨ps, hps, hj⟩ := ih
      obtain ⟨p, hp⟩ := exists_denotes c
      refine ⟨p :: ps, ?_, ?_⟩
      · rw [List.flatMap_cons, List.append_assoc, hp.read, hps]; rfl
      · rw [hp.join, hj]; rfl

theorem string_quote (s : String) (rest : List Char) :
    string (s.toList.flatMap Value.escape ++ '"' :: rest) = some (some s, rest) := by
  obtain ⟨ps, hps, hj⟩ := pieces_escaped s.toList rest
  simp [string, hps, hj]

/-! ## Numbers -/

/-- What a number is not continued by. -/
def Delimits (rest : List Char) : Prop := ∀ c ∈ rest.head?, c = ',' ∨ c = '\n'

theorem delimits_comma (cs : List Char) : Delimits (',' :: cs) := by simp [Delimits]

theorem delimits_newline (i : Nat) (cs : List Char) : Delimits (Value.newline i ++ cs) := by
  simp [Delimits, Value.newline]

theorem delimits_nil : Delimits [] := by simp [Delimits]

theorem Delimits.endsNumber {rest : List Char} (h : Delimits rest) : EndsNumber rest := by
  intro c hc
  rcases h c hc with rfl | rfl <;> rfl

theorem toString_ofNat (n : Nat) : (toString (Int.ofNat n)).toList = Nat.toDigits 10 n :=
  Nat.toList_repr

theorem toString_negSucc (n : Nat) :
    (toString (Int.negSucc n)).toList = '-' :: Nat.toDigits 10 (n + 1) := by
  rw [← Nat.toList_repr]
  simp [toString, Int.repr]

theorem digits_repr (n : Nat) {rest : List Char} (h : Delimits rest) :
    digits (Nat.toDigits 10 n ++ rest) = ((Nat.toDigits 10 n).map digitValue, rest) := by
  rw [digits, h.endsNumber.takeWhile_append, h.endsNumber.dropWhile_append]

theorem ofDigits_map (n : Nat) : ofDigits ((Nat.toDigits 10 n).map digitValue) = n := by
  have h := Nat.ofDigitChars_ten_toDigits (n := n)
  rw [Nat.ofDigitChars_eq_foldl] at h
  simpa only [ofDigits, List.foldl_map, digitValue, Nat.mul_comm] using h

/-- No zero stands in front of other digits. -/
theorem exists_toDigits_of_pos {n : Nat} (h : 0 < n) :
    ∃ c cs, Nat.toDigits 10 n = c :: cs ∧ digitValue c ≠ 0 := by
  induction n using Nat.strongRecOn with
  | ind n ih =>
      by_cases hn : n < 10
      · have all : ∀ n < 10, 0 < n → digitValue (Nat.digitChar n) ≠ 0 := by decide
        exact ⟨_, _, Nat.toDigits_of_lt_base hn, all n hn h⟩
      · obtain ⟨c, cs, hcs, hc⟩ := ih (n / 10) (by omega) (by omega)
        refine ⟨c, cs ++ [(n % 10).digitChar], ?_, hc⟩
        rw [Nat.toDigits_of_base_le (by decide) (by omega), hcs, List.cons_append]

theorem wholeDigits_repr (n : Nat) {rest : List Char} (h : Delimits rest) :
    wholeDigits (Nat.toDigits 10 n ++ rest) = some ((Nat.toDigits 10 n).map digitValue, rest) := by
  rw [wholeDigits, digits_repr n h]
  rcases Nat.eq_zero_or_pos n with rfl | hn
  · rfl
  · obtain ⟨c, cs, hcs, hc⟩ := exists_toDigits_of_pos hn
    obtain ⟨d, hd⟩ := Nat.exists_eq_succ_of_ne_zero hc
    rw [hcs, List.map_cons, hd]
    cases cs <;> rfl

theorem fractionDigits_of_delimits {rest : List Char} (h : Delimits rest) :
    fractionDigits rest = some (none, rest) := by
  cases rest with
  | nil => rfl
  | cons c cs =>
      rcases h c rfl with rfl | rfl <;> rfl

theorem exponentPart_of_delimits {rest : List Char} (h : Delimits rest) :
    exponentPart rest = some (none, rest) := by
  cases rest with
  | nil => rfl
  | cons c cs =>
      rcases h c rfl with rfl | rfl <;> rfl

theorem number_nat {n : Nat} (hn : InRange false 64 n) {rest : List Char} (h : Delimits rest) :
    number false (Nat.toDigits 10 n ++ rest) = some (.integer n, rest) := by
  rw [number, wholeDigits_repr n h]
  simp [fractionDigits_of_delimits h, exponentPart_of_delimits h, ofDigits_map, hn]

theorem number_neg {n : Nat} (hp : 0 < n) (hn : InRange true 64 (-(n : Int))) {rest : List Char}
    (h : Delimits rest) :
    number true (Nat.toDigits 10 n ++ rest) = some (.integer (-(n : Int)), rest) := by
  rw [number, wholeDigits_repr n h]
  simp [fractionDigits_of_delimits h, exponentPart_of_delimits h, ofDigits_map, hp, hn]

/-! ## Values -/

open Value (newline pretty prettyItems prettyFields quote)

theorem skipBlanks_newline (i : Nat) (cs : List Char) :
    skipBlanks (newline i ++ cs) = skipBlanks cs := by
  have blank : ∀ c ∈ newline i, isBlank c := by
    intro c hc
    rcases List.mem_cons.1 hc with rfl | hc
    · rfl
    · rw [List.eq_of_mem_replicate hc]; rfl
  exact List.dropWhile_append_of_pos blank

theorem value_newline (fuel i : Nat) (cs : List Char) :
    value fuel (newline i ++ cs) = value fuel cs := by
  cases fuel with
  | zero => simp only [value]
  | succ fuel => simp only [value, skipBlanks_newline]

theorem value_blank (fuel : Nat) (cs : List Char) : value fuel (' ' :: cs) = value fuel cs := by
  cases fuel with
  | zero => simp only [value]
  | succ fuel => rfl

theorem items_newline (fuel i : Nat) (cs : List Char) :
    items fuel (newline i ++ cs) = items fuel cs := by
  cases fuel with
  | zero => simp only [items]
  | succ fuel => simp only [items, value_newline]

theorem fields_newline (fuel i : Nat) (cs : List Char) :
    fields fuel (newline i ++ cs) = fields fuel cs := by
  cases fuel with
  | zero => simp only [fields]
  | succ fuel => simp only [fields, skipBlanks_newline]

theorem skipBlanks_cons {c : Char} (h : isBlank c = false) (cs : List Char) :
    skipBlanks (c :: cs) = c :: cs := by
  simp [skipBlanks, h]

theorem digit_ne_blank {c : Char} (hc : c.isDigit) : isBlank c = false := by
  simp [isBlank, digit_ne hc (d := ' ') rfl, digit_ne hc (d := '\n') rfl,
    digit_ne hc (d := '\t') rfl, digit_ne hc (d := '\r') rfl]

theorem value_digit {c : Char} (hc : c.isDigit) (fuel : Nat) (cs : List Char) :
    value (fuel + 1) (c :: cs) = number false (c :: cs) := by
  rw [value, skipBlanks_cons (digit_ne_blank hc)]
  simp only [digit_ne hc (d := '"') rfl, digit_ne hc (d := '[') rfl,
    digit_ne hc (d := '\x7b') rfl, digit_ne hc (d := '-') rfl, hc, if_true, if_false]

theorem value_minus (fuel : Nat) (cs : List Char) :
    value (fuel + 1) ('-' :: cs) = number true cs := by
  rw [value, skipBlanks_cons rfl]
  rfl

theorem value_integer {v : Int} (hv : InRange true 64 v ∨ InRange false 64 v) (fuel : Nat)
    {rest : List Char} (h : Delimits rest) :
    value (fuel + 1) ((toString v).toList ++ rest) = some (.integer v, rest) := by
  cases v with
  | ofNat n =>
      have hn : InRange false 64 n := by simp [InRange] at hv ⊢; omega
      obtain ⟨c, cs, hcs, hc⟩ := exists_toDigits n
      have read := number_nat hn h
      rw [hcs, List.cons_append] at read
      rw [toString_ofNat, hcs, List.cons_append, value_digit hc, read]
      rfl
  | negSucc n =>
      have hn : InRange true 64 (-(n + 1 : Nat) : Int) := by simp [InRange] at hv ⊢; omega
      rw [toString_negSucc, List.cons_append, value_minus, number_neg (Nat.succ_pos n) hn h]
      rfl

theorem quote_append (k : String) (cs : List Char) :
    quote k ++ cs = '"' :: (k.toList.flatMap Value.escape ++ '"' :: cs) := by
  simp [quote]

theorem value_quote (s : String) (fuel : Nat) (rest : List Char) :
    value (fuel + 1) (quote s ++ rest) = some (.string s, rest) := by
  rw [quote_append, value, skipBlanks_cons rfl]
  simp only [if_true, string_quote]
  rfl

/-- What stands in front of a value: neither a blank nor the end of a list. -/
def Opens (cs : List Char) : Prop := ∃ c cs', cs = c :: cs' ∧ isBlank c = false ∧ c ≠ ']'

theorem Opens.append {cs : List Char} (h : Opens cs) (rest : List Char) : Opens (cs ++ rest) := by
  obtain ⟨c, cs', rfl, hc⟩ := h
  exact ⟨c, cs' ++ rest, rfl, hc⟩

theorem opens_repr (n : Nat) : Opens (Nat.toDigits 10 n) := by
  obtain ⟨c, cs, hcs, hc⟩ := exists_toDigits n
  exact ⟨c, cs, hcs, digit_ne_blank hc, digit_ne hc rfl⟩

theorem Value.Plain.opens {v : Value} (h : v.Plain) (i : Nat) : Opens (v.pretty i) := by
  cases h with
  | null => exact ⟨'n', _, rfl, rfl, by decide⟩
  | bool b => cases b <;> exact ⟨_, _, rfl, rfl, by decide⟩
  | @integer v h =>
      cases v with
      | ofNat n => rw [pretty, toString_ofNat]; exact opens_repr n
      | negSucc n => rw [pretty, toString_negSucc]; exact ⟨'-', _, rfl, rfl, by decide⟩
  | string s => exact ⟨'"', _, rfl, rfl, by decide⟩
  | @array vs h =>
      cases vs <;> exact ⟨'[', _, rfl, rfl, by decide⟩
  | @object fs h =>
      cases fs <;> exact ⟨'\x7b', _, rfl, rfl, by decide⟩

theorem value_array {cs : List Char} (h : Opens cs) (fuel i : Nat) :
    value (fuel + 1) ('[' :: newline i ++ cs)
      = (items fuel cs).map fun (vs, rest) => (.array vs, rest) := by
  obtain ⟨c, cs, rfl, hb, hc⟩ := h
  simp only [List.cons_append, value, skipBlanks_cons (c := '[') rfl, skipBlanks_newline,
    skipBlanks_cons hb, Char.reduceEq, if_true, if_false]
  split
  · rename_i heq
    exact absurd (List.cons.inj heq).1 hc
  · cases items fuel (c :: cs) <;> rfl

theorem items_last {fuel j : Nat} {cs rest : List Char} {v : Value}
    (h : value fuel cs = some (v, newline j ++ ']' :: rest)) :
    items (fuel + 1) cs = some ([v], rest) := by
  simp only [items, h, Option.bind_eq_bind, Option.bind_some, skipBlanks_newline,
    skipBlanks_cons (c := ']') rfl]
  rfl

theorem items_more {fuel : Nat} {cs rest rest' : List Char} {v : Value} {vs : List Value}
    (h : value fuel cs = some (v, ',' :: rest)) (hs : items fuel rest = some (vs, rest')) :
    items (fuel + 1) cs = some (v :: vs, rest') := by
  simp only [items, h, hs, Option.bind_eq_bind, Option.bind_some, skipBlanks_cons (c := ',') rfl]
  rfl

theorem value_object (k : String) (cs : List Char) (fuel i : Nat) :
    value (fuel + 1) ('\x7b' :: newline i ++ (quote k ++ cs))
      = (fields fuel (quote k ++ cs)).map fun (fs, rest) =>
          ((fs.map Value.object).getD .unreadable, rest) := by
  simp only [List.cons_append, value, skipBlanks_cons (c := '\x7b') rfl, skipBlanks_newline,
    quote_append, skipBlanks_cons (c := '"') rfl, Char.reduceEq, if_true, if_false]
  split
  · rename_i heq
    exact absurd (List.cons.inj heq).1 (by decide)
  · cases fields fuel ('"' :: (k.toList.flatMap Value.escape ++ '"' :: cs)) <;> rfl

theorem fields_last {fuel j : Nat} {k : String} {cs rest : List Char} {v : Value}
    (h : value fuel cs = some (v, newline j ++ '\x7d' :: rest)) :
    fields (fuel + 1) (quote k ++ ':' :: cs) = some (some [(k, v)], rest) := by
  simp only [quote_append, fields, skipBlanks_cons (c := '"') rfl, string_quote, h,
    skipBlanks_cons (c := ':') rfl, Option.bind_eq_bind, Option.bind_some, skipBlanks_newline,
    skipBlanks_cons (c := '\x7d') rfl]
  rfl

theorem fields_more {fuel : Nat} {k : String} {cs rest rest' : List Char} {v : Value}
    {fs : List (String × Value)}
    (h : value fuel cs = some (v, ',' :: rest)) (hs : fields fuel rest = some (some fs, rest')) :
    fields (fuel + 1) (quote k ++ ':' :: cs) = some (some ((k, v) :: fs), rest') := by
  simp only [quote_append, fields, skipBlanks_cons (c := '"') rfl, string_quote, h, hs,
    skipBlanks_cons (c := ':') rfl, Option.bind_eq_bind, Option.bind_some,
    skipBlanks_cons (c := ',') rfl]
  rfl

/-! ## Whole values

A step takes a character but for the step into a list or an object, so twice the length of the text
is fuel enough. -/

/-- The text of a value is read, whatever follows that cannot go on with it. -/
def Value.ReadsBack (v : Value) : Prop :=
  ∀ i fuel rest, 2 * (v.pretty i).length ≤ fuel → Delimits rest →
    value fuel (v.pretty i ++ rest) = some (v, rest)

theorem items_pretty {v : Value} {vs : List Value} (h : ∀ u ∈ v :: vs, u.ReadsBack)
    {i j fuel : Nat} {rest : List Char}
    (hf : 2 * ((v.pretty i).length + (prettyItems i vs).length) < fuel) :
    items fuel (v.pretty i ++ (prettyItems i vs ++ (newline j ++ ']' :: rest)))
      = some (v :: vs, rest) := by
  have hv : v.ReadsBack := h v List.mem_cons_self
  obtain ⟨fuel, rfl⟩ := Nat.exists_eq_succ_of_ne_zero (Nat.ne_zero_of_lt hf)
  induction vs generalizing v fuel with
  | nil => exact items_last (hv i fuel _ (by omega) (delimits_newline _ _))
  | cons u vs ih =>
      simp only [prettyItems, List.cons_append, List.append_assoc, List.length_cons,
        List.length_append] at hf ⊢
      obtain ⟨fuel, rfl⟩ := Nat.exists_eq_succ_of_ne_zero (n := fuel) (by omega)
      have more := ih (fun w hw => h w (.tail _ hw)) (h u (.tail _ List.mem_cons_self)) fuel
        (by omega)
      rw [← items_newline _ i] at more
      exact items_more (hv i _ _ (by omega) (delimits_comma _)) more

theorem fields_pretty {k : String} {v : Value} {fs : List (String × Value)}
    (h : ∀ f ∈ (k, v) :: fs, f.2.ReadsBack) {i j fuel : Nat} {rest : List Char}
    (hf : 2 * ((v.pretty i).length + (prettyFields i fs).length) < fuel) :
    fields fuel (quote k ++ ':' :: ' ' :: (v.pretty i
        ++ (prettyFields i fs ++ (newline j ++ '\x7d' :: rest))))
      = some (some ((k, v) :: fs), rest) := by
  have hv : v.ReadsBack := h (k, v) List.mem_cons_self
  obtain ⟨fuel, rfl⟩ := Nat.exists_eq_succ_of_ne_zero (Nat.ne_zero_of_lt hf)
  induction fs generalizing k v fuel with
  | nil =>
      refine fields_last (j := j) ?_
      rw [value_blank]
      exact hv i fuel _ (by omega) (delimits_newline _ _)
  | cons f fs ih =>
      obtain ⟨l, u⟩ := f
      simp only [prettyFields, List.cons_append, List.nil_append, List.append_assoc,
        List.length_cons, List.length_append] at hf ⊢
      obtain ⟨fuel, rfl⟩ := Nat.exists_eq_succ_of_ne_zero (n := fuel) (by omega)
      have more := ih (fun w hw => h w (.tail _ hw)) (h (l, u) (.tail _ List.mem_cons_self)) fuel
        (by omega)
      rw [← fields_newline _ i] at more
      refine fields_more ?_ more
      rw [value_blank]
      exact hv i _ _ (by omega) (delimits_comma _)

theorem Value.Plain.readsBack_of_succ {v : Value} (h : v.Plain)
    (read : ∀ i fuel rest, 2 * (v.pretty i).length ≤ fuel + 1 → Delimits rest →
      value (fuel + 1) (v.pretty i ++ rest) = some (v, rest)) : v.ReadsBack := by
  intro i fuel rest hf hr
  obtain ⟨c, cs, hcs, -⟩ := h.opens i
  have pos : fuel ≠ 0 := by
    rw [hcs, List.length_cons] at hf
    omega
  obtain ⟨fuel, rfl⟩ := Nat.exists_eq_succ_of_ne_zero pos
  exact read i fuel rest hf hr

theorem Value.Plain.readsBack {v : Value} (h : v.Plain) : v.ReadsBack := by
  induction h with
  | null => exact Plain.null.readsBack_of_succ fun _ _ _ _ _ => rfl
  | bool b =>
      refine (Plain.bool b).readsBack_of_succ fun _ _ _ _ _ => ?_
      cases b <;> rfl
  | integer h =>
      exact (Plain.integer h).readsBack_of_succ fun _ fuel _ _ hr => value_integer h fuel hr
  | string s =>
      exact (Plain.string s).readsBack_of_succ fun _ fuel rest _ _ => value_quote s fuel rest
  | @array vs h ih =>
      refine (Plain.array h).readsBack_of_succ fun i fuel rest hf _ => ?_
      cases vs with
      | nil => rfl
      | cons v vs =>
          simp only [pretty, List.cons_append, List.append_assoc, List.length_cons,
            List.length_append] at hf ⊢
          rw [← List.cons_append, value_array (((h v List.mem_cons_self).opens _).append _),
            items_pretty ih (by omega)]
          rfl
  | @object fs h ih =>
      refine (Plain.object h).readsBack_of_succ fun i fuel rest hf _ => ?_
      cases fs with
      | nil => rfl
      | cons f fs =>
          obtain ⟨k, v⟩ := f
          simp only [pretty, List.cons_append, List.nil_append, List.append_assoc, List.length_cons,
            List.length_append] at hf ⊢
          rw [← List.cons_append, value_object, fields_pretty ih (by omega)]
          rfl

theorem parse_text {v : Value} (h : v.Plain) : parse v.text = some v := by
  have read := h.readsBack 0 (2 * (v.pretty 0).length + 2) [] (by omega) delimits_nil
  have chars : v.text.toList = v.pretty 0 := String.toList_ofList
  rw [List.append_nil] at read
  rw [parse, chars]
  simp only [read, Option.bind_eq_bind, Option.bind_some]
  rfl

end WasmLowering.Json
