/-
Reading JSON text undoes writing it.

Every character is written so that the reader takes it back from the front of
what follows (`readQuoted_escapeChar`), and a whole value is read back from the
front of any text (`readValue_print`).  The text of a value is longer than the
value is deep, so the bound that the reader takes from it is enough.

Not every value has a text of its own: `undefined` has none, and properties come
back in key order.  `Plain` singles out the values that do, numbers left aside.
-/
import AttributeGraph.Json.Parser
import AttributeGraph.Json.Printer
import Mathlib.Tactic.SplitIfs

namespace AttributeGraph

/-- Null, truth values and texts, and arrays and objects made of them; the properties of an object
stand in key order. -/
inductive Value.Plain : Value → Prop
  | null : Plain .null
  | bool (b : Bool) : Plain (.bool b)
  | text (s : String) : Plain (.text s)
  | array {elements : List Value} (hall : ∀ v ∈ elements, Plain v) : Plain (.array elements)
  | object {fields : List (String × Value)} (horder : Value.record fields = .object fields)
      (hall : ∀ f ∈ fields, Plain f.2) : Plain (.object fields)

namespace Json

/-! ### Quoted texts -/

theorem hexValue?_hexDigit : ∀ n, n < 16 → hexValue? (hexDigit n) = some n := by decide

theorem readUnit?_hexDigits {n : Nat} (hn : n < 32) (rest : List Char) :
    readUnit? ('0' :: '0' :: hexDigit (n / 16) :: hexDigit (n % 16) :: rest) = some (n, rest) := by
  have hhigh := hexValue?_hexDigit (n / 16) (by omega)
  have hlow := hexValue?_hexDigit (n % 16) (by omega)
  have hzero : hexValue? '0' = some 0 := by decide
  simp only [readUnit?, hhigh, hlow, hzero, Option.bind_eq_bind, Option.bind_some, Option.pure_def]
  rw [show ((0 * 16 + 0) * 16 + n / 16) * 16 + n % 16 = n by omega]

/-- A character that is written is read. -/
theorem readQuoted_escapeChar (fuel : Nat) (c : Char) (rest : List Char) :
    readQuoted (fuel + 1) (escapeChar c ++ rest) =
      (readQuoted fuel rest).map fun (cs, r) => (c :: cs, r) := by
  have hofNat : Char.ofNat c.toNat = c := Char.ofNat_toNat c
  unfold escapeChar
  by_cases hquote : c = '"'
  · rw [if_pos hquote, hquote]
    rfl
  rw [if_neg hquote]
  by_cases hslash : c = '\\'
  · rw [if_pos hslash, hslash]
    rfl
  rw [if_neg hslash]
  -- the five controls with a short escape
  by_cases h8 : c.toNat = 8
  · rw [if_pos h8, ← hofNat, h8]
    rfl
  by_cases h9 : c.toNat = 9
  · rw [if_neg h8, if_pos h9, ← hofNat, h9]
    rfl
  by_cases h10 : c.toNat = 10
  · rw [if_neg h8, if_neg h9, if_pos h10, ← hofNat, h10]
    rfl
  by_cases h12 : c.toNat = 12
  · rw [if_neg h8, if_neg h9, if_neg h10, if_pos h12, ← hofNat, h12]
    rfl
  by_cases h13 : c.toNat = 13
  · rw [if_neg h8, if_neg h9, if_neg h10, if_neg h12, if_pos h13, ← hofNat, h13]
    rfl
  rw [if_neg h8, if_neg h9, if_neg h10, if_neg h12, if_neg h13]
  by_cases hcontrol : c.toNat < 32
  · rw [if_pos hcontrol]
    simp only [List.cons_append, List.nil_append, readQuoted, readUnit?_hexDigits hcontrol]
    rw [if_neg (by omega), hofNat]
    rw [if_neg (by omega)]
  · rw [if_neg hcontrol]
    simp only [List.cons_append, List.nil_append]
    rw [readQuoted, if_neg (not_or.mpr ⟨hcontrol, hslash⟩)]
    · exact hquote
    · intro rest' h
      exact absurd h hslash
    · intro e rest' h
      exact absurd h hslash

theorem readQuoted_escape (rest : List Char) : ∀ (cs : List Char) (fuel : Nat), cs.length < fuel →
    readQuoted fuel (escape cs ++ '"' :: rest) = some (cs, rest) := by
  intro cs
  induction cs with
  | nil =>
    intro fuel hfuel
    obtain ⟨fuel, rfl⟩ := Nat.exists_eq_succ_of_ne_zero (Nat.ne_of_gt hfuel)
    rfl
  | cons c cs ih =>
    intro fuel hfuel
    obtain ⟨fuel, rfl⟩ := Nat.exists_eq_succ_of_ne_zero (Nat.ne_of_gt (Nat.zero_lt_of_lt hfuel))
    have hcs := ih fuel (by simpa using hfuel)
    rw [escape, List.flatMap_cons, List.append_assoc, Nat.succ_eq_add_one, readQuoted_escapeChar]
    rw [escape] at hcs
    rw [hcs]
    rfl

theorem escapeChar_ne_nil (c : Char) : escapeChar c ≠ [] := by
  unfold escapeChar
  dsimp only
  split_ifs <;> exact List.cons_ne_nil _ _

theorem length_le_escape (cs : List Char) : cs.length ≤ (escape cs).length := by
  induction cs with
  | nil => exact Nat.le_refl _
  | cons c cs ih =>
    have hc := List.length_pos_iff.2 (escapeChar_ne_nil c)
    unfold escape at ih ⊢
    rw [List.flatMap_cons, List.length_append, List.length_cons]
    omega

/-- A text in quotes is read behind its opening quote, with the bound that the reader takes. -/
theorem readQuoted_quoted (s : String) (rest : List Char) :
    readQuoted ((escape s.toList ++ '"' :: rest).length + 1) (escape s.toList ++ '"' :: rest) =
      some (s.toList, rest) := by
  refine readQuoted_escape rest s.toList _ ?_
  have hle := length_le_escape s.toList
  rw [List.length_append]
  omega

theorem quoted_append (cs rest : List Char) :
    quoted cs ++ rest = '"' :: (escape cs ++ '"' :: rest) := by
  simp [quoted]

/-! ### What is between the tokens -/

/-- The text of a value neither starts with a blank nor closes a bracket. -/
theorem print_head {v : Value} (hv : v.Plain) :
    ∃ c cs, print v = c :: cs ∧ isSpace c = false ∧ c ≠ ']' := by
  cases hv with
  | null => exact ⟨_, _, rfl, by decide, by decide⟩
  | bool b => cases b <;> exact ⟨_, _, rfl, by decide, by decide⟩
  | text s => exact ⟨_, _, rfl, by decide, by decide⟩
  | array => exact ⟨_, _, rfl, by decide, by decide⟩
  | object => exact ⟨_, _, rfl, by decide, by decide⟩

theorem skipSpace_cons {c : Char} (hc : isSpace c = false) (cs : List Char) :
    skipSpace (c :: cs) = c :: cs := by
  simp [skipSpace, hc]

theorem printFields_first {f : String × Value} (hf : f.2.Plain) (rest : List (String × Value)) :
    printFields true (f :: rest) =
      quoted f.1.toList ++ ':' :: (print f.2 ++ printFields false rest) := by
  obtain ⟨k, v⟩ := f
  cases hf <;> simp [printFields]

theorem printFields_next {f : String × Value} (hf : f.2.Plain) (rest : List (String × Value)) :
    printFields false (f :: rest) = ',' :: printFields true (f :: rest) := by
  obtain ⟨k, v⟩ := f
  cases hf <;> simp [printFields]

/-! ### Values -/

/-- A value is read from the front of any text that starts with its own. -/
def ReadsBack (v : Value) : Prop :=
  ∀ fuel rest, (print v).length < fuel → readValue fuel (print v ++ rest) = some (v, rest)

/-- A reader that has no steps left is given no value. -/
theorem readsBack_of_succ {v : Value} (hv : ∀ fuel rest, (print v).length ≤ fuel →
    readValue (fuel + 1) (print v ++ rest) = some (v, rest)) : ReadsBack v := by
  intro fuel rest hfuel
  cases fuel with
  | zero => exact absurd hfuel (Nat.not_lt_zero _)
  | succ fuel => exact hv fuel rest (Nat.le_of_lt_succ hfuel)

theorem readElements_print : ∀ (vs : List Value), vs ≠ [] →
    (∀ v ∈ vs, v.Plain ∧ ReadsBack v) → ∀ fuel rest, (printElements vs).length < fuel →
      readElements fuel (printElements vs ++ rest) = some (vs, rest) := by
  intro vs
  induction vs with
  | nil => intro hne; exact absurd rfl hne
  | cons v vs ih =>
    intro _ hall fuel rest hfuel
    obtain ⟨fuel, rfl⟩ := Nat.exists_eq_succ_of_ne_zero (Nat.ne_of_gt (Nat.zero_lt_of_lt hfuel))
    obtain ⟨-, hv⟩ := hall v List.mem_cons_self
    cases vs with
    | nil =>
      rw [printElements, List.length_append, List.length_singleton] at hfuel
      rw [printElements, List.append_assoc, readElements, hv fuel _ (by omega)]
      rfl
    | cons w vs =>
      have hcons : printElements (v :: w :: vs) = print v ++ ',' :: printElements (w :: vs) := rfl
      rw [hcons, List.length_append, List.length_cons] at hfuel
      have hrest := ih (List.cons_ne_nil w vs) (fun x hx => hall x (List.mem_cons_of_mem v hx)) fuel
        rest (by omega)
      rw [hcons, List.append_assoc, readElements, hv fuel _ (by omega)]
      simp only [List.cons_append, skipSpace_cons (show isSpace ',' = false by decide), hrest]
      rfl

theorem readFields_print : ∀ (fs : List (String × Value)), fs ≠ [] →
    (∀ f ∈ fs, f.2.Plain ∧ ReadsBack f.2) → ∀ fuel rest, (printFields true fs).length < fuel →
      readFields fuel (printFields true fs ++ rest) = some (fs, rest) := by
  intro fs
  induction fs with
  | nil => intro hne; exact absurd rfl hne
  | cons f fs ih =>
    intro _ hall fuel rest hfuel
    obtain ⟨fuel, rfl⟩ := Nat.exists_eq_succ_of_ne_zero (Nat.ne_of_gt (Nat.zero_lt_of_lt hfuel))
    obtain ⟨hplain, hf⟩ := hall f List.mem_cons_self
    rw [printFields_first hplain, List.length_append, List.length_cons, List.length_append] at hfuel
    have hvalue : ∀ tail, readValue fuel (print f.2 ++ tail) = some (f.2, tail) :=
      fun tail => hf fuel tail (by omega)
    rw [printFields_first hplain, List.append_assoc, quoted_append, readFields]
    simp only [skipSpace_cons (show isSpace '"' = false by decide), readQuoted_quoted,
      List.cons_append, skipSpace_cons (show isSpace ':' = false by decide), List.append_assoc,
      hvalue, String.ofList_toList]
    cases fs with
    | nil => rfl
    | cons g fs =>
      have hnext := printFields_next (hall g (by simp)).1 fs
      rw [hnext, List.length_cons] at hfuel
      have hrest := ih (List.cons_ne_nil g fs) (fun x hx => hall x (List.mem_cons_of_mem f hx)) fuel
        rest (by omega)
      simp only [hnext, List.cons_append, skipSpace_cons (show isSpace ',' = false by decide),
        hrest]
      rfl

theorem readsBack_text (s : String) : ReadsBack (.text s) := by
  refine readsBack_of_succ fun fuel rest _ => ?_
  rw [print, quoted_append, readValue]
  simp only [skipSpace_cons (show isSpace '"' = false by decide), readQuoted_quoted,
    Option.map_some, String.ofList_toList]

/-- An array is read back if its elements are. -/
theorem readsBack_array {vs : List Value} (hall : ∀ v ∈ vs, v.Plain ∧ ReadsBack v) :
    ReadsBack (.array vs) := by
  refine readsBack_of_succ fun fuel rest hfuel => ?_
  cases vs with
  | nil => rfl
  | cons v vs =>
    rw [print, List.length_cons] at hfuel
    have hread := readElements_print (v :: vs) (List.cons_ne_nil v vs) hall fuel rest (by omega)
    obtain ⟨c, cs, hprint, hspace, hclose⟩ := print_head (hall v List.mem_cons_self).1
    obtain ⟨tail, htail⟩ : ∃ tail, printElements (v :: vs) ++ rest = c :: tail := by
      cases vs <;> simp [printElements, hprint]
    rw [htail] at hread
    rw [print, List.cons_append, htail, readValue]
    simp only [skipSpace_cons (show isSpace '[' = false by decide), skipSpace_cons hspace]
    split
    · rename_i heq
      exact absurd (List.cons.inj heq).1 hclose
    · rw [hread]
      rfl

/-- An object is read back if its properties are and stand in key order. -/
theorem readsBack_object {fields : List (String × Value)}
    (horder : Value.record fields = .object fields)
    (hall : ∀ f ∈ fields, f.2.Plain ∧ ReadsBack f.2) : ReadsBack (.object fields) := by
  refine readsBack_of_succ fun fuel rest hfuel => ?_
  cases fields with
  | nil => rfl
  | cons f fs =>
    rw [print, List.length_cons] at hfuel
    have hread := readFields_print (f :: fs) (List.cons_ne_nil f fs) hall fuel rest (by omega)
    rw [print, List.cons_append, readValue]
    rw [printFields_first (hall f List.mem_cons_self).1, List.append_assoc, quoted_append]
      at hread ⊢
    simp only [skipSpace_cons (show isSpace '\x7b' = false by decide),
      skipSpace_cons (show isSpace '"' = false by decide)]
    show (readFields fuel _).map (fun p => (Value.record p.1, p.2)) = _
    rw [hread, Option.map_some, horder]

/-- A value is read back from the front of any text that starts with its own. -/
theorem readValue_print {v : Value} (hv : v.Plain) : ReadsBack v := by
  induction hv with
  | null => exact readsBack_of_succ fun _ _ _ => rfl
  | bool b => cases b <;> exact readsBack_of_succ fun _ _ _ => rfl
  | text s => exact readsBack_text s
  | array hall ih => exact readsBack_array fun v hv => ⟨hall v hv, ih v hv⟩
  | object horder hall ih =>
    exact readsBack_object horder fun f hf => ⟨hall f hf, ih f hf⟩

/-- **Reading the text of a value gives the value.** -/
theorem parse?_toText {v : Value} (hv : v.Plain) : parse? (toText v) = some v := by
  have hread := readValue_print hv ((print v).length + 1) [] (Nat.lt_succ_self _)
  rw [List.append_nil] at hread
  simp only [parse?, toText, String.toList_ofList, hread]
  rfl

end Json

end AttributeGraph
