/-
What a pattern matches.

A pattern says which texts may be left behind a match (`Pattern.Leaves`): a sequence composes two
such relations, a repetition is the closure of one.  Nothing is said there of an order or of turns
that take nothing.  The search lists just these texts (`Pattern.mem_after_iff`, by induction on the
pattern).  For a repetition this rests on two facts: what is left is an end of the text, so a turn
that leaves no less leaves the same, and every other turn leaves less, so there are no more turns
than characters (`mem_afterTurns_iff`).
-/
import AttributeGraph.Text.Pattern
import Mathlib.Data.List.Infix
import Mathlib.Logic.Relation

namespace AttributeGraph.Text.Pattern

variable {total n : Nat} {p : Pattern} {text : String} {cs rest : List Char}
  {items : List ClassItem}

/-! ### Matches -/

/-- A match at the beginning of `cs`, which ends a text of `total` characters, leaves `rest`. -/
def Leaves (total : Nat) : Pattern → List Char → List Char → Prop
  | start, cs, rest => cs.length = total ∧ rest = cs
  | stop, cs, rest => cs = [] ∧ rest = cs
  | noneOf items, cs, rest => ∃ c, cs = c :: rest ∧ ∀ i ∈ items, i.has c = false
  | seq p q, cs, rest => ∃ mid, p.Leaves total cs mid ∧ q.Leaves total mid rest
  | many p, cs, rest => Relation.ReflTransGen (p.Leaves total) cs rest
  | maybe p, cs, rest => rest = cs ∨ p.Leaves total cs rest

/-- What is left is an end of the text. -/
theorem Leaves.suffix (hrest : p.Leaves total cs rest) : rest <:+ cs := by
  induction p generalizing cs rest with
  | start => exact hrest.2 ▸ List.suffix_rfl
  | stop => exact hrest.2 ▸ List.suffix_rfl
  | noneOf items =>
    obtain ⟨c, rfl, -⟩ := hrest
    exact List.suffix_cons c rest
  | seq p q ihp ihq =>
    obtain ⟨mid, hmid, hrest⟩ := hrest
    exact (ihq hrest).trans (ihp hmid)
  | many p ih =>
    induction hrest with
    | refl => exact List.suffix_rfl
    | tail _ hturn ihrest => exact (ih hturn).trans ihrest
  | maybe p ih =>
    rcases hrest with rfl | hrest
    · exact List.suffix_rfl
    · exact ih hrest

/-! ### The search -/

/-- **As many turns as there are characters are enough.** -/
theorem mem_afterTurns_iff {turn : List Char → List (List Char)}
    {R : List Char → List Char → Prop} (hturn : ∀ cs rest, rest ∈ turn cs ↔ R cs rest)
    (hsuffix : ∀ cs rest, R cs rest → rest <:+ cs) (hn : cs.length ≤ n) :
    rest ∈ afterTurns turn n cs ↔ Relation.ReflTransGen R cs rest := by
  constructor
  · intro hrest
    clear hn
    induction n generalizing cs with
    | zero => rw [List.mem_singleton.1 hrest]
    | succ n ih =>
      rcases List.mem_append.1 hrest with hrest | hrest
      · obtain ⟨mid, hmid, hrest⟩ := List.mem_flatMap.1 hrest
        exact (ih hrest).head ((hturn cs mid).1 (List.mem_filter.1 hmid).1)
      · rw [List.mem_singleton.1 hrest]
  · intro hrest
    induction hrest using Relation.ReflTransGen.head_induction_on generalizing n with
    | refl =>
      cases n with
      | zero => exact List.mem_singleton_self rest
      | succ n => exact List.mem_append_right _ (List.mem_singleton_self rest)
    | @head cs mid hmid _ ih =>
      have hle := (hsuffix cs mid hmid).length_le
      by_cases hlt : mid.length < cs.length
      · obtain ⟨n, rfl⟩ := Nat.exists_eq_add_one.2 (Nat.lt_of_lt_of_le (Nat.zero_lt_of_lt hlt) hn)
        refine List.mem_append_left _ (List.mem_flatMap.2 ⟨mid, ?_, ih (by omega)⟩)
        exact List.mem_filter.2 ⟨(hturn cs mid).2 hmid, decide_eq_true hlt⟩
      · -- a turn that takes nothing may be left out
        obtain rfl := (hsuffix cs mid hmid).eq_of_length (by omega)
        exact ih hn

/-- **The search lists just what may be left behind a match.** -/
theorem mem_after_iff : rest ∈ p.after total cs ↔ p.Leaves total cs rest := by
  induction p generalizing cs rest with
  | start =>
    rw [after, Leaves]
    split <;> simp [*]
  | stop =>
    rw [after, Leaves]
    split <;> simp [*]
  | noneOf items =>
    cases cs with
    | nil => simp [after, Leaves]
    | cons c tail =>
      rw [after, Leaves]
      cases hc : items.any (·.has c) with
      | true =>
        obtain ⟨i, hi, hic⟩ := List.any_eq_true.1 hc
        refine iff_of_false (by simp) ?_
        rintro ⟨d, hd, hnone⟩
        obtain ⟨rfl, -⟩ := List.cons.inj hd
        rw [hnone i hi] at hic
        cases hic
      | false =>
        have hnone := List.any_eq_false.1 hc
        simp only [Bool.false_eq_true, if_false, List.mem_singleton]
        constructor
        · rintro rfl
          exact ⟨c, rfl, fun i hi => Bool.eq_false_iff.2 (hnone i hi)⟩
        · rintro ⟨d, hd, -⟩
          exact (List.cons.inj hd).2.symm
  | seq p q ihp ihq => simp only [after, Leaves, List.mem_flatMap, ihp, ihq]
  | many p ih =>
    exact mem_afterTurns_iff (fun _ _ => ih) (fun _ _ => Leaves.suffix) (Nat.le_refl cs.length)
  | maybe p ih =>
    rw [after, Leaves, List.mem_append, List.mem_filter, List.mem_singleton, ih, or_comm]
    refine or_congr_right' fun hne => and_iff_left_of_imp fun hrest => decide_eq_true ?_
    -- what is left and is not all that there was is shorter
    refine Nat.lt_of_le_of_ne hrest.suffix.length_le fun hlength => hne ?_
    exact hrest.suffix.eq_of_length hlength

theorem found_iff :
    p.found total cs = true ↔ ∃ here, here <:+ cs ∧ ∃ rest, p.Leaves total here rest := by
  have hafter : ∀ here, p.after total here ≠ [] ↔ ∃ rest, p.Leaves total here rest := fun here => by
    rw [ne_eq, List.eq_nil_iff_forall_not_mem, not_forall_not]
    exact exists_congr fun _ => mem_after_iff
  induction cs with
  | nil => simp [found, hafter]
  | cons c tail ih =>
    simp only [found, Bool.or_eq_true, decide_eq_true_iff, hafter, ih, List.suffix_cons_iff,
      or_and_right, exists_or, exists_eq_left]

/-- **A text is searched for a match from each of its places on.** -/
theorem test_iff : p.test text = true ↔
    ∃ here, here <:+ text.toList ∧ ∃ rest, p.Leaves text.toList.length here rest :=
  found_iff

/-! ### Matches of single patterns -/

/-- A pattern that begins where the text does is tried at that place only. -/
theorem test_seq_start_iff :
    (seq start p).test text = true ↔ ∃ rest, p.Leaves text.toList.length text.toList rest := by
  rw [test_iff]
  constructor
  · rintro ⟨here, hsuffix, rest, _, ⟨hlength, rfl⟩, hrest⟩
    exact ⟨rest, hsuffix.eq_of_length hlength ▸ hrest⟩
  · rintro ⟨rest, hrest⟩
    exact ⟨text.toList, List.suffix_rfl, rest, text.toList, ⟨rfl, rfl⟩, hrest⟩

/-- Any number of characters outside a class may be taken. -/
theorem leaves_many_noneOf_iff : (many (noneOf items)).Leaves total cs rest ↔
    ∃ front, cs = front ++ rest ∧ ∀ c ∈ front, ∀ i ∈ items, i.has c = false := by
  constructor
  · intro hrest
    induction hrest using Relation.ReflTransGen.head_induction_on with
    | refl => exact ⟨[], rfl, fun c hc => absurd hc List.not_mem_nil⟩
    | head hturn _ ih =>
      obtain ⟨c, rfl, hc⟩ := hturn
      obtain ⟨front, rfl, hfront⟩ := ih
      exact ⟨c :: front, rfl, List.forall_mem_cons.2 ⟨hc, hfront⟩⟩
  · rintro ⟨front, rfl, hfront⟩
    induction front with
    | nil => exact .refl
    | cons c front ih =>
      obtain ⟨hc, hfront⟩ := List.forall_mem_cons.1 hfront
      exact .head ⟨c, rfl, hc⟩ (ih hfront)

end AttributeGraph.Text.Pattern
