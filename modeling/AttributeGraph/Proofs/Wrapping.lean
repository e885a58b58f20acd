/-
What wrapping keeps of a text, and how full its lines are.

The words of a text are its parts between blanks (`words`).  They are read off the text itself
and not off its pieces, so that `flatMap_words_pieces` is a statement about cutting: the pieces
hold the same words, and each of them is a word or empty.

`Fills` says what lines a text is to be given, for any notion of a line that is too long.  Filling
has one loop, and every part of `Fills` is an invariant of it: the words of the current line and of
the pieces that are left stay the same (`fill_words`), a current line that is too long is a word
(`fill_single`), and a line that follows another one begins with the word that did not fit there
(`fill_head`, `fill_isChain`).

The width of a view is a floating-point number.  Which lines are too long for it is said by its
exact value (`ErrorView.Overruns`); on a terminal without bounds no line is, and then the text
stays on one line (`length_wrap_le_one`).
-/
import AttributeGraph.Error.View
import Mathlib.Algebra.Order.Field.Rat
import Mathlib.Algebra.Order.GroupWithZero.Basic
import Mathlib.Data.List.Chain

namespace AttributeGraph

namespace Text

variable {cs current line text word : List Char} {rest : List (List Char)} {width : Nat}

/-! ### Words -/

/-- The words of a text: its parts between blanks that are not empty. -/
def words (cs : List Char) : List (List Char) := (cs.splitOnP isBlank).filter (· ≠ [])

/-- A text without blanks. -/
def Solid (cs : List Char) : Prop := ∀ c ∈ cs, isBlank c = false

theorem words_append_blank {c : Char} (hc : isBlank c = true) (a b : List Char) :
    words (a ++ c :: b) = words a ++ words b := by
  rw [words, List.splitOnP_append_cons a b hc, List.filter_append]
  rfl

theorem words_blank_cons {c : Char} (hc : isBlank c = true) (cs : List Char) :
    words (c :: cs) = words cs := words_append_blank hc [] cs

theorem words_of_solid (hcs : Solid cs) (hne : cs ≠ []) : words cs = [cs] := by
  rw [words, List.splitOnP_eq_singleton hcs, List.filter_singleton, decide_eq_true hne]
  rfl

theorem solid_takeWhile (cs : List Char) : Solid (cs.takeWhile (!isBlank ·)) := fun c hc => by
  simpa using List.all_eq_true.1 List.all_takeWhile c hc

/-- The words before the first blank, and those behind it. -/
theorem words_takeWhile_append (cs : List Char) :
    words (cs.takeWhile (!isBlank ·)) ++ words (cs.dropWhile (!isBlank ·)) = words cs := by
  conv_rhs => rw [← List.takeWhile_append_dropWhile (p := (!isBlank ·)) (l := cs)]
  cases hdrop : cs.dropWhile (!isBlank ·) with
  | nil =>
    rw [List.append_nil]
    exact List.append_nil _
  | cons c tail =>
    have hc : isBlank c = true := by
      simpa [hdrop] using List.head?_dropWhile_not (!isBlank ·) cs
    rw [words_append_blank hc, words_blank_cons hc]

/-! ### Pieces -/

/-- The first piece is what stands before the first blank; the other ones are without blanks too,
and hold the words that are left. -/
theorem exists_pieces (cs : List Char) : ∃ ps, pieces cs = cs.takeWhile (!isBlank ·) :: ps ∧
    (∀ p ∈ ps, Solid p) ∧ ps.flatMap words = words (cs.dropWhile (!isBlank ·)) := by
  fun_induction pieces cs with
  | case1 => exact ⟨[], rfl, by simp, rfl⟩
  | case2 c hc d rest hd ih =>
    -- the first of two blanks
    obtain ⟨ps, hpieces, hsolid, hwords⟩ := ih
    refine ⟨ps, ?_, hsolid, ?_⟩
    · simpa [hc, hd] using hpieces
    · simpa [hc, hd, words_blank_cons] using hwords
  | case3 c hc d rest hd ih =>
    -- the last blank before a piece
    obtain ⟨ps, hpieces, hsolid, hwords⟩ := ih
    refine ⟨pieces (d :: rest), ?_, ?_, ?_⟩
    · rw [List.takeWhile_cons, hc, if_neg (by decide)]
    · rw [hpieces]
      exact List.forall_mem_cons.2 ⟨solid_takeWhile _, hsolid⟩
    · rw [hpieces, List.flatMap_cons, hwords, words_takeWhile_append, List.dropWhile_cons, hc,
        if_neg (by decide), words_blank_cons hc]
  | case4 c hc =>
    refine ⟨[[]], ?_, ?_, ?_⟩
    · simp [hc]
    · simp [Solid]
    · simp [hc, words_blank_cons]
  | case5 c rest hc hrest ih =>
    obtain ⟨ps, hpieces, -⟩ := ih
    exact nomatch hrest.symm.trans hpieces
  | case6 c rest hc p ps hrest ih =>
    obtain ⟨ps, hpieces, hsolid, hwords⟩ := ih
    obtain ⟨rfl, rfl⟩ := List.cons.inj (hrest.symm.trans hpieces)
    refine ⟨ps, ?_, hsolid, ?_⟩
    · simp [hc]
    · simpa [hc] using hwords

theorem flatMap_words_pieces (cs : List Char) : (pieces cs).flatMap words = words cs := by
  obtain ⟨ps, hpieces, -, hwords⟩ := exists_pieces cs
  rw [hpieces, List.flatMap_cons, hwords, words_takeWhile_append]

theorem solid_of_mem_pieces {p : List Char} (hp : p ∈ pieces cs) : Solid p := by
  obtain ⟨ps, hpieces, hsolid, -⟩ := exists_pieces cs
  rw [hpieces] at hp
  exact List.forall_mem_cons.2 ⟨solid_takeWhile cs, hsolid⟩ p hp

/-! ### Lines -/

theorem words_extendLine (current word : List Char) :
    words (extendLine current word) = words current ++ words word := by
  rw [extendLine]
  split
  · next hcurrent =>
    subst hcurrent
    rfl
  · exact words_append_blank rfl current word

theorem fill_words (width : Nat) (current : List Char) (rest : List (List Char)) :
    (fill width current rest).flatMap words = words current ++ rest.flatMap words := by
  fun_induction fill width current rest with
  | case1 => rfl
  | case2 current hcurrent => rfl
  | case3 current word rest hbreak ih => rw [List.flatMap_cons, ih, List.flatMap_cons]
  | case4 current word rest hbreak ih =>
    rw [ih, words_extendLine, List.flatMap_cons, List.append_assoc]

theorem fill_ne_nil : line ∈ fill width current rest → line ≠ [] := by
  fun_induction fill width current rest with
  | case1 => exact (nomatch ·)
  | case2 current hcurrent =>
    rintro hline rfl
    exact hcurrent (List.mem_singleton.1 hline).symm
  | case3 current word rest hbreak ih =>
    intro hline
    rcases List.mem_cons.1 hline with rfl | hline
    · exact hbreak.1
    · exact ih hline
  | case4 current word rest hbreak ih => exact ih

theorem words_of_overrun (hword : Solid word) (hover : width < unitLength word) :
    words word = [word] := by
  refine words_of_solid hword ?_
  rintro rfl
  exact absurd hover (Nat.not_lt_zero width)

/-- A line is wider than it may be only as a word. -/
theorem fill_single (hrest : ∀ p ∈ rest, Solid p)
    (hcurrent : width < unitLength current → words current = [current]) :
    ∀ line ∈ fill width current rest, width < unitLength line → words line = [line] := by
  fun_induction fill width current rest with
  | case1 => exact fun _ hline => nomatch hline
  | case2 current hne => exact List.forall_mem_singleton.2 hcurrent
  | case3 current word rest hbreak ih =>
    obtain ⟨hword, hrest⟩ := List.forall_mem_cons.1 hrest
    exact List.forall_mem_cons.2 ⟨hcurrent, ih hrest (words_of_overrun hword)⟩
  | case4 current word rest hbreak ih =>
    obtain ⟨hword, hrest⟩ := List.forall_mem_cons.1 hrest
    refine ih hrest fun hover => ?_
    -- what is put behind something has room there
    have hempty : current = [] := by
      by_contra hne
      exact hbreak ⟨hne, hover⟩
    subst hempty
    exact words_of_overrun hword hover

/-- The first line goes on from what it holds already, and has a word. -/
theorem fill_head (hrest : ∀ p ∈ rest, Solid p) (hcurrent : current ≠ [] → words current ≠ []) :
    line ∈ (fill width current rest).head? → words line ≠ [] ∧ words current <+: words line := by
  fun_induction fill width current rest with
  | case1 => exact (nomatch ·)
  | case2 current hne =>
    intro hline
    obtain rfl := Option.some.inj hline
    exact ⟨hcurrent hne, List.prefix_rfl⟩
  | case3 current word rest hbreak ih =>
    intro hline
    obtain rfl := Option.some.inj hline
    exact ⟨hcurrent hbreak.1, List.prefix_rfl⟩
  | case4 current word rest hbreak ih =>
    obtain ⟨hword, hrest⟩ := List.forall_mem_cons.1 hrest
    rw [words_extendLine] at ih
    intro hline
    have hextended : extendLine current word ≠ [] → words current ++ words word ≠ [] := by
      intro hne hnil
      obtain ⟨hc, hw⟩ := List.append_eq_nil_iff.1 hnil
      obtain rfl : current = [] := by_contra fun h => hcurrent h hc
      exact List.cons_ne_nil _ _ ((words_of_solid hword hne).symm.trans hw)
    obtain ⟨hne, hprefix⟩ := ih hrest hextended hline
    exact ⟨hne, (List.prefix_append _ _).trans hprefix⟩

/-- A line that is begun with a word has it as its first one. -/
theorem exists_head_words_of_solid (hword : Solid word) (hrest : ∀ p ∈ rest, Solid p)
    (hline : line ∈ (fill width word rest).head?) :
    ∃ first, (words line).head? = some first ∧ word <+: first := by
  by_cases hempty : word = []
  · subst hempty
    obtain ⟨hne, -⟩ := fill_head hrest (absurd rfl) hline
    exact ⟨_, List.head?_eq_some_head hne, List.nil_prefix⟩
  · have hwords := words_of_solid hword hempty
    obtain ⟨-, tail, htail⟩ := fill_head hrest (fun _ => by simp [hwords]) hline
    exact ⟨word, by rw [← htail, hwords]; rfl, List.prefix_rfl⟩

theorem fill_isChain (hrest : ∀ p ∈ rest, Solid p) :
    (fill width current rest).IsChain fun line next => ∃ word, (words next).head? = some word ∧
      width < unitLength (line ++ ' ' :: word) := by
  fun_induction fill width current rest with
  | case1 => exact .nil
  | case2 => exact .singleton _
  | case3 current word rest hbreak ih =>
    obtain ⟨hword, hrest⟩ := List.forall_mem_cons.1 hrest
    refine List.isChain_cons.2 ⟨fun next hnext => ?_, ih hrest⟩
    obtain ⟨first, hfirst, tail, rfl⟩ := exists_head_words_of_solid hword hrest hnext
    refine ⟨_, hfirst, ?_⟩
    calc width < unitLength (current ++ ' ' :: word) := by
          simpa only [extendLine, if_neg hbreak.1] using hbreak.2
      _ ≤ unitLength (current ++ ' ' :: (word ++ tail)) := by
          rw [← List.cons_append, ← List.append_assoc, unitLength_append _ tail]
          exact Nat.le_add_right _ _
  | case4 current word rest hbreak ih => exact ih (List.forall_mem_cons.1 hrest).2

/-- The lines that a text is to be given, where `tooLong` says which lines are too long. -/
structure Fills (tooLong : List Char → Prop) (text : List Char) (lines : List (List Char)) :
    Prop where
  /-- No word is lost, and none changes its place. -/
  words : lines.flatMap words = words text
  ne_nil : ∀ line ∈ lines, line ≠ []
  /-- Only a line that is one word is too long. -/
  single : ∀ line ∈ lines, tooLong line → Text.words line = [line]
  /-- A line ends where the next word would make it too long. -/
  greedy : lines.IsChain fun line next => ∃ word, (Text.words next).head? = some word ∧
    tooLong (line ++ ' ' :: word)

/-- **A text is wrapped into lines that are filled for the width.** -/
theorem fills_wrap (width : Nat) (text : List Char) :
    Fills (width < unitLength ·) text (wrap width text) where
  words := by rw [wrap, fill_words, flatMap_words_pieces]; rfl
  ne_nil _ := fill_ne_nil
  single := fill_single (fun _ => solid_of_mem_pieces) (absurd · (Nat.not_lt_zero width))
  greedy := fill_isChain fun _ => solid_of_mem_pieces

-- a blank at the end of the text stays where there is room for it
example : wrap 9 " a bcd  efghijklmnop q ".toList =
    ["a bcd".toList, "efghijklmnop".toList, "q ".toList] := by decide

/-! ### Width enough for a text -/

theorem unitLength_cons (c : Char) (cs : List Char) :
    unitLength (c :: cs) = unitLength [c] + unitLength cs := unitLength_append [c] cs

theorem unitLength_singleton_pos (c : Char) : 0 < unitLength [c] := by
  rw [unitLength, units, List.flatMap_singleton, charUnits]
  split <;> exact Nat.succ_pos _

/-- The pieces are together as long as the text at most, with a blank between any two. -/
theorem sum_unitLength_pieces_le (cs : List Char) :
    ((pieces cs).map (unitLength · + 1)).sum ≤ unitLength cs + 1 := by
  fun_induction pieces cs with
  | case1 => exact Nat.le_refl _
  | case2 c hc d rest hd ih =>
    rw [unitLength_cons]
    omega
  | case3 c hc d rest hd ih =>
    have hpos := unitLength_singleton_pos c
    rw [unitLength_cons, List.map_cons, List.sum_cons]
    change 1 + _ ≤ _
    omega
  | case4 c hc =>
    have hpos := unitLength_singleton_pos c
    change 2 ≤ _
    omega
  | case5 c rest hc hrest ih =>
    rw [unitLength_cons, List.map_singleton, List.sum_singleton]
    omega
  | case6 c rest hc p ps hrest ih =>
    rw [hrest, List.map_cons, List.sum_cons] at ih
    rw [unitLength_cons, List.map_cons, List.sum_cons, unitLength_cons c p]
    omega

theorem unitLength_extendLine_le (current word : List Char) :
    unitLength (extendLine current word) ≤ unitLength current + (unitLength word + 1) := by
  rw [extendLine]
  split
  · omega
  · rw [unitLength_append, unitLength_cons]
    change _ + (1 + _) ≤ _
    omega

theorem length_fill_le_one
    (hwidth : unitLength current + (rest.map (unitLength · + 1)).sum ≤ width) :
    (fill width current rest).length ≤ 1 := by
  fun_induction fill width current rest with
  | case1 => exact Nat.zero_le 1
  | case2 => exact Nat.le_refl 1
  | case3 current word rest hbreak ih =>
    have hle := unitLength_extendLine_le current word
    rw [List.map_cons, List.sum_cons] at hwidth
    omega
  | case4 current word rest hbreak ih =>
    have hle := unitLength_extendLine_le current word
    rw [List.map_cons, List.sum_cons] at hwidth
    exact ih (by omega)

/-- A text that is not wider than the lines may be stays on one of them. -/
theorem length_wrap_le_one (hwidth : unitLength text ≤ width) : (wrap width text).length ≤ 1 := by
  obtain ⟨ps, hpieces, -⟩ := exists_pieces text
  have hle := sum_unitLength_pieces_le text
  rw [hpieces, List.map_cons, List.sum_cons] at hle
  rw [wrap, hpieces, fill, if_neg fun hbreak => hbreak.1 rfl, extendLine, if_pos rfl]
  exact length_fill_le_one (by omega)

/-- With a single line, no line is asked to have room for less. -/
theorem Fills.of_length_le_one {tooLong tooLong' : List Char → Prop} {lines : List (List Char)}
    (hfills : Fills tooLong text lines) (hlength : lines.length ≤ 1)
    (hover : ∀ line, tooLong' line → tooLong line) : Fills tooLong' text lines where
  words := hfills.words
  ne_nil := hfills.ne_nil
  single line hline h := hfills.single line hline (hover line h)
  greedy := by
    match lines, hlength with
    | [], _ => exact .nil
    | [line], _ => exact .singleton line

end Text

/-! ### The width of a view -/

/-- The size of a number. -/
def Decimal.Binary64.size (x : Binary64) : ℚ := x.significand * 2 ^ x.exponent

theorem Decimal.Binary64.wholePart_lt_iff {x : Binary64} {n : Nat} :
    x.wholePart < n ↔ x.size < n := by
  rw [wholePart, size]
  split
  · next hexp =>
    obtain ⟨e, he⟩ := Int.eq_ofNat_of_zero_le hexp
    rw [he, Int.toNat_natCast, zpow_natCast, Nat.pow_eq]
    exact_mod_cast Iff.rfl
  · next hexp =>
    obtain ⟨e, he⟩ := Int.eq_ofNat_of_zero_le (Int.neg_nonneg_of_nonpos (Int.not_le.1 hexp).le)
    rw [he, Int.toNat_natCast, Nat.pow_eq, Nat.div_lt_iff_lt_mul (Nat.two_pow_pos e),
      ← neg_neg x.exponent, he, zpow_neg, zpow_natCast, ← div_eq_mul_inv,
      div_lt_iff₀ (pow_pos two_pos e)]
    exact_mod_cast Iff.rfl

namespace ErrorView

open Text

/-- The lines that are too long for a view: compared with its width where that is positive, and
else with 80.  None is too long for a terminal without bounds. -/
def Overruns (v : ErrorView) (line : List Char) : Prop :=
  if 0 < v.terminalWidth then
    ∃ x, Decimal.Binary64.ofFloat? v.terminalWidth = some x ∧ x.size < unitLength line
  else 80 < unitLength line

/-- A view with bounds wraps to the number of columns that tells which lines are too long. -/
theorem overruns_iff {v : ErrorView}
    (hbounds : ¬ (0 < v.terminalWidth ∧ Decimal.Binary64.ofFloat? v.terminalWidth = none))
    (text line : List Char) : v.Overruns line ↔ v.widthFor text < unitLength line := by
  rw [Overruns, widthFor]
  split
  · next hpositive =>
    obtain ⟨x, hx⟩ := Option.ne_none_iff_exists'.1 fun hnone => hbounds ⟨hpositive, hnone⟩
    simp [hx, Decimal.Binary64.wholePart_lt_iff]
  · rfl

/-- **Wrapping loses nothing and fills its lines.**  This is so for any number of columns, and
for the width of any view, whatever floating-point number that is. -/
theorem wrap_filled (text : List Char) :
    (∀ width, Fills (width < unitLength ·) text (wrap width text)) ∧
      ∀ v : ErrorView, Fills v.Overruns text (wrap (v.widthFor text) text) := by
  refine ⟨fun width => fills_wrap width text, fun v => ?_⟩
  have hfills := fills_wrap (v.widthFor text) text
  by_cases hbounds : 0 < v.terminalWidth ∧ Decimal.Binary64.ofFloat? v.terminalWidth = none
  · obtain ⟨hpositive, hnone⟩ := hbounds
    have hlength : (wrap (v.widthFor text) text).length ≤ 1 :=
      length_wrap_le_one (by simp [widthFor, hpositive, hnone])
    exact hfills.of_length_le_one hlength fun line hover => by
      simp [Overruns, hpositive, hnone] at hover
  · rwa [show v.Overruns = (v.widthFor text < unitLength ·) from
      funext fun line => propext (overruns_iff hbounds text line)]

end ErrorView

end AttributeGraph
