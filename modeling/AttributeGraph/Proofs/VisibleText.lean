/-
What is left of a text without its control sequences.

A control sequence goes on through marks, digits and semicolons to a final character, and a
character that is none of these ends whatever has been begun.  A text whose first character is
of that kind is `Separate`: no sequence reaches into it from the text before, in none of the
readings that are tried (`afterSequence?_append`).  So stripping takes the two texts one by one
(`stripFrom_append`).

Both the escape character and the line break are of that kind.  A style therefore begins and
ends beside the text that it paints, whatever unfinished sequence the text ends in
(`strip_styled`), and a rendering is stripped line by line (`strip_lines`).
-/
import AttributeGraph.Error.View
import Mathlib.Data.List.Basic

namespace AttributeGraph

namespace Text.Ansi

variable {cs y : List Char} {n : Nat}

/-! ### Where no sequence goes on -/

/-- A text that does not begin with anything that a control sequence can go on with. -/
def Separate (y : List Char) : Prop :=
  ∀ c, y.head? = some c → isMark c = false ∧ isFinal c = false

theorem separate_cons {c : Char} (hc : isMark c = false ∧ isFinal c = false) (y : List Char) :
    Separate (c :: y) := by
  rintro d hd
  obtain rfl := Option.some.inj hd
  exact hc

theorem isDigit_eq_false_of_isFinal {c : Char} (hc : isFinal c = false) : c.isDigit = false := by
  by_contra hdigit
  rw [Bool.not_eq_false] at hdigit
  simp [isFinal, hdigit] at hc

theorem dropWhile_append (hy : Separate y) (cs : List Char) :
    (cs ++ y).dropWhile isMark = cs.dropWhile isMark ++ y := by
  have hdrop : y.dropWhile isMark = y := by
    cases y with
    | nil => rfl
    | cons c y => rw [List.dropWhile_cons, (hy c rfl).1, if_neg Bool.false_ne_true]
  rw [List.dropWhile_append, hdrop]
  split
  · next hempty => rw [List.isEmpty_iff.1 hempty, List.nil_append]
  · rfl

theorem suffix_of_mem_afterDigits : ∀ {n : Nat} {cs d : List Char}, d ∈ afterDigits n cs →
    d <:+ cs := by
  intro n
  induction n with
  | zero =>
    intro cs d hd
    obtain rfl := List.mem_singleton.1 hd
    exact List.suffix_rfl
  | succ n ih =>
    intro cs d hd
    cases cs with
    | nil =>
      obtain rfl := List.mem_singleton.1 hd
      exact List.suffix_rfl
    | cons c rest =>
      rw [afterDigits] at hd
      split at hd
      · rcases List.mem_append.1 hd with hd | hd
        · exact (ih hd).trans (List.suffix_cons c rest)
        · obtain rfl := List.mem_singleton.1 hd
          exact List.suffix_rfl
      · obtain rfl := List.mem_singleton.1 hd
        exact List.suffix_rfl

/-! ### Readings -/

theorem afterDigits_of_separate (hy : Separate y) (n : Nat) : afterDigits n y = [y] := by
  cases n with
  | zero => rfl
  | succ n =>
    cases y with
    | nil => rfl
    | cons c y =>
      rw [afterDigits, isDigit_eq_false_of_isFinal (hy c rfl).2, if_neg Bool.false_ne_true]

theorem afterDigits_append (hy : Separate y) : ∀ (n : Nat) (cs : List Char),
    afterDigits n (cs ++ y) = (afterDigits n cs).map (· ++ y) := by
  intro n
  induction n with
  | zero => exact fun _ => rfl
  | succ n ih =>
    intro cs
    cases cs with
    | nil => exact afterDigits_of_separate hy (n + 1)
    | cons c rest =>
      rw [List.cons_append, afterDigits, afterDigits, ih]
      split
      · rw [List.map_append]
        rfl
      · rfl

theorem afterParameters_of_ne {c : Char} (hc : c ≠ ';') (n : Nat) (cs : List Char) :
    afterParameters n (c :: cs) = [c :: cs] := by
  cases n with
  | zero => rfl
  | succ n => simp [afterParameters, hc]

theorem afterParameters_nil (n : Nat) : afterParameters n [] = [[]] := by
  cases n <;> rfl

theorem afterParameters_of_separate (hy : Separate y) (n : Nat) : afterParameters n y = [y] := by
  cases y with
  | nil => exact afterParameters_nil n
  | cons c y =>
    refine afterParameters_of_ne ?_ n y
    rintro rfl
    exact absurd (hy ';' rfl).1 (by decide)

/-- Parameters are looked for as far as the text goes, and what follows it adds none. -/
theorem afterParameters_append (hy : Separate y) : ∀ {m n : Nat} {cs : List Char},
    cs.length ≤ m → cs.length ≤ n →
    afterParameters m (cs ++ y) = (afterParameters n cs).map (· ++ y) := by
  intro m
  induction m with
  | zero =>
    intro n cs hm _
    obtain rfl := List.length_eq_zero_iff.1 (Nat.le_zero.1 hm)
    rw [afterParameters_nil]
    rfl
  | succ m ih =>
    intro n cs hm hn
    cases cs with
    | nil =>
      rw [List.nil_append, afterParameters_of_separate hy, afterParameters_nil]
      rfl
    | cons c rest =>
      rw [List.length_cons] at hm hn
      by_cases hc : c = ';'
      · subst hc
        obtain ⟨n, rfl⟩ := Nat.exists_eq_add_one.2 (Nat.lt_of_lt_of_le (Nat.succ_pos _) hn)
        rw [List.cons_append, afterParameters, afterParameters, afterDigits_append hy,
          List.flatMap_map, List.map_append, List.map_flatMap]
        refine congrArg (· ++ [';' :: rest ++ y]) (List.flatMap_congr fun d hd => ?_)
        have hle := (suffix_of_mem_afterDigits hd).length_le
        exact ih (by omega) (by omega)
      · rw [List.cons_append, afterParameters_of_ne hc, afterParameters_of_ne hc]
        rfl

theorem afterNumbers_append (hy : Separate y) (cs : List Char) :
    afterNumbers (cs ++ y) = (afterNumbers cs).map (· ++ y) := by
  cases cs with
  | nil =>
    cases y with
    | nil => rfl
    | cons c y =>
      rw [List.nil_append, afterNumbers, afterNumbers, isDigit_eq_false_of_isFinal (hy c rfl).2,
        if_neg Bool.false_ne_true]
      rfl
  | cons c rest =>
    rw [List.cons_append, afterNumbers, afterNumbers]
    split
    · rw [afterDigits_append hy, List.flatMap_map, List.map_append, List.map_flatMap]
      refine congrArg (· ++ [c :: rest ++ y]) (List.flatMap_congr fun d hd => ?_)
      have hle := (suffix_of_mem_afterDigits hd).length_le
      exact afterParameters_append hy (by rw [List.length_append]; omega) hle
    · rfl

/-- **A sequence ends before a separate text**, or there is none. -/
theorem afterSequence?_append (hy : Separate y) (cs : List Char) :
    afterSequence? (cs ++ y) = (afterSequence? cs).map (· ++ y) := by
  rw [afterSequence?, afterSequence?, dropWhile_append hy, afterNumbers_append hy,
    List.findSome?_map, List.map_findSome?]
  refine congrArg (List.findSome? · _) (funext fun d => ?_)
  cases d with
  | nil =>
    cases y with
    | nil => rfl
    | cons c y =>
      rw [Function.comp_apply, Function.comp_apply, List.nil_append]
      dsimp only
      rw [(hy c rfl).2, if_neg Bool.false_ne_true]
      rfl
  | cons c rest =>
    rw [Function.comp_apply, Function.comp_apply, List.cons_append]
    dsimp only
    split <;> rfl

/-! ### Stripping -/

/-- **A text and a separate one behind it are stripped one by one.** -/
theorem stripFrom_append (hy : Separate y) : ∀ (cs : List Char) {skip : Nat}, skip ≤ cs.length →
    stripFrom skip (cs ++ y) = stripFrom skip cs ++ stripFrom 0 y := by
  intro cs
  induction cs with
  | nil =>
    intro skip hskip
    obtain rfl := Nat.le_zero.1 hskip
    rfl
  | cons c rest ih =>
    intro skip hskip
    cases skip with
    | succ skip => exact ih (Nat.le_of_succ_le_succ hskip)
    | zero =>
      rw [List.cons_append, stripFrom, stripFrom, afterSequence?_append hy]
      split
      · cases afterSequence? rest with
        | none => exact congrArg (c :: ·) (ih (Nat.zero_le _))
        | some behind =>
          dsimp only [Option.map_some]
          rw [List.length_append, List.length_append, Nat.add_sub_add_right]
          exact ih (Nat.sub_le _ _)
      · exact congrArg (c :: ·) (ih (Nat.zero_le _))

/-! ### Painted texts -/

theorem stripFrom_length (seq cs : List Char) :
    stripFrom seq.length (seq ++ cs) = stripFrom 0 cs := by
  induction seq with
  | nil => rfl
  | cons c seq ih => exact ih

/-- A sequence that ends where a text begins leaves the text. -/
theorem stripFrom_sequence {c : Char} (seq : List Char) (hc : isIntroducer c = true)
    (hseq : afterSequence? (seq ++ cs) = some cs) :
    stripFrom 0 (c :: (seq ++ cs)) = stripFrom 0 cs := by
  rw [stripFrom, if_pos hc, hseq]
  dsimp only
  rw [List.length_append, Nat.add_sub_cancel]
  exact stripFrom_length seq cs

/-- What switches a style on leaves nothing, whatever follows. -/
theorem stripFrom_start (style : Style) (cs : List Char) :
    stripFrom 0 (style.start.toList ++ cs) = stripFrom 0 cs := by
  cases style with
  | red => exact stripFrom_sequence ['[', '3', '1', 'm'] rfl rfl
  | bold => exact stripFrom_sequence ['[', '1', 'm'] rfl rfl

theorem separate_reset : Separate reset.toList := separate_cons (by decide) _

/-- **A painted text is stripped to what the text itself is stripped to**, also where it ends in a
sequence that is not finished. -/
theorem strip_styled (text : String) (styles : List Style) :
    strip (styled text styles) = strip text := by
  induction styles with
  | nil => rfl
  | cons style styles ih =>
    rw [← ih, strip, strip]
    refine congrArg String.ofList ?_
    calc stripFrom 0 (styled text (style :: styles)).toList
        = stripFrom 0 (style.start.toList ++ ((styled text styles).toList ++ reset.toList)) := by
          rw [← List.append_assoc, ← String.toList_append, ← String.toList_append]
          rfl
      _ = stripFrom 0 ((styled text styles).toList ++ reset.toList) := stripFrom_start style _
      _ = stripFrom 0 (styled text styles).toList ++ stripFrom 0 reset.toList :=
          stripFrom_append separate_reset _ (Nat.zero_le _)
      _ = stripFrom 0 (styled text styles).toList := List.append_nil _

/-- A text without introducers stays as it is. -/
theorem strip_eq_self {text : String} (htext : ∀ c ∈ text.toList, isIntroducer c = false) :
    strip text = text := by
  have hall : ∀ cs : List Char, (∀ c ∈ cs, isIntroducer c = false) → stripFrom 0 cs = cs := by
    intro cs
    induction cs with
    | nil => exact fun _ => rfl
    | cons c rest ih =>
      intro hcs
      obtain ⟨hc, hrest⟩ := List.forall_mem_cons.1 hcs
      rw [stripFrom, hc, if_neg Bool.false_ne_true, ih hrest]
  rw [strip, hall _ htext, String.ofList_toList]

/-! ### Lines -/

theorem stripFrom_intercalate (lines : List (List Char)) :
    stripFrom 0 (['\n'].intercalate lines) = ['\n'].intercalate (lines.map (stripFrom 0)) := by
  induction lines with
  | nil => rfl
  | cons l lines ih =>
    cases lines with
    | nil => rw [List.map_singleton, List.intercalate_singleton, List.intercalate_singleton]
    | cons l' lines =>
      rw [List.map_cons] at ih
      rw [List.map_cons, List.map_cons, List.intercalate_cons_cons, List.intercalate_cons_cons,
        List.append_assoc, List.append_assoc, ← ih]
      exact stripFrom_append (separate_cons (by decide) _) l (Nat.zero_le _)

/-- **Lines are stripped one by one.** -/
theorem strip_lines (lines : List String) :
    strip ("\n".intercalate lines) = "\n".intercalate (lines.map strip) := by
  refine String.toList_inj.1 ?_
  rw [strip, String.toList_ofList, String.toList_intercalate, String.toList_intercalate,
    List.map_map]
  have hline : String.toList ∘ strip = stripFrom 0 ∘ String.toList :=
    funext fun _ => String.toList_ofList
  rw [hline, ← List.map_map]
  exact stripFrom_intercalate _

end Text.Ansi

namespace ErrorView

open Text.Ansi

/-- **Colours do not change what is visible.**  With and without colours the rendering of an error
is stripped to the same text.  Where the texts of the error bring no introducers of their own, this
is the rendering without colours. -/
theorem strip_render (v : ErrorView) :
    let plain := { v with colors := false }.render
    strip { v with colors := true }.render = strip plain ∧
      ((∀ c ∈ plain.toList, isIntroducer c = false) → strip plain = plain) := by
  refine ⟨?_, strip_eq_self⟩
  rw [render, render, strip_lines, strip_lines]
  refine congrArg ("\n".intercalate ·) ?_
  -- the lines differ in the first one only
  show strip (styled v.title [.red, .bold]) :: _ = strip v.title :: _
  rw [strip_styled]
  rfl

end ErrorView

end AttributeGraph
