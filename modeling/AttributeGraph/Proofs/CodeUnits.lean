/-
Paths read by code unit.

A path is cut and trimmed by characters here, and its text may come as code units, of which some
characters have two.  This makes no difference: a blank and a dot are single units, and no half of
a pair is taken for one (`isBlankUnit_of_mem`, `dot_mem_charUnits`).  So the units of a text are
trimmed and cut as the text is (`trimUnits_units`, `splitOn_units`), and what is read of them are
the units of the segments of its path (`Path.readUnits_units`).
-/
import AttributeGraph.Proofs.PathTexts

namespace AttributeGraph

namespace Text

variable {c : Char} {cs : List Char} {u : Nat}

/-! ### Blank units -/

/-- Whether a code unit is blank.  Half of a pair stands for no character, and is not. -/
def isBlankUnit (u : Nat) : Bool := isBlank (Char.ofNat u)

/-- Code units without the blank ones at the two ends. -/
def trimUnits (us : List Nat) : List Nat :=
  ((us.dropWhile isBlankUnit).reverse.dropWhile isBlankUnit).reverse

/-- All blanks are in the basic plane. -/
theorem isBlank_of_le (hc : 0x10000 ≤ c.toNat) : isBlank c = false := by
  simp only [isBlank, Bool.or_eq_false_iff, Bool.and_eq_false_iff, decide_eq_false_iff_not,
    beq_eq_false_iff_ne]
  omega

theorem isBlankUnit_of_surrogate (hlow : 0xD800 ≤ u) (hhigh : u < 0xE000) :
    isBlankUnit u = false := by
  have hinvalid : ¬ u.isValidChar := by
    unfold Nat.isValidChar
    omega
  rw [isBlankUnit, Char.ofNat, dif_neg hinvalid]
  rfl

/-- A unit is blank just if the character is to which it belongs. -/
theorem isBlankUnit_of_mem (hu : u ∈ charUnits c) : isBlankUnit u = isBlank c := by
  have hvalid : c.toNat < 0xD800 ∨ 0xDFFF < c.toNat ∧ c.toNat < 0x110000 := c.valid
  simp only [charUnits] at hu
  split_ifs at hu with hplane
  · rw [List.mem_singleton.1 hu, isBlankUnit, Char.ofNat_toNat]
  · rw [isBlank_of_le (Nat.le_of_not_lt hplane)]
    rcases List.mem_cons.1 hu with rfl | hu
    · exact isBlankUnit_of_surrogate (by omega) (by omega)
    · rw [List.mem_singleton.1 hu]
      exact isBlankUnit_of_surrogate (by omega) (by omega)

/-- Blank units are dropped with the characters to which they belong. -/
theorem dropWhile_flatMap {f : Char → List Nat} (hne : ∀ c, f c ≠ [])
    (hblank : ∀ c, ∀ u ∈ f c, isBlankUnit u = isBlank c) (cs : List Char) :
    (cs.flatMap f).dropWhile isBlankUnit = (cs.dropWhile isBlank).flatMap f := by
  induction cs with
  | nil => rfl
  | cons c rest ih =>
    rw [List.flatMap_cons, List.dropWhile_cons]
    cases hc : isBlank c with
    | true =>
      rw [if_pos rfl, List.dropWhile_append_of_pos fun u hu => (hblank c u hu).trans hc, ih]
    | false =>
      obtain ⟨u, us, hus⟩ := List.exists_cons_of_ne_nil (hne c)
      have hu : isBlankUnit u = false :=
        (hblank c u (by rw [hus]; exact List.mem_cons_self)).trans hc
      rw [if_neg Bool.false_ne_true, List.flatMap_cons, hus, List.cons_append,
        List.dropWhile_cons_of_neg (by rw [hu]; exact Bool.false_ne_true)]

/-- **The units of a text are trimmed as the text is.** -/
theorem trimUnits_units (cs : List Char) : trimUnits (units cs) = units (trim cs) := by
  unfold trimUnits units trim
  -- at the second end the units of each character come in reverse
  rw [dropWhile_flatMap charUnits_ne_nil fun c u hu => isBlankUnit_of_mem hu, List.reverse_flatMap,
    dropWhile_flatMap, List.reverse_flatMap]
  · exact congrArg (List.flatMap · _) (funext fun c => List.reverse_reverse _)
  · exact fun c hc => charUnits_ne_nil c (List.reverse_eq_nil_iff.1 hc)
  · exact fun c u hu => isBlankUnit_of_mem (List.mem_reverse.1 hu)

/-! ### Dots -/

/-- The unit of the dot belongs to no other character. -/
theorem dot_mem_charUnits : 0x2E ∈ charUnits c ↔ c = '.' := by
  constructor
  · intro hdot
    simp only [charUnits] at hdot
    split_ifs at hdot with hplane
    · exact Char.toNat_inj.1 (List.mem_singleton.1 hdot).symm
    · simp only [List.mem_cons, List.not_mem_nil, or_false] at hdot
      omega
  · rintro rfl
    exact List.mem_singleton_self _

theorem dot_mem_units : 0x2E ∈ units cs ↔ '.' ∈ cs := by
  simp only [units, List.mem_flatMap, dot_mem_charUnits, exists_eq_right]

/-- What stands before the first place to cut goes to the first piece. -/
theorem splitOn_append_of_not_mem {a : Nat} {front : List Nat} (ha : a ∉ front) (us : List Nat) :
    (front ++ us).splitOn a = (us.splitOn a).modifyHead (front ++ ·) := by
  induction front with
  | nil => exact (congrFun List.modifyHead_id _).symm
  | cons u front ih =>
    obtain ⟨hne, ha⟩ := not_or.1 (mt List.mem_cons.2 ha)
    rw [List.cons_append, List.splitOn_cons_eq_if_modifyHead, if_neg (by simpa using Ne.symm hne),
      ih ha, List.modifyHead_modifyHead]
    rfl

/-- **The units of a text are cut at the dots as the text is.** -/
theorem splitOn_units (cs : List Char) :
    (units cs).splitOn 0x2E = (cs.splitOn '.').map units := by
  induction cs with
  | nil => rfl
  | cons c cs ih =>
    have hunits : units (c :: cs) = charUnits c ++ units cs := List.flatMap_cons
    rw [hunits, List.splitOn_cons_eq_if_modifyHead]
    by_cases hc : c = '.'
    · subst hc
      rw [if_pos (beq_self_eq_true '.'), List.map_cons, ← ih]
      exact List.splitOn_cons_eq_if_modifyHead _ _
    · rw [splitOn_append_of_not_mem (mt dot_mem_charUnits.1 hc), ih, if_neg (by simpa using hc)]
      cases cs.splitOn '.' with
      | nil => rfl
      | cons piece pieces => simp [units]

/-! ### Segments -/

/-- What code units are read as: the pieces between the dots, if each of them can be a segment. -/
def readUnits (us : List Nat) : Option (List (List Nat)) :=
  let pieces := us.splitOn 0x2E
  if ∀ piece ∈ pieces, piece ≠ [] ∧ 0x2E ∉ piece ∧ trimUnits piece = piece then some pieces
  else none

theorem isSegment_ofList_iff : IsSegment (String.ofList cs) ↔
    units cs ≠ [] ∧ 0x2E ∉ units cs ∧ trimUnits (units cs) = units cs := by
  have hempty : units cs = [] ↔ cs = [] := units_injective.eq_iff' rfl
  rw [IsSegment, String.toList_ofList, ne_eq, ne_eq, hempty, dot_mem_units, trimUnits_units,
    units_injective.eq_iff]

end Text

open Text

/-- **A text is read by its units as it is by its characters.** -/
theorem Path.readUnits_units (t : String) : readUnits (units t.toList) =
    (Path.parse (.text t)).toOption.map fun p => p.segments.map fun s => units s.toList := by
  have hpieces : (units t.toList).splitOn 0x2E =
      (PathInput.split t).map fun s => units s.toList := by
    rw [splitOn_units, PathInput.split, List.map_map]
    refine List.map_congr_left fun cs _ => ?_
    rw [Function.comp_apply, String.toList_ofList]
  have hsegments : (∀ piece ∈ (units t.toList).splitOn 0x2E,
      piece ≠ [] ∧ 0x2E ∉ piece ∧ trimUnits piece = piece) ↔
        ∀ s ∈ PathInput.split t, IsSegment s := by
    rw [splitOn_units, PathInput.split, List.forall_mem_map, List.forall_mem_map]
    exact forall₂_congr fun _ _ => isSegment_ofList_iff.symm
  have hparse : ∀ p, Path.parse (.text t) = .ok p ↔ PathInput.split t = p.segments :=
    fun _ => parse_eq_ok_iff
  rw [readUnits]
  by_cases hvalid : ∀ s ∈ PathInput.split t, IsSegment s
  · obtain ⟨p, hp⟩ := exists_of_segments (split_ne_nil t) hvalid
    rw [if_pos (hsegments.2 hvalid), (hparse p).2 hp.symm, hpieces, ← hp]
    rfl
  · rw [if_neg (mt hsegments.1 hvalid)]
    cases hp : Path.parse (.text t) with
    | error e => rfl
    | ok p =>
      rw [(hparse p).1 hp] at hvalid
      exact absurd p.valid hvalid

end AttributeGraph
