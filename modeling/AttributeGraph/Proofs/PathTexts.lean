/-
Reading a path and writing it down.

A path is read where the pieces of the input are its segments (`Path.parse_eq_ok_iff`).  The
pieces of a text are what stands between its dots, so a text that is read is written down as it
was (`Path.format_split`), and what is written of names is read as these names
(`Path.split_format`).  A list with a single element goes through the same pieces as a text,
a longer one is taken as it is.

A segment is a text that its own trimming leaves alone.  `IsName` says the same of its
characters: there is one, none is a dot, and the first and the last are no blanks.
-/
import AttributeGraph.Proofs.DottedText
import AttributeGraph.Proofs.Grammar

namespace AttributeGraph

/-- A text that can stand between the dots of a path: it is not empty, has no dot, and neither
starts nor ends with a blank. -/
structure IsName (s : String) : Prop where
  nonempty : s ≠ ""
  dotless : '.' ∉ s.toList
  first : ∀ c, s.toList.head? = some c → Text.isBlank c = false
  last : ∀ c, s.toList.getLast? = some c → Text.isBlank c = false

/-- **Names and segments are the same texts.** -/
theorem isSegment_iff_isName {s : String} : IsSegment s ↔ IsName s := by
  have hempty : s.toList ≠ [] ↔ s ≠ "" := not_congr String.toList_eq_nil_iff
  constructor
  · rintro ⟨hne, hdot, htrim⟩
    obtain ⟨hfirst, hlast⟩ := Text.ends_of_trim htrim
    exact ⟨hempty.1 hne, hdot, hfirst, hlast⟩
  · rintro ⟨hne, hdot, hfirst, hlast⟩
    exact ⟨hempty.2 hne, hdot, Text.trim_of_ends hfirst hlast⟩

theorem forall_isName_iff {names : List String} :
    (∀ s ∈ names, IsSegment s) ↔ ∀ s ∈ names, IsName s :=
  forall₂_congr fun _ _ => isSegment_iff_isName

namespace Path

variable {input : PathInput} {names : List String} {t : String} {p : Path}

/-! ### Pieces and segments -/

/-- **An input is read as the path whose segments are its pieces.** -/
theorem parse_eq_ok_iff : parse input = .ok p ↔ input.pieces = p.segments := by
  constructor
  · intro hp
    rw [parse] at hp
    cases hpieces : input.pieces with
    | nil =>
      rw [hpieces] at hp
      cases hp
    | cons head tail =>
      rw [hpieces, ofSegments?] at hp
      by_cases hvalid : ∀ s ∈ head :: tail, IsSegment s
      · rw [dif_pos hvalid] at hp
        rw [← Except.ok.inj hp]
        rfl
      · rw [dif_neg hvalid] at hp
        cases hp
  · intro hpieces
    rw [parse, hpieces, segments, ofSegments?, dif_pos p.valid]

/-- An input has a path just if it has pieces and all of them are names. -/
theorem exists_parse_iff :
    (∃ p, parse input = .ok p) ↔ input.pieces ≠ [] ∧ ∀ s ∈ input.pieces, IsName s := by
  rw [← forall_isName_iff]
  constructor
  · rintro ⟨p, hp⟩
    rw [parse_eq_ok_iff.1 hp]
    exact ⟨List.cons_ne_nil _ _, p.valid⟩
  · rintro ⟨hne, hvalid⟩
    obtain ⟨p, hp⟩ := exists_of_segments hne hvalid
    exact ⟨p, parse_eq_ok_iff.2 hp.symm⟩

/-- Whatever is not read is an invalid path, and named as such. -/
theorem parse_eq_error_iff :
    parse input = .error (.invalidPath input.toValue) ↔ ∀ p, parse input ≠ .ok p := by
  rw [parse]
  cases ofSegments? input.pieces with
  | none => simp
  | some p => simp

/-! ### Texts -/

theorem split_ne_nil (t : String) : PathInput.split t ≠ [] := by
  rw [PathInput.split, ne_eq, List.map_eq_nil_iff]
  exact List.splitOnP_ne_nil _ _

/-- The pieces of a text make up the text. -/
theorem format_split (t : String) : format (PathInput.split t) = t := by
  refine String.toList_inj.1 ?_
  rw [format, String.toList_intercalate, PathInput.split, List.map_map]
  have hid : String.toList ∘ String.ofList = id := funext fun _ => String.toList_ofList
  rw [hid, List.map_id]
  exact List.intercalate_splitOn '.'

/-- Names are the pieces of the text that they make up. -/
theorem split_format (hne : names ≠ []) (hnames : ∀ s ∈ names, IsName s) :
    PathInput.split (format names) = names := by
  rw [PathInput.split, splitOn_format (forall_isName_iff.2 hnames) hne, List.map_map]
  have hid : String.ofList ∘ String.toList = id := funext fun _ => String.ofList_toList
  rw [hid, List.map_id]

/-- A path is read from the text that it is written as. -/
theorem parse_format (p : Path) : parse (.text (format p.segments)) = .ok p :=
  parse_eq_ok_iff.2 (split_format (List.cons_ne_nil _ _) (forall_isName_iff.1 p.valid))

/-- A place among the segments cuts them behind it. -/
theorem upTo_natCast (k : Nat) (names : List String) : upTo k names = names.take (k + 1) := by
  have hplace : ¬ (k : Int) + 1 < 0 := by omega
  rw [upTo, if_neg hplace]
  rfl

/-! ### Lists -/

/-- A list with a single element is read as the text of the element, and a longer one is read if
its elements are names. -/
theorem parse_segments_eq_ok_iff : parse (.segments names) = .ok p ↔
    (∃ t, names = [t] ∧ parse (.text t) = .ok p) ∨
      1 < names.length ∧ (∀ s ∈ names, IsName s) ∧ p.segments = names := by
  simp only [parse_eq_ok_iff]
  match names with
  | [] => simp [PathInput.pieces, segments]
  | [t] => simp [PathInput.pieces]
  | head :: second :: tail =>
    show head :: second :: tail = p.segments ↔ _
    constructor
    · intro hp
      refine .inr ⟨by simp, ?_, hp.symm⟩
      rw [hp]
      exact forall_isName_iff.1 p.valid
    · rintro (⟨t, hsingle, -⟩ | ⟨-, -, hp⟩)
      · cases hsingle
      · exact hp.symm

/-- Names that are listed are their own pieces. -/
theorem pieces_of_names (hne : names ≠ []) (hnames : ∀ s ∈ names, IsName s) :
    (PathInput.segments names).pieces = names := by
  match names with
  | [] => exact absurd rfl hne
  | [t] =>
    have hsplit := split_format hne hnames
    rwa [format_singleton] at hsplit
  | head :: second :: tail => rfl

/-- Names are read as they are, from a list and from their dotted text. -/
theorem exists_parse_of_names (hne : names ≠ []) (hnames : ∀ s ∈ names, IsName s) :
    ∃ p, p.segments = names ∧ parse (.segments names) = .ok p ∧
      parse (.text (format names)) = .ok p := by
  obtain ⟨p, rfl⟩ := exists_of_segments hne (forall_isName_iff.2 hnames)
  exact ⟨p, rfl, parse_eq_ok_iff.2 (pieces_of_names hne hnames), parse_format p⟩

/-! ### Texts and segments -/

/-- **Dotted texts and segments correspond.**  A text is read exactly if all its pieces are names,
and the path is then written down as the text.  Names are read as they are, from a list and from
their dotted text, and the text of the first of them as these.  A list is read if it has one element
and this is read as a text, which gives the same path, or if it has more and they are names.  Every
other input is an invalid path. -/
theorem texts_and_segments :
    (∀ t, ((∃ p, parse (.text t) = .ok p) ↔ ∀ s ∈ PathInput.split t, IsName s) ∧
      ∀ p, parse (.text t) = .ok p → format p.segments = t) ∧
    (∀ names, names ≠ [] → (∀ s ∈ names, IsName s) →
      (∃ p, p.segments = names ∧ parse (.segments names) = .ok p ∧
        parse (.text (format names)) = .ok p) ∧
      ∀ k : Nat, k < names.length → ∃ p, p.segments = names.take (k + 1) ∧
        parse (.text (format (upTo k names))) = .ok p) ∧
    (∀ names p, parse (.segments names) = .ok p ↔
      (∃ t, names = [t] ∧ parse (.text t) = .ok p) ∨
        1 < names.length ∧ (∀ s ∈ names, IsName s) ∧ p.segments = names) ∧
    (∀ p, parse .undefined ≠ .ok p ∧ parse .null ≠ .ok p) ∧
    ∀ input, (∀ p, parse input ≠ .ok p) → parse input = .error (.invalidPath input.toValue) := by
  refine ⟨fun t => ⟨?_, fun p hp => ?_⟩, fun names hne hnames =>
    ⟨exists_parse_of_names hne hnames, fun k _ => ?_⟩, fun names p => parse_segments_eq_ok_iff,
    fun p => ⟨?_, ?_⟩, fun input => parse_eq_error_iff.2⟩
  · rw [exists_parse_iff]
    exact and_iff_right (split_ne_nil t)
  · rw [← parse_eq_ok_iff.1 hp]
    exact format_split t
  · have htake : names.take (k + 1) ≠ [] := by simpa using hne
    obtain ⟨p, hp, -, htext⟩ := exists_parse_of_names htake fun s hs =>
      hnames s (List.mem_of_mem_take hs)
    exact ⟨p, hp, upTo_natCast k names ▸ htext⟩
  · exact fun hp => nomatch hp
  · exact fun hp => nomatch hp

end Path

end AttributeGraph
