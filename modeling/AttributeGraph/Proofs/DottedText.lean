/-
Dotted texts and their order.

No segment has a dot, so a path can be read back from its dotted text
(`splitOn_format`) and different paths have different texts (`format_injOn`).  Texts are sorted by
their code units.  This is a linear order, because the units of a text determine it, so
sorting the same texts gives the same list wherever one starts from
(`sortByUnits_eq_of_perm`), and no two different texts are on a par
(`sortByUnits_ascending`).
-/
import AttributeGraph.Path
import AttributeGraph.Text.Units
import Mathlib.Data.List.Lex
import Mathlib.Data.List.Sort

namespace AttributeGraph

/-! ### Paths as texts -/

/-- A dotted text is cut into the names that it is made of. -/
theorem Path.splitOn_format {p : List String} (hp : ∀ s ∈ p, IsSegment s) (hne : p ≠ []) :
    (Path.format p).toList.splitOn '.' = p.map String.toList := by
  unfold Path.format
  rw [String.toList_intercalate]
  refine List.splitOn_intercalate '.' (fun cs hcs => ?_) (by simpa using hne)
  obtain ⟨s, hs, rfl⟩ := List.mem_map.1 hcs
  exact (hp s hs).2.1

/-- **Different paths have different dotted texts.** -/
theorem Path.format_injOn {p q : List String} (hp : ∀ s ∈ p, IsSegment s)
    (hq : ∀ s ∈ q, IsSegment s) (hpne : p ≠ []) (hqne : q ≠ [])
    (heq : Path.format p = Path.format q) : p = q := by
  have hmap : p.map String.toList = q.map String.toList := by
    rw [← splitOn_format hp hpne, ← splitOn_format hq hqne, heq]
  exact List.map_injective_iff.2 (fun _ _ => String.toList_inj.1) hmap

/-- One or more segments make a path. -/
theorem Path.exists_of_segments {p : List String} (hne : p ≠ []) (hp : ∀ s ∈ p, IsSegment s) :
    ∃ q : Path, q.segments = p := by
  cases p with
  | nil => exact absurd rfl hne
  | cons head tail => exact ⟨⟨head, tail, hp⟩, rfl⟩

theorem Path.format_singleton (n : String) : Path.format [n] = n :=
  String.toList_inj.1 (by
    rw [Path.format, String.toList_intercalate, List.map_singleton, List.intercalate_singleton])

/-- The name of an attribute is a path of one segment. -/
theorem Path.parse_of_isSegment {n : String} (hn : IsSegment n) :
    Path.parse (.text n) = .ok ⟨n, [], List.forall_mem_singleton.2 hn⟩ := by
  have hvalid : ∀ s ∈ [n], IsSegment s := List.forall_mem_singleton.2 hn
  have hpieces : (PathInput.text n).pieces = [n] := by
    have hsplit := splitOn_format hvalid (List.cons_ne_nil n [])
    rw [format_singleton] at hsplit
    show (n.toList.splitOn '.').map String.ofList = [n]
    rw [hsplit, List.map_singleton, List.map_singleton, String.ofList_toList]
  rw [Path.parse, hpieces, ofSegments?, dif_pos hvalid]

/-! ### Code units -/

namespace Text

/-- The units of a first character can be told from those that follow. -/
theorem charUnits_append_inj {c d : Char} {as bs : List Nat}
    (heq : charUnits c ++ as = charUnits d ++ bs) : c = d ∧ as = bs := by
  have hvalid : ∀ e : Char, e.toNat < 0xD800 ∨ 0xDFFF < e.toNat ∧ e.toNat < 0x110000 :=
    fun e => e.valid
  have hc := hvalid c
  have hd := hvalid d
  have htoNat : c.toNat = d.toNat → c = d := fun h => by
    rw [← Char.ofNat_toNat c, ← Char.ofNat_toNat d, h]
  unfold charUnits at heq
  dsimp only at heq
  split_ifs at heq with h₁ h₂ h₂
  · obtain ⟨hn, has⟩ := List.cons.inj heq
    exact ⟨htoNat hn, has⟩
  · -- no character is a surrogate
    obtain ⟨hn, -⟩ := List.cons.inj heq
    omega
  · obtain ⟨hn, -⟩ := List.cons.inj heq
    omega
  · obtain ⟨hhigh, heq⟩ := List.cons.inj heq
    obtain ⟨hlow, has⟩ := List.cons.inj heq
    exact ⟨htoNat (by omega), has⟩

theorem charUnits_ne_nil (c : Char) : charUnits c ≠ [] := by
  unfold charUnits
  dsimp only
  split_ifs
  · exact List.cons_ne_nil _ _
  · exact List.cons_ne_nil _ _

/-- A text can be read back from its units. -/
theorem units_injective : Function.Injective units := by
  intro a b hab
  induction a generalizing b with
  | nil =>
    cases b with
    | nil => rfl
    | cons d b => exact absurd (List.append_eq_nil_iff.1 hab.symm).1 (charUnits_ne_nil d)
  | cons c a ih =>
    cases b with
    | nil => exact absurd (List.append_eq_nil_iff.1 hab).1 (charUnits_ne_nil c)
    | cons d b =>
      obtain ⟨rfl, hrest⟩ := charUnits_append_inj hab
      rw [ih hrest]

theorem unitsLE_iff {a b : String} :
    unitsLE a b = true ↔ units a.toList ≤ units b.toList := by
  have hlt : (fun m n => Nat.blt m n = true) = fun m n : Nat => m < n := by
    funext m n
    simp
  rw [unitsLE, Bool.not_eq_true', ← Bool.not_eq_true, List.lex_eq_true_iff_lex, hlt]
  exact not_lt (a := units b.toList) (b := units a.toList)

theorem unitsLE_trans {a b c : String} (hab : unitsLE a b = true) (hbc : unitsLE b c = true) :
    unitsLE a c = true := by
  rw [unitsLE_iff] at *
  exact hab.trans hbc

theorem unitsLE_total (a b : String) : (unitsLE a b || unitsLE b a) = true := by
  rw [Bool.or_eq_true, unitsLE_iff, unitsLE_iff]
  exact le_total _ _

theorem unitsLE_antisymm {a b : String} (hab : unitsLE a b = true) (hba : unitsLE b a = true) :
    a = b := by
  rw [unitsLE_iff] at hab hba
  exact String.toList_inj.1 (units_injective (le_antisymm hab hba))

theorem pairwise_sortByUnits (l : List String) :
    (sortByUnits l).Pairwise fun a b => unitsLE a b = true := by
  have htrans : ∀ a b c, unitsLE a b = true → unitsLE b c = true → unitsLE a c = true :=
    fun _ _ _ hab hbc => unitsLE_trans hab hbc
  exact List.pairwise_mergeSort htrans unitsLE_total l

/-- Texts that are sorted come out in the same order, wherever one starts from. -/
theorem sortByUnits_eq_of_perm {l l' : List String} (hl : l.Perm l') :
    sortByUnits l = sortByUnits l' := by
  have hperm : (sortByUnits l).Perm (sortByUnits l') :=
    (List.mergeSort_perm l _).trans (hl.trans (List.mergeSort_perm l' _).symm)
  exact hperm.eq_of_pairwise (fun _ _ _ _ => unitsLE_antisymm) (pairwise_sortByUnits l)
    (pairwise_sortByUnits l')

/-- **Different texts that are sorted ascend strictly.** -/
theorem sortByUnits_ascending {l : List String} (hl : l.Nodup) :
    (sortByUnits l).Pairwise fun a b => units a.toList < units b.toList := by
  have hnodup : (sortByUnits l).Nodup := (List.mergeSort_perm l _).nodup_iff.2 hl
  refine ((pairwise_sortByUnits l).and hnodup).imp fun {a b} hab => ?_
  refine lt_of_le_of_ne (unitsLE_iff.1 hab.1) fun heq => hab.2 ?_
  exact String.toList_inj.1 (units_injective heq)

end Text

end AttributeGraph
