/-
What is read at the root of a tree of paths.

No group of the tree has a super group, so nothing is inherited and every reader
looks at one group only.  Walking along a path ends at the item of its last name,
if it is declared (`PathTree.itemAt?_eq_some_iff`).  Climbing from a nested group
retraces the names that lead to it (`PathTree.pathTo_eq`), and the list of all
paths has those that are declared (`PathTree.paths_eq`).

Like the climb, the listing has a bound and a guard against groups met twice, and
neither stops it here: the way to a group of the tree is the way up from it, and
that is shorter than the number of groups.
-/
import AttributeGraph.Proofs.Listing
import AttributeGraph.Proofs.PathTree
import Mathlib.Data.Finset.Dedup

namespace AttributeGraph.Heap

variable {h : Heap} {g x y : GroupId} {p q r : List String} {m n : String} {i : ItemId}

/-- A path has a last name. -/
theorem exists_segments_eq (p : Path) : ∃ q n, p.segments = q ++ [n] :=
  (List.eq_nil_or_concat' p.segments).resolve_left (List.cons_ne_nil p.head p.tail)

/-! ### Walking along a path -/

theorem itemBelow_cons (h : Heap) (x : GroupId) (m : String) (q : List String) (n : String) :
    h.itemBelow x (m :: q) n = (h.primaryAt x m).bind fun y => h.itemBelow y q n := by
  rw [itemBelow, follow, Option.bind_assoc]
  rfl

/-- A walk ends at the item of the last name. -/
theorem locate_eq_found_iff (tail : List String) : ∀ {x : GroupId} {head : String}
    {q : List String} {n : String}, head :: tail = q ++ [n] →
    (h.locate x head tail = .found i ↔ h.itemBelow x q n = some i) := by
  induction tail with
  | nil =>
    intro x head q n heq
    obtain ⟨rfl, hlast⟩ := List.append_inj' (show [] ++ [head] = q ++ [n] from heq) rfl
    obtain rfl := List.head_eq_of_cons_eq hlast
    rw [locate, itemBelow, follow, Option.bind_some]
    cases (h.group x).items.find? head <;> simp
  | cons next rest ih =>
    intro x head q n heq
    cases q with
    | nil => simp at heq
    | cons m q =>
      obtain ⟨rfl, htail⟩ := List.cons.inj heq
      rw [locate, itemBelow_cons, primaryAt]
      cases (h.group x).items.find? head with
      | none => simp
      | some j =>
        cases hy : (h.item j).value.primary with
        | none => simp [hy]
        | some y =>
          simp only [hy, Option.bind_some]
          exact ih htail

theorem resolveAlong_singleton (h : Heap) (p : Path) (x : GroupId) :
    h.resolveAlong p [x] = some i ↔ h.locate x p.head p.tail = .found i := by
  rw [resolveAlong]
  cases h.locate x p.head p.tail <;> simp [resolveAlong]

section Readers

variable (ht : h.PathTree g)

include ht

/-- The root has no super group to fall back to. -/
theorem PathTree.superChain_eq : h.superChain g = [g] :=
  (Supers.top (ht.group [] g rfl).above).superChain_eq

/-- **A path has the item of its last name.** -/
theorem PathTree.itemAt?_eq_some_iff {p : Path} (hp : p.segments = q ++ [n]) :
    h.itemAt? g p = some i ↔ h.itemBelow g q n = some i := by
  rw [itemAt?, ht.superChain_eq, resolveAlong_singleton]
  exact locate_eq_found_iff p.tail hp

theorem PathTree.isSome_itemAt?_iff (p : Path) :
    (h.itemAt? g p).isSome = true ↔ h.Declares g p.segments := by
  obtain ⟨q, n, hp⟩ := exists_segments_eq p
  rw [hp, declares_concat_iff, Option.isSome_iff_exists, Option.isSome_iff_exists]
  exact exists_congr fun i => ht.itemAt?_eq_some_iff hp

theorem PathTree.hasPath_eq (p : Path) : h.hasPath g p = (h.itemAt? g p).isSome := by
  rw [hasPath, itemAt?, ht.superChain_eq]
  exact Bool.or_false _

/-- The group of a path is the one that its names lead to. -/
theorem PathTree.follow_of_nestedAt? {p : Path} (hx : h.nestedAt? g p = some x) :
    h.follow g p.segments = some x := by
  obtain ⟨q, n, hp⟩ := exists_segments_eq p
  rw [nestedAt?, ht.superChain_eq, groupAlong] at hx
  cases hi : h.resolveAlong p [g] with
  | none =>
    rw [hi] at hx
    cases hx
  | some i =>
    rw [hi] at hx
    obtain ⟨y, hy, hfound⟩ := itemBelow_eq_some_iff.1
      ((locate_eq_found_iff p.tail hp).1 ((resolveAlong_singleton h p g).1 hi))
    rw [hp, follow_concat, hy, Option.bind_some]
    exact primaryAt_eq_some_iff.2 ⟨i, hfound, hx⟩

end Readers

/-- **A group's path joins the names that lead to it.** -/
theorem PathTree.pathTo_eq (ht : h.PathTree g) (hx : h.follow g q = some x) :
    h.pathTo x = Path.format q :=
  (ht.climbs hx).pathTo_eq

/-! ### Listing -/

/-- A group of the tree inherits nothing. -/
theorem TreeGroup.find?_allItems (hx : h.TreeGroup x) (n : String) :
    (h.allItems x).find? n = (h.group x).items.find? n := by
  rw [allItems, (Supers.top hx.above).superChain_eq, find?_itemsAlong]
  exact Option.or_none

theorem TreeItem.mem_groups (hi : h.TreeItem x n i) :
    y ∈ (h.item i).value.groups ↔ (h.item i).value.primary = some y := by
  rw [Slot.mem_groups, hi.untyped, or_iff_left List.not_mem_nil]

/-- The listing of a group has every name, and behind it the listing of the nested group. -/
theorem TreeGroup.cons_mem_pathsBelow {fuel : Nat} {onPath : List GroupId}
    (hx : h.TreeGroup x) (hnew : x ∉ onPath) :
    n :: r ∈ h.pathsBelow (fuel + 1) onPath x ↔ ∃ i, (h.group x).items.find? n = some i ∧
      (r = [] ∨ ∃ y, (h.item i).value.primary = some y ∧
        r ∈ h.pathsBelow fuel (x :: onPath) y) := by
  rw [Heap.cons_mem_pathsBelow hnew, hx.find?_allItems]
  refine exists_congr fun i => and_congr_right fun hi => or_congr_right ?_
  exact exists_congr fun y => and_congr_left fun _ => (hx.items n i hi).mem_groups

/-- A path is declared at its first name, and behind it in the nested group. -/
theorem declares_cons_iff :
    h.Declares x (n :: r) ↔ ∃ i, (h.group x).items.find? n = some i ∧
      (r = [] ∨ ∃ y, (h.item i).value.primary = some y ∧ h.Declares y r) := by
  rcases List.eq_nil_or_concat' r with rfl | ⟨r, m, rfl⟩
  · rw [show [n] = [] ++ [n] from rfl, declares_concat_iff, itemBelow, follow, Option.bind_some,
      Option.isSome_iff_exists]
    simp
  · rw [← List.cons_append, declares_concat_iff, itemBelow_cons, Option.isSome_iff_exists]
    constructor
    · rintro ⟨j, hj⟩
      obtain ⟨y, hy, hj⟩ := Option.bind_eq_some_iff.1 hj
      obtain ⟨i, hi, hy⟩ := primaryAt_eq_some_iff.1 hy
      refine ⟨i, hi, .inr ⟨y, hy, declares_concat_iff.2 ?_⟩⟩
      rw [hj]
      rfl
    · rintro ⟨i, hi, hno | ⟨y, hy, hr⟩⟩
      · exact absurd hno (List.append_ne_nil_of_right_ne_nil r (List.cons_ne_nil m []))
      · obtain ⟨j, hj⟩ := Option.isSome_iff_exists.1 (declares_concat_iff.1 hr)
        exact ⟨j, Option.bind_eq_some_iff.2 ⟨y, primaryAt_eq_some_iff.2 ⟨i, hi, hy⟩, hj⟩⟩

section Listing

variable (ht : h.PathTree g)

include ht

/-- The listing of a group whose guard holds groups above it only. -/
theorem PathTree.mem_pathsBelow (fuel : Nat) : ∀ {x : GroupId} {q : List String}
    {onPath : List GroupId}, h.follow g q = some x → h.groups.size ≤ q.length + fuel →
    (∀ y ∈ onPath, ∃ r, h.follow g r = some y ∧ r.length < q.length) →
    ∀ r, r ∈ h.pathsBelow fuel onPath x ↔ h.Declares x r := by
  induction fuel with
  | zero =>
    intro x q onPath hx hfuel
    have hlt := (ht.climbs hx).length_lt
    omega
  | succ fuel ih =>
    intro x q onPath hx hfuel hguard r
    have hgroup := ht.group q x hx
    have hnew : x ∉ onPath := by
      intro hmem
      obtain ⟨r, hr, hlt⟩ := hguard x hmem
      rw [ht.follow_inj hr hx] at hlt
      exact Nat.lt_irrefl _ hlt
    -- one name further down the group itself is on the way
    have hbelow : ∀ {n : String} {i : ItemId} {y : GroupId}, (h.group x).items.find? n = some i →
        (h.item i).value.primary = some y →
        ∀ r, r ∈ h.pathsBelow fuel (x :: onPath) y ↔ h.Declares y r := by
      intro n i y hi hy
      refine ih (q := q ++ [n]) ?_ ?_ fun z hz => ?_
      · rw [follow_concat, hx, Option.bind_some]
        exact primaryAt_eq_some_iff.2 ⟨i, hi, hy⟩
      · rw [List.length_append, List.length_singleton]
        omega
      · rw [List.length_append, List.length_singleton]
        rcases List.mem_cons.1 hz with rfl | hz
        · exact ⟨q, hx, Nat.lt_succ_self _⟩
        · obtain ⟨r, hr, hlt⟩ := hguard z hz
          exact ⟨r, hr, hlt.trans (Nat.lt_succ_self _)⟩
    cases r with
    | nil => exact iff_of_false (nil_not_mem_pathsBelow _ _) not_declares_nil
    | cons n r =>
      rw [hgroup.cons_mem_pathsBelow hnew, declares_cons_iff]
      refine exists_congr fun i => and_congr_right fun hi => or_congr_right ?_
      exact exists_congr fun y => and_congr_right fun hy => hbelow hi hy r

/-- Declared paths have a name, and only such as may name an attribute. -/
theorem PathTree.segment_of_declares (hp : h.Declares g p) : p ≠ [] ∧ ∀ s ∈ p, IsSegment s := by
  refine ⟨fun hno => not_declares_nil (hno ▸ hp), fun s hs => ?_⟩
  obtain ⟨q, t, rfl⟩ := List.append_of_mem hs
  have hs : h.Declares g (q ++ [s]) :=
    hp.of_isPrefix ⟨t, by simp⟩ (List.append_ne_nil_of_right_ne_nil q (List.cons_ne_nil s []))
  obtain ⟨i, hi⟩ := Option.isSome_iff_exists.1 (declares_concat_iff.1 hs)
  obtain ⟨x, hx, hi⟩ := itemBelow_eq_some_iff.1 hi
  exact ((ht.group q x hx).items s i hi).segment

/-- **The list of all paths has the declared ones, sorted.** -/
theorem PathTree.paths_eq {S : Finset (List String)} (hS : ∀ p, p ∈ S ↔ h.Declares g p) :
    h.paths g = Text.sortByUnits (S.toList.map Path.format) := by
  refine Text.sortByUnits_eq_of_perm ((List.perm_ext_iff_of_nodup (OrderedSet.nodup _) ?_).2 ?_)
  · refine List.Nodup.map_on (fun p hp q hq heq => ?_) S.nodup_toList
    obtain ⟨hpne, hpvalid⟩ := ht.segment_of_declares ((hS p).1 (Finset.mem_toList.1 hp))
    obtain ⟨hqne, hqvalid⟩ := ht.segment_of_declares ((hS q).1 (Finset.mem_toList.1 hq))
    exact Path.format_injOn hpvalid hqvalid hpne hqne heq
  · intro s
    rw [OrderedSet.mem_ofList, List.mem_map, List.mem_map]
    refine exists_congr fun p => and_congr_left fun _ => ?_
    rw [Finset.mem_toList, hS]
    exact ht.mem_pathsBelow _ (q := []) rfl (by omega) (fun y hy => absurd hy List.not_mem_nil) p

end Listing

end AttributeGraph.Heap
