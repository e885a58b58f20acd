/-
Reading one name.

There are five ways to ask for an attribute by its name alone.  Two of them take the
name for a path and go from a group to its super group, two climb for the name
itself, and the fifth builds the map of all items from the top down.  A name is a
path of one segment, so no walk is blocked on the way: a group has the name or it
lacks it (`resolveAlong_name`).  Along every chain the search from below therefore
finds what is filed last from above, and the readers agree (`name_readers_agree`).

The names are in one order, too.  A group puts the names that it does not inherit
behind those that it does, whether names are collected or items are filed
(`keys_itemsAlong`).
-/
import AttributeGraph.Heap.Edit
import AttributeGraph.Proofs.Levels

namespace AttributeGraph

namespace Heap

variable {h : Heap} {g s : GroupId} {l : List GroupId} {n : String}

/-! ### One name along a chain -/

/-- The search for a name finds the item that is filed last. -/
theorem resolveAlong_name (hn : ∀ s ∈ [n], IsSegment s) :
    h.resolveAlong ⟨n, [], hn⟩ l = (h.itemsAlong l).find? n := by
  induction l with
  | nil => rfl
  | cons g l ih =>
    rw [resolveAlong, find?_itemsAlong, locate]
    cases hi : (h.group g).items.find? n with
    | none => exact ih
    | some i => rfl

theorem contains_itemsAlong (n : String) : (h.itemsAlong (g :: l)).contains n =
    ((h.group g).items.contains n || (h.itemsAlong l).contains n) := by
  rw [OrderedMap.contains, find?_itemsAlong, Option.isSome_or]
  rfl

/-- A name is known as a path where it is filed. -/
theorem containsAlong_name (hn : ∀ s ∈ [n], IsSegment s) :
    h.containsAlong ⟨n, [], hn⟩ l = (h.itemsAlong l).contains n := by
  induction l with
  | nil => rfl
  | cons g l ih =>
    -- whatever the groups above have is filed here as well
    have habove : (h.itemsAlong (g :: l)).contains n =
        ((h.itemsAlong (g :: l)).contains n || (h.itemsAlong l).contains n) := by
      rw [contains_itemsAlong, Bool.or_assoc, Bool.or_self]
    rw [containsAlong, resolveAlong_name, ih]
    exact habove.symm

/-- A name is declared on a chain where it is filed. -/
theorem any_contains (n : String) :
    (l.any fun x => (h.group x).items.contains n) = (h.itemsAlong l).contains n := by
  induction l with
  | nil => rfl
  | cons g l ih => rw [List.any_cons, ih, contains_itemsAlong]

/-! ### The order of the names -/

/-- A group has its inherited names first, and then its own ones that it does not inherit. -/
theorem keys_itemsAlong : (h.itemsAlong (g :: l)).keys = (h.itemsAlong l).keys ++
    (h.group g).items.keys.filter (· ∉ (h.itemsAlong l).keys) :=
  OrderedMap.keys_foldl_entries _ _

/-- Names are collected in the order in which items are filed. -/
theorem toList_namesAlong : (h.namesAlong l).toList = (h.itemsAlong l).keys := by
  induction l with
  | nil => rfl
  | cons g l ih => exact OrderedMap.toList_foldl_keys (h.group g).items.entries ih

theorem names_eq_keys (h : Heap) (g : GroupId) : h.names g = (h.allItems g).keys :=
  toList_namesAlong

/-- A group with a super group puts the names that it does not inherit last. -/
theorem names_of_above (hg : h.EndsAbove g) (hs : (h.group g).above = some s) :
    h.names g = h.names s ++ (h.group g).items.keys.filter (· ∉ h.names s) := by
  obtain ⟨l, hl⟩ := (endsAbove_iff hs).1 hg
  rw [names_eq_keys, names_eq_keys, allItems, allItems, hl.superChain_eq,
    (Supers.step hs hl).superChain_eq]
  exact keys_itemsAlong

theorem names_of_top (hg : (h.group g).above = none) : h.names g = (h.group g).items.keys := by
  rw [names_eq_keys, allItems, (Supers.top hg).superChain_eq, keys_itemsAlong]
  exact List.filter_eq_self.2 fun _ _ => rfl

/-! ### The readers -/

/-- **The readers of one name agree.**  The name leads to the item that all items have under it.
It is known as a path, declared on the chain and among the names exactly if all items have it.  The
names are those of all items, in the same order: first those of the super group, in its order, and
then the own ones that are not inherited. -/
theorem name_readers_agree (hg : h.EndsAbove g) (hn : IsSegment n) :
    h.reachItem g (.text n) false = .ok ((h.allItems g).find? n, h) ∧
    (∃ p, Path.parse (.text n) = .ok p ∧
      (h.hasPath g p = true ↔ ((h.allItems g).find? n).isSome = true)) ∧
    (h.hasName g n = true ↔ ((h.allItems g).find? n).isSome = true) ∧
    (n ∈ h.names g ↔ ((h.allItems g).find? n).isSome = true) ∧
    h.names g = (h.allItems g).keys ∧
    h.names g = match (h.group g).above with
      | none => (h.group g).items.keys
      | some s => h.names s ++ (h.group g).items.keys.filter (· ∉ h.names s) := by
  have hparse := Path.parse_of_isSegment hn
  have hvalid : ∀ s ∈ [n], IsSegment s := List.forall_mem_singleton.2 hn
  have hitem : h.itemAt? g ⟨n, [], hvalid⟩ = (h.allItems g).find? n := resolveAlong_name hvalid
  have hpath : h.hasPath g ⟨n, [], hvalid⟩ = (h.allItems g).contains n := containsAlong_name hvalid
  have hname : h.hasName g n = (h.allItems g).contains n := any_contains n
  refine ⟨?_, ⟨_, hparse, by rw [hpath]; rfl⟩, by rw [hname]; rfl, ?_, names_eq_keys h g, ?_⟩
  · rw [reachItem, hparse, ← hitem]
    rfl
  · rw [names_eq_keys]
    exact ((h.allItems g).contains_iff n).symm
  · cases hs : (h.group g).above with
    | none => exact names_of_top hs
    | some s => exact names_of_above hg hs

/-- The lowest of the three levels inherits the home of the middle one, which overrides that of the
base, and has its own rank last. -/
theorem name_readers_agree_tiers :
    tiers.EndsAbove ⟨4⟩ ∧ IsSegment "home" ∧
    tiers.reachItem ⟨4⟩ (.text "home") false = .ok (some ⟨2⟩, tiers) ∧
    tiers.hasName ⟨4⟩ "home" = true ∧ tiers.names ⟨4⟩ = ["home", "rank"] := by
  have hends : tiers.EndsAbove ⟨4⟩ := ⟨[⟨4⟩, ⟨3⟩, ⟨0⟩], .step rfl (.step rfl (.top rfl))⟩
  have hsegment : IsSegment "home" := by decide
  obtain ⟨hitem, -, hname, -, hnames, -⟩ := name_readers_agree hends hsegment
  exact ⟨hends, hsegment, hitem, hname.2 rfl, hnames.trans rfl⟩

end Heap

end AttributeGraph
