/-
What the list of all paths has.

`Lists` says what a path of a group is: the name of an attribute, inherited or
not, and behind it maybe a path of a group that is nested for its value.  The
listing goes down these ways and turns back where it would enter a group again,
so it has all of them only where this does not happen.  In a tree that is
`Listable` it does not.  The super group of a nested group is nested beside it, so
entering a group that is nested in an inherited attribute leads down as far as
entering one of the group's own (`Listable.nests_of_enters`), and no group is
nested in itself.

Two groups list the same paths where attributes, nested groups and super groups
of one are related to those of the other (`paths_eq_of_follows`).
-/
import AttributeGraph.Heap.Listing
import AttributeGraph.Proofs.DottedText
import AttributeGraph.Proofs.Inheritance
import AttributeGraph.Proofs.Related

namespace AttributeGraph.Heap

variable {h h' : Heap} {g s w x y z : GroupId} {l : List GroupId} {i : ItemId} {n : String}

/-! ### Inherited attributes -/

/-- The nearest item of a name hides those further up. -/
theorem find?_itemsAlong (n : String) : (h.itemsAlong (g :: l)).find? n =
    ((h.group g).items.find? n).or ((h.itemsAlong l).find? n) :=
  OrderedMap.find?_foldl_entries _ _ n

/-- Every item along a chain is one of a group that is met. -/
theorem exists_of_mem_itemsAlong (hi : (h.itemsAlong l).find? n = some i) :
    ∃ s ∈ l, (h.group s).items.find? n = some i := by
  induction l with
  | nil => cases hi
  | cons g l ih =>
    rw [find?_itemsAlong, Option.or_eq_some_iff] at hi
    rcases hi with hi | ⟨-, hi⟩
    · exact ⟨g, List.mem_cons_self, hi⟩
    · obtain ⟨s, hs, hi⟩ := ih hi
      exact ⟨s, List.mem_cons_of_mem g hs, hi⟩

theorem mem_valueGroups {x : Item} : w ∈ valueGroups x ↔ w ∈ x.value.groups := by
  rw [valueGroups, OrderedSet.mem_ofList, Slot.mem_groups, List.mem_append, Option.mem_toList,
    or_comm]

/-- The list of all paths has those that are met on the way down, in dotted form. -/
theorem mem_paths {t : String} :
    t ∈ h.paths g ↔ t ∈ (h.pathsBelow (h.groups.size + 2) [] g).map Path.format := by
  rw [paths, Text.sortByUnits, List.mem_mergeSort, OrderedSet.mem_ofList]

/-! ### The paths of a group -/

/-- A path of a group: the name of an attribute, inherited or not, and behind it maybe a path of a
group nested for its value. -/
inductive Lists (h : Heap) : GroupId → List String → Prop
  | name {g : GroupId} {n : String} {i : ItemId} (hi : (h.allItems g).find? n = some i) :
      Lists h g [n]
  | nested {g w : GroupId} {n : String} {i : ItemId} {p : List String}
      (hi : (h.allItems g).find? n = some i) (hw : w ∈ (h.item i).value.groups)
      (hp : Lists h w p) : Lists h g (n :: p)

/-- One group is entered from another one: it is nested for the value of an attribute, inherited or
not. -/
inductive Enters (h : Heap) : GroupId → GroupId → Prop
  | intro {g w : GroupId} {n : String} {i : ItemId} (hi : (h.allItems g).find? n = some i)
      (hw : w ∈ (h.item i).value.groups) : Enters h g w

theorem lists_cons_iff {p : List String} : h.Lists g (n :: p) ↔
    ∃ i, (h.allItems g).find? n = some i ∧
      (p = [] ∨ ∃ w ∈ (h.item i).value.groups, h.Lists w p) := by
  constructor
  · intro hp
    cases hp with
    | name hi => exact ⟨_, hi, .inl rfl⟩
    | nested hi hw hp => exact ⟨_, hi, .inr ⟨_, hw, hp⟩⟩
  · rintro ⟨i, hi, rfl | ⟨w, hw, hp⟩⟩
    · exact .name hi
    · exact .nested hi hw hp

theorem not_lists_nil : ¬ h.Lists g [] := by
  intro hp
  cases hp

/-- What a group that is not on the way lists. -/
theorem cons_mem_pathsBelow {fuel : Nat} {onPath : List GroupId} {p : List String}
    (hnew : g ∉ onPath) : n :: p ∈ h.pathsBelow (fuel + 1) onPath g ↔
    ∃ i, (h.allItems g).find? n = some i ∧
      (p = [] ∨ ∃ w ∈ (h.item i).value.groups, p ∈ h.pathsBelow fuel (g :: onPath) w) := by
  rw [pathsBelow, if_neg hnew, List.mem_flatMap]
  constructor
  · rintro ⟨⟨m, i⟩, he, hp⟩
    have hi := OrderedMap.find?_eq_some_iff.2 he
    rcases List.mem_cons.1 hp with heq | hp
    · obtain ⟨rfl, rfl⟩ := List.cons.inj heq
      exact ⟨i, hi, .inl rfl⟩
    · obtain ⟨q, hq, heq⟩ := List.mem_map.1 hp
      obtain ⟨rfl, rfl⟩ := List.cons.inj heq
      obtain ⟨w, hw, hq⟩ := List.mem_flatMap.1 hq
      exact ⟨i, hi, .inr ⟨w, mem_valueGroups.1 hw, hq⟩⟩
  · rintro ⟨i, hi, hp⟩
    refine ⟨(n, i), OrderedMap.find?_eq_some_iff.1 hi, ?_⟩
    rcases hp with rfl | ⟨w, hw, hp⟩
    · exact List.mem_cons_self
    · refine List.mem_cons_of_mem _ (List.mem_map_of_mem (List.mem_flatMap.2 ⟨w, ?_, hp⟩))
      exact mem_valueGroups.2 hw

theorem nil_not_mem_pathsBelow (fuel : Nat) (onPath : List GroupId) :
    [] ∉ h.pathsBelow fuel onPath g := by
  cases fuel with
  | zero => exact List.not_mem_nil
  | succ fuel =>
    rw [pathsBelow]
    by_cases hg : g ∈ onPath
    · rw [if_pos hg]
      exact List.not_mem_nil
    · simp [if_neg hg]

/-- A group that has attributes, inherited or not, is a group of the heap. -/
theorem hasGroup_of_allItems (hi : (h.allItems g).find? n = some i) : h.HasGroup g := by
  by_contra hno
  have htop : (h.group g).above = none := by
    rw [group_of_not_hasGroup hno]
  rw [allItems, (Supers.top htop).superChain_eq, find?_itemsAlong, group_of_not_hasGroup hno] at hi
  cases hi

theorem Enters.hasGroup (hgw : h.Enters g w) : h.HasGroup g := by
  obtain ⟨hi, -⟩ := hgw
  exact hasGroup_of_allItems hi

/-- **The listing has exactly the paths**, below groups on the way each of which leads further down,
where no group that can be entered is entered from itself. -/
theorem mem_pathsBelow_iff
    (hacyclic : ∀ x, Relation.ReflTransGen h.Enters g x → ¬ Relation.TransGen h.Enters x x) :
    ∀ (fuel : Nat) (onPath : List GroupId) (x : GroupId) (p : List String),
      Relation.ReflTransGen h.Enters g x → (∀ m ∈ onPath, Relation.TransGen h.Enters m x) →
      onPath.Nodup → h.groups.size < fuel + onPath.length →
      (p ∈ h.pathsBelow fuel onPath x ↔ h.Lists x p) := by
  intro fuel
  induction fuel with
  | zero =>
    intro onPath x p _ hpath hnodup hlt
    have hin : ∀ m ∈ onPath, h.HasGroup m := by
      intro m hm
      obtain ⟨w, hmw, -⟩ := Relation.TransGen.head'_iff.1 (hpath m hm)
      exact hmw.hasGroup
    have := length_le_of_nodup hnodup hin
    omega
  | succ fuel ih =>
    intro onPath x p hx hpath hnodup hlt
    have hnew : x ∉ onPath := fun hmem => hacyclic x hx (hpath x hmem)
    cases p with
    | nil => exact iff_of_false (nil_not_mem_pathsBelow _ _) not_lists_nil
    | cons n p =>
      rw [cons_mem_pathsBelow hnew, lists_cons_iff]
      refine exists_congr fun i => and_congr_right fun hi => or_congr_right ?_
      refine exists_congr fun w => and_congr_right fun hw => ?_
      -- one level down, the group itself is on the way too
      have hxw : h.Enters x w := .intro hi hw
      refine ih (x :: onPath) w p (hx.tail hxw) ?_ (List.nodup_cons.2 ⟨hnew, hnodup⟩) ?_
      · exact List.forall_mem_cons.2 ⟨.single hxw, fun m hm => (hpath m hm).tail hxw⟩
      · rw [List.length_cons]
        omega

/-! ### Trees that can be listed -/

/-- Climbing from the groups of a tree comes to an end and stays in the tree: the root has no super
group, and that of a nested group is nested beside it.  No group of the tree is nested in itself. -/
structure Listable (h : Heap) (g : GroupId) : Prop where
  top : (h.group g).above = none
  ends : ∀ x, h.Within g x → h.EndsAbove x
  beside : ∀ x y s, h.Within g x → h.Nests x y → (h.group y).above = some s → h.Nests x s
  acyclic : h.Acyclic g

namespace Listable

variable (hg : h.Listable g)

include hg

/-- All groups above a nested group are nested beside it. -/
theorem nests_of_mem (hx : h.Within g x) (hy : h.Nests x y) (hl : h.Supers y l) :
    ∀ s ∈ l, h.Nests x s := by
  induction hl with
  | top => exact List.forall_mem_singleton.2 hy
  | step hs _ ih => exact List.forall_mem_cons.2 ⟨hy, ih (hg.beside x _ _ hx hy hs)⟩

/-- All groups above a group of the tree are in the tree. -/
theorem within_of_mem (hx : h.Within g x) (hl : h.Supers x l) (hs : s ∈ l) : h.Within g s := by
  rcases Relation.ReflTransGen.cases_tail hx with rfl | ⟨w, hw, hwx⟩
  · obtain rfl := hl.unique (.top hg.top)
    rw [List.mem_singleton.1 hs]
    exact .refl
  · exact hw.tail (hg.nests_of_mem hw hwx hl s hs)

/-- A group that is entered is nested in the one that it is entered from, or in one above that. -/
theorem exists_of_enters (hx : h.Within g x) (hxw : h.Enters x w) :
    ∃ l, h.Supers x l ∧ ∃ s ∈ l, h.Nests s w := by
  obtain ⟨l, hl⟩ := hg.ends x hx
  obtain ⟨hi, hw⟩ := hxw
  rw [allItems, hl.superChain_eq] at hi
  obtain ⟨s, hs, hi⟩ := exists_of_mem_itemsAlong hi
  exact ⟨l, hl, s, hs, .value, mem_itemIds_of_find? hi, hw⟩

theorem within_of_enters (hx : h.Within g x) (hxw : h.Enters x w) : h.Within g w := by
  obtain ⟨l, hl, s, hs, hsw⟩ := hg.exists_of_enters hx hxw
  exact (hg.within_of_mem hx hl hs).tail hsw

theorem within_of_reached (hx : Relation.ReflTransGen h.Enters g x) : h.Within g x := by
  induction hx with
  | refl => exact .refl
  | tail _ hstep ih => exact hg.within_of_enters ih hstep

/-- **Entering groups leads down**: a group that is entered some steps further lies below the group
at the start, or below one above that. -/
theorem nests_of_enters (hx : h.Within g x) (hxw : Relation.TransGen h.Enters x w) :
    ∃ l, h.Supers x l ∧ ∃ s ∈ l, Relation.TransGen h.Nests s w := by
  induction hxw with
  | single hxw =>
    obtain ⟨l, hl, s, hs, hsw⟩ := hg.exists_of_enters hx hxw
    exact ⟨l, hl, s, hs, .single hsw⟩
  | tail _ hwz ih =>
    -- the next group is nested in one that lies as far down as the last one
    obtain ⟨l, hl, s, hs, hsw⟩ := ih
    obtain ⟨p, hsp, hpw⟩ := Relation.TransGen.tail'_iff.1 hsw
    have hp : h.Within g p := (hg.within_of_mem hx hl hs).trans hsp
    obtain ⟨l', hl', t, ht, htz⟩ := hg.exists_of_enters (hp.tail hpw) hwz
    have hpt := hg.nests_of_mem hp hpw hl' t ht
    exact ⟨l, hl, s, hs, .tail (.tail' hsp hpt) htz⟩

/-- No group of the tree can be entered from itself. -/
theorem not_enters_self (hx : h.Within g x) : ¬ Relation.TransGen h.Enters x x := by
  intro hcycle
  obtain ⟨l, hl, s, hs, hsx⟩ := hg.nests_of_enters hx hcycle
  obtain ⟨p, hsp, hpx⟩ := Relation.TransGen.tail'_iff.1 hsx
  have hin := hg.within_of_mem hx hl hs
  have hps := hg.nests_of_mem (hin.trans hsp) hpx hl s hs
  exact hg.acyclic s hin (.tail' hsp hps)

/-- **The list of all paths has exactly the paths.** -/
theorem mem_paths_iff (t : String) : t ∈ h.paths g ↔ ∃ p, h.Lists g p ∧ Path.format p = t := by
  have hpaths := mem_pathsBelow_iff fun x hx => hg.not_enters_self (hg.within_of_reached hx)
  rw [mem_paths, List.mem_map]
  refine exists_congr fun p => and_congr_left fun _ => ?_
  exact hpaths _ [] g p .refl (fun m hm => absurd hm List.not_mem_nil) List.nodup_nil (by
    rw [List.length_nil]
    omega)

end Listable

/-! ### Related trees -/

/-- What one group lists, a related one lists: they have attributes of the same names, every group
nested for the value of an attribute is related to one nested there, and the super groups are
related. -/
structure Follows (h h' : Heap) (R : GroupId → GroupId → Prop) : Prop where
  ends : ∀ x z, R x z → h.EndsAbove x
  items : ∀ x z, R x z → ∀ n, Option.Rel
    (fun i j => ∀ v ∈ (h.item i).value.groups, ∃ w ∈ (h'.item j).value.groups, R v w)
    ((h.group x).items.find? n) ((h'.group z).items.find? n)
  above : ∀ x z, R x z → Option.Rel R (h.group x).above (h'.group z).above

namespace Follows

variable {R : GroupId → GroupId → Prop} (hR : Follows h h' R)

include hR

/-- Related groups have attributes of the same names, inherited ones included. -/
theorem allItems (hxz : R x z) (n : String) : Option.Rel
    (fun i j => ∀ v ∈ (h.item i).value.groups, ∃ w ∈ (h'.item j).value.groups, R v w)
    ((h.allItems x).find? n) ((h'.allItems z).find? n) := by
  obtain ⟨l, hl⟩ := hR.ends x z hxz
  obtain ⟨l', hl', hall⟩ := hl.exists_related hR.above hxz
  rw [Heap.allItems, hl.superChain_eq, Heap.allItems, hl'.superChain_eq]
  clear hl hl' hxz
  induction hall with
  | nil => exact .none
  | cons hst _ ih =>
    rw [find?_itemsAlong, find?_itemsAlong]
    exact rel_or (hR.items _ _ hst n) ih

/-- What a group lists, a related one lists. -/
theorem lists {p : List String} (hp : h.Lists x p) (hxz : R x z) : h'.Lists z p := by
  induction hp generalizing z with
  | name hi =>
    obtain ⟨j, hj, -⟩ := exists_left_of_rel (rel_swap (hR.allItems hxz _)) hi
    exact .name hj
  | nested hi hw _ ih =>
    obtain ⟨j, hj, hij⟩ := exists_left_of_rel (rel_swap (hR.allItems hxz _)) hi
    obtain ⟨w', hw', hR'⟩ := hij _ hw
    exact .nested hj hw' (ih hR')

end Follows

/-- **Related groups have the same list of paths.** -/
theorem paths_eq_of_follows {R : GroupId → GroupId → Prop} (hg : h.Listable g)
    (hz : h'.Listable z) (hforth : Follows h h' R) (hback : Follows h' h fun z x => R x z)
    (hgz : R g z) : h'.paths z = h.paths g := by
  refine Text.sortByUnits_eq_of_perm ((List.perm_ext_iff_of_nodup (OrderedSet.nodup _)
    (OrderedSet.nodup _)).2 fun t => ?_)
  have hleft := hg.mem_paths_iff t
  have hright := hz.mem_paths_iff t
  rw [paths, Text.sortByUnits, List.mem_mergeSort] at hleft hright
  rw [hleft, hright]
  refine exists_congr fun p => and_congr_left fun _ => ?_
  exact ⟨fun hp => hback.lists hp hgz, fun hp => hforth.lists hp hgz⟩

end AttributeGraph.Heap
