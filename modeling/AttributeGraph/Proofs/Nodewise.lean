/-
Copying by plan and copying node by node come to the same.

A group or an item that is being copied is singled out until all of its links have been written
(`GroupFrame`, `ItemFrame`): nothing that is called in the meantime changes it, so what it is in the
end is what has been written to it, and that is what the plan says.  By induction on the depth a
call for a group serves the task of meeting it (`copiesGroups_copyGroup`), and the call for the
root, made in the heap itself, ends with the heap and the answer of `copyFor`.

A group files an item under the name that the item has, so items have to be filed under their names
in the first place.
-/
import AttributeGraph.Proofs.HalfBuilt

namespace AttributeGraph

open Copying

namespace Heap

variable {h : Heap} {f : Factory}

namespace Layout

variable {l : Layout h f} {n : Nat} {p q r r' : CopyPlan} {s s' s'' : Copies} {g : GroupId}
  {i : ItemId} {known : List ItemId} {X : ItemId → Prop} {α : Type} {m : Copying α} {a : α}
  {ts : List CopyTask}

/-! ### A group being copied -/

/-- Since a copy of the group has been made, it has been changed to `y`, and nothing else that was
there before has been changed. -/
structure GroupFrame (l : Layout h f) (g : GroupId) (p : CopyPlan) (s : Copies) (r : CopyPlan)
    (s' : Copies) (y : Group) : Prop where
  fresh : ¬ s.heap.HasGroup (l.group g)
  grown : l.Grown (· = l.group g) Nothing Nothing p s r s'
  met : g ∈ r.groups
  record : s'.heap.group (l.group g) = y

namespace GroupFrame

variable {y : Group} (hr : l.GroupFrame g p s r s' y)

include hr

theorem trans (hgrown : l.Grown Nothing Nothing Nothing r s' r' s'') :
    l.GroupFrame g p s r' s'' y where
  fresh := hr.fresh
  grown := hr.grown.trans hgrown fun _ hno => hno
  met := hgrown.plan.groups.subset hr.met
  record := by
    rw [hgrown.fills.group _ (hr.grown.tracks.hasGroup hr.met) id, hr.record]

/-- What else is called does not change the group. -/
theorem serve (hm : l.Serves n m ts known a) (hr' : explore h.copyStep n r ts = some r')
    (hplanned : l.Planned r') (hknown : known ⊆ r.items) :
    l.Follows m s' r' a fun s'' => l.GroupFrame g p s r' s'' y :=
  (hm r s' r' hr' hplanned hr.grown.tracks hknown).mono fun _ hgrown => hr.trans hgrown

theorem edit (change : Group → Group) :
    l.Follows (editGroup (l.group g) change) s' r ⟨⟩ fun s'' =>
      l.GroupFrame g p s r s'' (change y) := by
  refine .modify hr.grown.tracks ⟨hr.fresh, ?_, hr.met, ?_⟩
  · exact
      { plan := hr.grown.plan
        tracks := hr.grown.tracks.alterGroup _ _
        fills := hr.grown.fills.alterGroup rfl _
        owners := hr.grown.owners }
  · rw [group_alterGroup_self (hr.grown.tracks.hasGroup hr.met), hr.record]

/-- A group that is as it is laid out need not be singled out any longer. -/
theorem close (hy : l.goal.group (l.group g) = y) : l.Grown Nothing Nothing Nothing p s r s' :=
  { hr.grown with fills := hr.grown.fills.closeGroup hr.fresh (hr.record.trans hy.symm) }

end GroupFrame

/-- The place of a group that has not been met. -/
theorem getElem?_next (hplanned : (g :: p.groups).reverse <+: l.plan.groups) :
    l.plan.groups[p.groups.length]? = some g := by
  obtain ⟨rest, hrest⟩ := hplanned
  rw [← hrest, List.reverse_cons, List.append_assoc, List.getElem?_append_right (by simp)]
  simp

/-- What is issued next is for the group that is met next. -/
theorem fst_issued_next (hplanned : (g :: p.groups).reverse <+: l.plan.groups)
    (hlt : p.groups.length < l.issued.length) : l.issued[p.groups.length].1 = g := by
  have hmap : (l.issued.map Prod.fst)[p.groups.length]? = some l.issued[p.groups.length].1 := by
    rw [List.getElem?_map, List.getElem?_eq_getElem hlt, Option.map_some]
  obtain ⟨rest, hrest⟩ := l.inOrder
  have hplan := getElem?_next hplanned
  rw [← hrest, List.getElem?_append_left (by simpa using hlt), hmap] at hplan
  exact Option.some.inj hplan

/-- A copy that has just been made is singled out. -/
theorem groupFrame_allocIssued (ht : l.Tracks p s) (hg : g ∉ p.groups)
    (hplanned : l.Planned { p with groups := g :: p.groups })
    (hlt : p.groups.length < l.issued.length) (x : Group) :
    l.GroupFrame g p s { p with groups := g :: p.groups }
      { s with
        heap := (s.heap.allocIssued x l.issued[p.groups.length].2).2
        groups := (g, l.group g) :: s.groups }
      { x with variant := (l.upTo p.groups.length).addressOf l.issued[p.groups.length].2 } := by
  have hnext := ht.group_next hg hplanned
  refine ⟨by simp [hnext, HasGroup], ?_, List.mem_cons_self, ?_⟩
  · refine ⟨⟨List.suffix_cons _ _, List.suffix_refl _⟩, ht.addGroup hplanned hlt x, ?_,
      fun i hi _ hset => ?_⟩
    · rw [hnext]
      exact .allocIssued _ _ _ _
    · rw [OwnerSet, item_allocIssued]
      exact hset hi
  · rw [hnext, group_allocIssued_self, addressOf_congr ht.variants]

/-- A group that has not been met is copied without its links, or refused. -/
theorem follows_addGroup (ht : l.Tracks p s) (hg : g ∉ p.groups)
    (hplanned : l.Planned { p with groups := g :: p.groups }) :
    l.Follows (addGroup h f g) s { p with groups := g :: p.groups } (l.group g) fun s' =>
      ∃ v, l.goal.group (l.group g) = h.relocateGroup l.plan g v ∧
        l.GroupFrame g p s { p with groups := g :: p.groups } s'
          { h.unlinked g with variant := v } := by
  by_cases hlt : p.groups.length < l.issued.length
  · have hissue : f.issue h g = .ok l.issued[p.groups.length].2 := by
      have := l.issue _ (List.getElem_mem hlt)
      rwa [fst_issued_next hplanned.groups hlt] at this
    have hlaid := l.group_goal hlt
    rw [fst_issued_next hplanned.groups hlt, ← l.group_next hplanned.groups hg] at hlaid
    refine .ok hlt ?_ ⟨_, hlaid, groupFrame_allocIssued ht hg hplanned hlt _⟩
    rw [addGroup, hissue, ht.group_next hg hplanned, ← allocIssued_fst]
    rfl
  · have hlen : p.groups.length = l.issued.length :=
      Nat.le_antisymm ht.supplied (Nat.le_of_not_lt hlt)
    obtain ⟨hfirst, hcause⟩ := l.refused g (hlen ▸ getElem?_next hplanned.groups)
    refine .error (Nat.lt_succ_of_le (Nat.le_of_eq hlen.symm)) ?_
    rw [addGroup, hcause, hfirst]
    rfl

/-! ### An item being copied -/

/-- Since a copy of the item has been made, it has been changed to `y`, but perhaps for its owner,
and nothing else that was there before has been changed. -/
structure ItemFrame (l : Layout h f) (i : ItemId) (X : ItemId → Prop) (p : CopyPlan) (s : Copies)
    (r : CopyPlan) (s' : Copies) (y : Item) : Prop where
  fresh : ¬ s.heap.HasItem (l.item i)
  grown : l.Grown Nothing (· = l.item i) X p s r s'
  met : i ∈ r.items
  record : (s'.heap.item (l.item i)).Like y

namespace ItemFrame

variable {y : Item} (hr : l.ItemFrame i X p s r s' y)

include hr

theorem trans (hgrown : l.Grown Nothing Nothing Nothing r s' r' s'') :
    l.ItemFrame i X p s r' s'' y where
  fresh := hr.fresh
  grown := hr.grown.trans hgrown fun _ hno => hno.elim
  met := hgrown.plan.items.subset hr.met
  record := (hgrown.fills.item _ (hr.grown.tracks.hasItem hr.met) id).trans hr.record

/-- What else is called does not change the item. -/
theorem serve (hm : l.Serves n m ts known a) (hr' : explore h.copyStep n r ts = some r')
    (hplanned : l.Planned r') (hknown : known ⊆ r.items) :
    l.Follows m s' r' a fun s'' => l.ItemFrame i X p s r' s'' y :=
  (hm r s' r' hr' hplanned hr.grown.tracks hknown).mono fun _ hgrown => hr.trans hgrown

theorem edit (side : Side) (change : Slot → Slot) :
    l.Follows (editItem (l.item i) (Item.mapSlot side change)) s' r ⟨⟩ fun s'' =>
      l.ItemFrame i X p s r s'' (y.mapSlot side change) := by
  refine .modify hr.grown.tracks ⟨hr.fresh, ?_, hr.met, ?_⟩
  · exact
      { plan := hr.grown.plan
        tracks := hr.grown.tracks.alterItem _ (Item.name_mapSlot side change)
        fills := hr.grown.fills.alterItem (.inl rfl)
        owners := fun j hj hX hset => by
          rw [OwnerSet, item_alterItem_field Item.owner (Item.owner_mapSlot side change)]
          exact hr.grown.owners j hj hX hset }
  · rw [item_alterItem_self (hr.grown.tracks.hasItem hr.met)]
    exact hr.record.mapSlot side change

/-- An item that is as it is laid out need not be singled out any longer. -/
theorem close (hy : y.Like (l.goal.item (l.item i))) : l.Grown Nothing Nothing X p s r s' :=
  { hr.grown with fills := hr.grown.fills.closeItem hr.fresh (hr.record.trans hy) }

end ItemFrame

/-- A copy that has just been made is singled out; it has the right owner if that is the copy of the
owner. -/
theorem itemFrame_allocItem (ht : l.Tracks p s) (hi : i ∉ p.items)
    (hplanned : l.Planned { p with items := i :: p.items }) (owner : GroupId) :
    l.ItemFrame i (fun j => j = i ∧ owner ≠ l.group (h.item i).owner) p s
      { p with items := i :: p.items }
      { s with
        heap := (s.heap.allocItem { name := (h.item i).name, owner }).2
        items := (i, l.item i) :: s.items }
      { name := (h.item i).name, owner } := by
  have hnext : l.item i = (s.heap.allocItem { name := (h.item i).name, owner }).1 :=
    ht.item_next hi hplanned
  refine ⟨by simp [hnext, HasItem, allocItem], ?_, List.mem_cons_self, ?_⟩
  · refine ⟨⟨List.suffix_refl _, List.suffix_cons _ _⟩, ht.addItem hi hplanned owner, ?_, ?_⟩
    · rw [hnext]
      exact .allocItem _ _ _
    · refine List.forall_mem_cons.2 ⟨fun howner _ => ?_, fun j hj _ hset => ?_⟩
      · have heq : owner = l.group (h.item i).owner := by simpa using howner
        rw [OwnerSet, ht.lookup_filed hi, Option.getD_none, hnext, item_allocItem_self, heq]
      · rw [OwnerSet, item_allocItem_of_hasItem (ht.hasItem hj)]
        exact hset hj
  · rw [hnext, item_allocItem_self]
    exact .refl _

/-- An item that has not been met is copied without its nested groups. -/
theorem follows_addItem (ht : l.Tracks p s) (hi : i ∉ p.items)
    (hplanned : l.Planned { p with items := i :: p.items }) (owner : GroupId) :
    l.Follows (addItem h i owner) s { p with items := i :: p.items } (l.item i) fun s' =>
      l.ItemFrame i (fun j => j = i ∧ owner ≠ l.group (h.item i).owner) p s
        { p with items := i :: p.items } s' { name := (h.item i).name, owner } := by
  refine .ok ht.supplied ?_ (itemFrame_allocItem ht hi hplanned owner)
  rw [ht.item_next hi hplanned]
  rfl

/-! ### Calls for groups and items -/

/-- Calls for groups serve the tasks of meeting them; a group that is told about the copy of its
parent is nested in an item that has been met. -/
def CopiesGroups (l : Layout h f) (n : Nat)
    (copy : GroupId → Option ItemId → Copying GroupId) : Prop :=
  ∀ g parent known, (∀ made ∈ parent, ∃ i ∈ known, (h.group g).nestedIn = some i ∧
    made = l.item i) → l.Serves n (copy g parent) [.group g] known (l.group g)

variable {copy : GroupId → Option ItemId → Copying GroupId}

/-- Calls with what a group is told about its parent. -/
theorem CopiesGroups.told (hcopy : l.CopiesGroups n copy) (parent : Option ItemId) (g : GroupId) :
    l.Serves n (copy g (toldOf h parent (parent.map l.item) g)) [.group g] parent.toList
      (l.group g) := by
  refine hcopy g _ _ fun made hmade => ?_
  unfold toldOf at hmade
  split at hmade
  · next hin =>
    obtain ⟨i, rfl, rfl⟩ := Option.map_eq_some_iff.1 hmade
    exact ⟨i, List.mem_singleton_self i, hin, rfl⟩
  · cases hmade

section Nested

variable {call : GroupId → Copying GroupId}
  (hcall : ∀ g, l.Serves n (call g) [.group g] known (l.group g))

include hcall

/-- The call for a group that there may be. -/
theorem serves_optionGroup (o : Option GroupId) :
    l.Serves n (o.mapM call) (o.toList.map .group) known (o.map l.group) := by
  rw [List.map_eq_flatMap]
  exact .optionMapM _ fun g _ => hcall g

/-- Calls for the sub groups of a group. -/
theorem serves_below (x : Group) :
    l.Serves n (x.below.mapM fun s => do return OrderedSet.ofList (← s.toList.mapM call))
      (x.subs.map .group) known (x.below.map fun s => s.map l.group) := by
  have htasks : x.subs.map CopyTask.group =
      x.below.toList.flatMap fun s => s.toList.map .group := by
    rw [Group.subs]
    cases x.below with
    | none => rfl
    | some s => rw [Option.toList_some, List.flatMap_singleton]; rfl
  rw [htasks]
  refine .optionMapM _ fun s _ => ?_
  rw [← List.append_nil (s.toList.map _)]
  exact (Serves.mapM fun g _ => hcall g).bind (.pure _)

/-- Calls for the groups that a slot files per type. -/
theorem serves_byType (t : Slot) :
    l.Serves n (t.byType.mapM fun m => do
        return OrderedMap.ofList (← m.entries.mapM fun e => do return (e.1, ← call e.2)))
      (t.typed.map .group) known (t.byType.map fun m => m.mapValues l.group) := by
  have htasks : t.typed.map CopyTask.group =
      t.byType.toList.flatMap fun m => m.entries.map fun e => .group e.2 := by
    rw [Slot.typed]
    cases t.byType with
    | none => rfl
    | some m =>
      rw [Option.toList_some, List.flatMap_singleton, Option.map_some, Option.getD_some,
        OrderedMap.values, List.map_map]
      rfl
  rw [htasks]
  refine .optionMapM _ fun m _ => ?_
  rw [← List.append_nil (m.entries.map _), ← OrderedMap.ofList_mapValues m l.group]
  refine (Serves.mapM fun e _ => ?_).bind (.pure _)
  rw [bind_pure_comp]
  exact (hcall e.2).map _

variable {y : Item} (hr : l.ItemFrame i X p s r s' y) (hplanned : l.Planned r')
  (hknown : known ⊆ r.items)

include hr hplanned hknown

theorem ItemFrame.copyPrimary (x : Item) (side : Side)
    (hr' : explore h.copyStep n r ((x.slot side).primary.toList.map .group) = some r') :
    l.Follows (copyPrimary call x (l.item i) side) s' r' ⟨⟩ fun s'' =>
      l.ItemFrame i X p s r' s''
        (y.mapSlot side fun t => { t with primary := (x.slot side).primary.map l.group }) :=
  (hr.serve (serves_optionGroup hcall _) hr' hplanned hknown).bind (.refl _) fun _ hs =>
    hs.edit side _

theorem ItemFrame.copyTyped (x : Item) (side : Side)
    (hr' : explore h.copyStep n r ((x.slot side).typed.map .group) = some r') :
    l.Follows (copyTyped call x (l.item i) side) s' r' ⟨⟩ fun s'' =>
      l.ItemFrame i X p s r' s''
        (y.mapSlot side fun t =>
          { t with byType := (x.slot side).byType.map fun m => m.mapValues l.group }) :=
  (hr.serve (serves_byType hcall _) hr' hplanned hknown).bind (.refl _) fun _ hs =>
    hs.edit side _

end Nested

section Items

variable (hcopy : l.CopiesGroups n copy)

include hcopy

/-- When the groups nested in an item have been copied, its copy is as it is laid out. -/
theorem follows_fillItem {owner : GroupId}
    (hr : l.ItemFrame i X p s r s' { name := (h.item i).name, owner })
    (hq : explore h.copyStep n r (h.itemCopyTasks i) = some q) (hplanned : l.Planned q) :
    l.Follows (fillItem h copy i (l.item i)) s' q ⟨⟩ (l.Grown Nothing Nothing X p s q) := by
  rw [itemCopyTasks, List.map_append, List.map_append, List.map_append] at hq
  obtain ⟨r₃, hr₃, hq, hplanned₃, hext₃⟩ := exists_between hplanned hq
  obtain ⟨r₂, hr₂, hr₃, hplanned₂, hext₂⟩ := exists_between hplanned₃ hr₃
  obtain ⟨r₁, hr₁, hr₂, hplanned₁, hext₁⟩ := exists_between hplanned₂ hr₂
  have hknown : ∀ {r s' y}, l.ItemFrame i X p s r s' y → (some i).toList ⊆ r.items := by
    intro r s' y hr
    exact List.cons_subset.2 ⟨hr.met, List.nil_subset _⟩
  have hcall := hcopy.told (some i)
  refine (hr.copyPrimary hcall hplanned₁ (hknown hr) (h.item i) .value hr₁).bind
    (hext₁.trans (hext₂.trans hext₃)) fun s₁ hs₁ => ?_
  refine (hs₁.copyPrimary hcall hplanned₂ (hknown hs₁) (h.item i) .key hr₂).bind
    (hext₂.trans hext₃) fun s₂ hs₂ => ?_
  refine (hs₂.copyTyped hcall hplanned₃ (hknown hs₂) (h.item i) .value hr₃).bind hext₃
    fun s₃ hs₃ => ?_
  refine (hs₃.copyTyped hcall hplanned (hknown hs₃) (h.item i) .key hq).mono fun s₄ hs₄ => ?_
  have hi : i ∈ l.plan.items := hplanned.items.subset (List.mem_reverse.2 hs₄.met)
  refine hs₄.close ?_
  rw [goal, Layout.item, (item_pushCopies hi).2]
  exact ⟨rfl, fun side => by cases side <;> rfl⟩

theorem follows_makeItem (ht : l.Tracks p s) (hi : i ∉ p.items)
    (hq : explore h.copyStep n p [.item i] = some q) (hplanned : l.Planned q) (owner : GroupId) :
    l.Follows (makeItem h copy i owner) s q (l.item i)
      (l.Grown Nothing Nothing (fun j => j = i ∧ owner ≠ l.group (h.item i).owner) p s q) := by
  have hrest := explore_of_singleton hq
  rw [copyStep, if_neg hi] at hrest
  have hext := extends_of_explore hrest
  refine (follows_addItem ht hi (hplanned.of_extends hext) owner).bind hext fun s₁ hs₁ => ?_
  refine (follows_fillItem hcopy hs₁ hrest hplanned).bind (.refl q) fun s₂ hs₂ => ?_
  exact .pure hs₂.tracks hs₂

/-- An item that is copied for a group need not belong to it yet. -/
theorem follows_copyItem (ht : l.Tracks p s) (hq : explore h.copyStep n p [.item i] = some q)
    (hplanned : l.Planned q) (owner : GroupId) :
    l.Follows (copyItem h copy i (some owner)) s q (l.item i)
      (l.Grown Nothing Nothing (· = i) p s q) := by
  refine .get ?_
  rw [ht.lookup_item]
  by_cases hi : i ∈ p.items
  · rw [if_pos hi]
    exact follows_met ht (by rw [copyStep, if_pos hi]) hq
  · rw [if_neg hi]
    exact (follows_makeItem hcopy ht hi hq hplanned owner).mono fun _ hs =>
      hs.mono fun _ hj => hj.1

/-- Copying an item from a group nested in it serves the task of meeting its owner and the item. -/
theorem serves_copyItem (i : ItemId) :
    l.Serves n (copyItem h copy i none) [.owning i] known (l.item i) := by
  intro p s q hq hplanned ht hknown
  refine .get ?_
  rw [ht.lookup_item]
  by_cases hi : i ∈ p.items
  · rw [if_pos hi]
    exact follows_met ht (by rw [copyStep, if_pos hi]) hq
  · rw [if_neg hi]
    have hrest := explore_of_singleton hq
    rw [copyStep, if_neg hi] at hrest
    obtain ⟨r, hr, hq, hplanned', hext⟩ := exists_between_cons hplanned hrest
    have howner := hcopy (h.item i).owner none known fun made hmade =>
      absurd hmade (Option.not_mem_none made)
    refine (howner p s r hr hplanned' ht hknown).bind hext fun s₁ hs₁ => ?_
    refine .get ?_
    rw [hs₁.tracks.lookup_item]
    by_cases hir : i ∈ r.items
    · rw [if_pos hir]
      obtain rfl := eq_of_explore_done (by rw [copyStep, if_pos hir]) hq
      exact .pure hs₁.tracks hs₁
    · rw [if_neg hir]
      refine (follows_makeItem hcopy hs₁.tracks hir hq hplanned _).mono fun s₂ hs₂ => ?_
      exact hs₁.trans (hs₂.mono fun j hj => absurd rfl hj.2) fun _ hno => hno

/-- Copying the item that a group is nested in serves the task for it. -/
theorem serves_copyParent {parent : Option ItemId}
    (hparent : ∀ made ∈ parent, ∃ i ∈ known, (h.group g).nestedIn = some i ∧ made = l.item i) :
    l.Serves n (copyParent h copy g parent) ((h.group g).nestedIn.toList.map .owning) known
      ((h.group g).nestedIn.map l.item) := by
  cases parent with
  | none =>
    rw [List.map_eq_flatMap]
    exact .optionMapM _ fun i _ => serves_copyItem hcopy i
  | some made =>
    obtain ⟨i, hi, hin, rfl⟩ := hparent made rfl
    rw [hin]
    intro p s q hq hplanned ht hknown
    exact follows_met ht (by rw [copyStep, if_pos (hknown hi)]) hq

end Items

section Groups

variable {y : Group}

/-- An item that has been copied for a group is filed in its copy. -/
theorem GroupFrame.adopt (hr : l.GroupFrame g p s r s' y)
    (hgrown : l.Grown Nothing Nothing (· = i) r s' r' s'') (hi : i ∈ r'.items) :
    l.Follows (adopt (l.group g) (l.item i)) s'' { r' with filed := (i, g) :: r'.filed } ⟨⟩
      fun t => l.GroupFrame g p s { r' with filed := (i, g) :: r'.filed } t
        { y with items := y.items.insert (h.item i).name (l.item i) } := by
  have hfiled := hgrown.file hi g
  refine Follows.bind (.modify (hgrown.tracks.file hi g) rfl) (.refl _) fun t ht => ?_
  subst ht
  refine .get ?_
  rw [hfiled.tracks.names i hi]
  exact (hr.trans hfiled).edit _

/-- The items of a group that are filed under their names are filed in the same way by name. -/
theorem foldl_insert_itemIds {x : Group} (φ : ItemId → ItemId)
    (hnamed : ∀ e ∈ x.items.entries, (h.item e.2).name = e.1) :
    x.itemIds.foldl (fun m i => m.insert (h.item i).name (φ i)) .empty = x.items.mapValues φ := by
  rw [← OrderedMap.ofList_mapValues, OrderedMap.ofList, List.foldl_map, Group.itemIds,
    OrderedMap.values, List.foldl_map]
  refine List.foldl_ext _ _ _ fun m e he => ?_
  rw [hnamed e he]

variable (hcopy : l.CopiesGroups n copy)

include hcopy

/-- The items of a group are filed in its copy, one after the other. -/
theorem follows_copyItems (items : List ItemId) {r : CopyPlan} {s' : Copies} {y : Group}
    (hr : l.GroupFrame g p s r s' y)
    (hq : explore h.copyStep n r (items.flatMap fun i => [.item i, .file i g]) = some q)
    (hplanned : l.Planned q) :
    l.Follows (copyItems h copy items (l.group g)) s' q ⟨⟩ fun s'' =>
      l.GroupFrame g p s q s''
        { y with
          items := items.foldl (fun m i => m.insert (h.item i).name (l.item i)) y.items } := by
  induction items generalizing r s' y with
  | nil =>
    obtain rfl := eq_of_explore_nil hq
    exact .pure hr.grown.tracks hr
  | cons i items ih =>
    rw [List.flatMap_cons] at hq
    obtain ⟨r₂, hr₂, hq, hplanned₂, hext₂⟩ := exists_between hplanned hq
    obtain ⟨r₁, hr₁, hr₂, hplanned₁, hext₁⟩ := exists_between_cons hplanned₂ hr₂
    obtain rfl := eq_of_explore_nil (explore_of_singleton hr₂)
    have hi : i ∈ r₁.items :=
      (settled_of_explore hr₁ List.mem_cons_self).resolve_right List.not_mem_nil
    have hone := follows_copyItem hcopy hr.grown.tracks hr₁ hplanned₁ (l.group g)
    have hfiled := hone.bind hext₁ fun s₁ hs₁ => hr.adopt hs₁ hi
    rw [copyItems, List.forM_cons]
    exact hfiled.bind hext₂ fun s₂ hs₂ => ih hs₂ hq

/-- Copying what a group is linked to serves the tasks that follow from meeting it, and its copy is
linked to the copies of that. -/
theorem follows_fillGroup {parent : Option ItemId}
    (hparent : ∀ made ∈ parent, ∃ i ∈ known, (h.group g).nestedIn = some i ∧ made = l.item i)
    (hnamed : ∀ e ∈ (h.group g).items.entries, (h.item e.2).name = e.1) (hy : y.items = .empty)
    (hr : l.GroupFrame g p s r s' y) (hq : explore h.copyStep n r (h.groupCopyTasks g) = some q)
    (hplanned : l.Planned q) (hknown : known ⊆ r.items) :
    l.Follows (fillGroup h copy g parent (l.group g)) s' q ⟨⟩ fun s'' =>
      l.GroupFrame g p s q s''
        { y with
          nestedIn := (h.group g).nestedIn.map l.item
          above := (h.group g).above.map l.group
          below := (h.group g).below.map fun s => s.map l.group
          items := (h.group g).items.mapValues l.item } := by
  obtain ⟨r₃, hr₃, hq, hplanned₃, hext₃⟩ := exists_between hplanned hq
  obtain ⟨r₂, hr₂, hr₃, hplanned₂, hext₂⟩ := exists_between hplanned₃ hr₃
  obtain ⟨r₁, hr₁, hr₂, hplanned₁, hext₁⟩ := exists_between hplanned₂ hr₂
  have hparent₁ : (h.group g).nestedIn.toList ⊆ r₁.items := by
    intro i hi
    have := settled_of_explore hr₁ (List.mem_map_of_mem hi)
    simpa [Settled] using this
  have hparent₂ := List.Subset.trans hparent₁ (extends_of_explore hr₂).items.subset
  have hcall := hcopy.told (h.group g).nestedIn
  have hext₂ := hext₂.trans hext₃
  have hext₁ := hext₁.trans hext₂
  refine (hr.serve (serves_copyParent hcopy hparent) hr₁ hplanned₁ hknown).bind hext₁
    fun s₁ hs₁ => ?_
  refine (hs₁.edit _).bind hext₁ fun s₁ hs₁ => ?_
  refine (hs₁.serve (serves_optionGroup hcall _) hr₂ hplanned₂ hparent₁).bind hext₂
    fun s₂ hs₂ => ?_
  refine (hs₂.edit _).bind hext₂ fun s₂ hs₂ => ?_
  refine (hs₂.serve (serves_below hcall _) hr₃ hplanned₃ hparent₂).bind hext₃ fun s₃ hs₃ => ?_
  refine (hs₃.edit _).bind hext₃ fun s₃ hs₃ => ?_
  refine (follows_copyItems hcopy (h.group g).itemIds hs₃ hq hplanned).mono fun s₄ hs₄ => ?_
  simpa only [hy, foldl_insert_itemIds l.item hnamed] using hs₄

end Groups

/-- **A call for a group serves the task of meeting it**, if it may go deep enough to meet all that
follows. -/
theorem copiesGroups_copyGroup
    (hnamed : ∀ g ∈ l.plan.groups, ∀ e ∈ (h.group g).items.entries, (h.item e.2).name = e.1) :
    ∀ n, l.CopiesGroups n (copyGroup h f n) := by
  intro n
  induction n with
  | zero =>
    intro g parent known hparent p s q hq
    cases hq
  | succ n ih =>
    intro g parent known hparent p s q hq hplanned ht hknown
    refine .get ?_
    rw [ht.lookup_group]
    by_cases hg : g ∈ p.groups
    · rw [if_pos hg]
      exact follows_met ht (by rw [copyStep, if_pos hg]) hq
    · rw [if_neg hg]
      rw [explore, copyStep, if_neg hg, List.append_nil] at hq
      have hext := extends_of_explore hq
      refine (follows_addGroup ht hg (hplanned.of_extends hext)).bind hext fun s₁ hs₁ => ?_
      obtain ⟨v, hgoal, hs₁⟩ := hs₁
      have hplan : g ∈ l.plan.groups :=
        hplanned.groups.subset (List.mem_reverse.2 (hext.groups.subset List.mem_cons_self))
      refine (follows_fillGroup ih hparent (hnamed g hplan) rfl hs₁ hq hplanned hknown).bind
        (.refl q) fun s₂ hs₂ => ?_
      exact .pure hs₂.grown.tracks (hs₂.close hgoal)

/-! ### The end of the copying -/

section Finished

variable (hgrown : l.Grown Nothing Nothing Nothing {} { heap := h } p s)
  (hplan : l.plan =
    { groups := p.groups.reverse, items := p.items.reverse, filed := p.filed })
  (hall : l.issued.length = p.groups.length)

include hgrown hplan

/-- When no item is half built any longer, all of them are as they are laid out. -/
theorem item_of_grown {i : ItemId} (hi : s.heap.HasItem i) : s.heap.item i = l.goal.item i := by
  by_cases hold : h.HasItem i
  · rw [hgrown.tracks.source i hold, goal, item_pushCopies_of_hasItem hold]
  · have hk : i.index - h.items.size < p.items.reverse.length := by
      have hlt : i.index < h.items.size + p.items.length := hgrown.tracks.itemCount ▸ hi
      have hle : h.items.size ≤ i.index := Nat.le_of_not_lt hold
      rw [List.length_reverse]
      omega
    obtain ⟨j, hj, hij⟩ : ∃ j ∈ p.items, i = l.item j := by
      refine ⟨_, List.mem_reverse.1 (List.getElem_mem hk), ?_⟩
      have hnodup := List.nodup_reverse.2 hgrown.tracks.nodup
      rw [Layout.item, copyOfItem, hplan, hnodup.idxOf_getElem]
      exact congrArg ItemId.mk (Nat.add_sub_cancel' (Nat.le_of_not_lt hold)).symm
    have hlike := hgrown.fills.newItem i hold hi id
    have howner := hgrown.owners j hj id fun hno => absurd hno List.not_mem_nil
    have hgoal : l.goal.item i = h.relocateItem l.plan j := by
      rw [hij, goal, Layout.item, (item_pushCopies (by rw [hplan]; exact List.mem_reverse.2 hj)).2]
    refine hlike.eq_of_owner ?_
    rw [hgoal, relocateItem, hplan]
    rw [OwnerSet, ← hij] at howner
    rw [howner, Layout.group, hplan]

include hall

/-- When nothing is half built any longer, the heap is as it is laid out. -/
theorem heap_eq_goal : s.heap = l.goal := by
  have ht := hgrown.tracks
  have hsize := (l.laidOut_upTo l.issued.length).size
  rw [List.take_length] at hsize
  refine ext_of_reads ?_ (fun g hg => ?_) ?_ (fun i hi => item_of_grown hgrown hplan hi) ?_ ?_
  · rw [ht.groupCount, ← hall, ← hsize, l.goal_eq]
  · by_cases hold : h.HasGroup g
    · rw [hgrown.fills.group g hold id, goal, group_pushCopies_of_hasGroup hold]
    · exact hgrown.fills.newGroup g hold hg id
  · rw [ht.itemCount, goal, items_pushCopies, Array.size_append, hplan]
    simp
  · rw [ht.variants, ← hall, l.goal_eq]
  · rw [ht.copyRegistries, l.goal_eq, upTo, copyRegistries_foldl_pushCopy]

end Finished

end Layout

/-! ### Laying out what is issued -/

variable {root : GroupId}

theorem exists_layout_of_issued {p : CopyPlan} {issued : List (GroupId × Issued)}
    (hissue : h.issueAll f p.groups = .ok issued) :
    ∃ l : Layout h f, l.plan = p ∧ l.issued = issued := by
  obtain ⟨hfst, hissued⟩ := issueAll_spec _ hissue
  have hlen : issued.length = p.groups.length := by simpa using congrArg List.length hfst
  refine ⟨⟨p, issued, (⟨0⟩, ⟨"", ""⟩), ?_, hissued, fun g hg => ?_⟩, rfl, rfl⟩
  · simp only [hfst, List.prefix_rfl]
  · rw [List.getElem?_eq_none (Nat.le_of_eq hlen.symm)] at hg
    cases hg

theorem exists_layout_of_refused {p : CopyPlan} {refusal : GroupId × Cause}
    (hissue : h.issueAll f p.groups = .error refusal) :
    ∃ l : Layout h f, l.plan = p ∧ l.refusal = refusal ∧ l.issued.length < p.groups.length := by
  obtain ⟨hrefused, before, after, hgroups, hbefore⟩ := exists_refused hissue
  obtain ⟨issued, hissued⟩ := exists_issueAll before hbefore
  obtain ⟨hfst, hissued⟩ := issueAll_spec _ hissued
  have hlen : issued.length = before.length := by simpa using congrArg List.length hfst
  have hlt : issued.length < p.groups.length := by
    rw [hgroups, hlen, List.length_append, List.length_cons]
    omega
  refine ⟨⟨p, issued, refusal, ?_, hissued, fun g hg => ?_⟩, rfl, rfl, hlt⟩
  · rw [hfst, hgroups]
    exact List.prefix_append _ _
  · rw [hgroups, hlen, List.getElem?_append_right (Nat.le_refl _), Nat.sub_self] at hg
    obtain rfl := Option.some.inj hg
    exact ⟨rfl, hrefused⟩

/-- The call for the root, made in the heap itself. -/
theorem follows_copyGroup_root {l : Layout h f} {p : CopyPlan} {depth : Nat}
    (hnamed : ∀ g ∈ l.plan.groups, ∀ e ∈ (h.group g).items.entries, (h.item e.2).name = e.1)
    (hp : explore h.copyStep depth {} [.group root] = some p)
    (hplan : l.plan =
      { groups := p.groups.reverse, items := p.items.reverse, filed := p.filed }) :
    l.Follows (copyGroup h f depth root none) { heap := h } p (l.group root)
      (l.Grown Nothing Nothing Nothing {} { heap := h } p) := by
  refine l.copiesGroups_copyGroup hnamed depth root none [] nofun {} _ p hp ?_ ?_
    (List.Subset.refl _)
  · constructor <;> simp only [hplan, List.prefix_rfl]
  · exact
      { planned := ⟨List.nil_prefix, List.nil_prefix⟩
        supplied := Nat.zero_le _
        groups := rfl
        items := rfl
        groupCount := rfl
        itemCount := rfl
        variants := rfl
        copyRegistries := rfl
        source := fun _ _ => rfl
        names := nofun
        nodup := .nil
        filed := nofun }

/-- **Copying node by node ends with the heap and the answer of copying by plan**, in at most as
many groups deep as a plan may take steps, if the groups that the root is linked to file their
items under their names. -/
theorem copyNodewise_eq_copyFor {depth : Nat} (hdepth : h.copyBound ≤ depth)
    (hnamed : ∀ g, h.Reaches (.group root) (.group g) → ∀ n i,
      (h.group g).items.find? n = some i → (h.item i).name = n) :
    h.copyNodewise root f depth = some (h.copyFor root f) := by
  obtain ⟨p, hp, hplan⟩ := exists_copyPlan h root
  have hfiled : ∀ g ∈ (h.copyPlan root).groups, ∀ e ∈ (h.group g).items.entries,
      (h.item e.2).name = e.1 := fun g hg e he =>
    hnamed g (reaches_of_mem_copyPlan hg) e.1 e.2 (OrderedMap.find?_eq_some_iff.2 he)
  have hcall : ∀ l : Layout h f, l.plan = h.copyPlan root →
      l.Follows (copyGroup h f depth root none) { heap := h } p (l.group root)
        (l.Grown Nothing Nothing Nothing {} { heap := h } p) := fun l hl =>
    follows_copyGroup_root (by rwa [hl]) (explore_mono hdepth hp) (hl.trans hplan)
  have hlen : (h.copyPlan root).groups.length = p.groups.length := by
    rw [hplan, List.length_reverse]
  cases hissue : h.issueAll f (h.copyPlan root).groups with
  | ok issued =>
    obtain ⟨l, hl, rfl⟩ := exists_layout_of_issued hissue
    obtain ⟨hfst, -⟩ := issueAll_spec _ hissue
    have hall : l.issued.length = p.groups.length := by
      rw [← hlen, ← hfst, List.length_map]
    obtain ⟨s, hrun, hgrown⟩ := (hcall l hl).of_supplied (Nat.le_of_eq hall.symm)
    have hheap := l.heap_eq_goal hgrown (hl.trans hplan) hall
    simp only [copyNodewise, hrun, copyFor, hissue, hheap, Layout.goal, Layout.group, hl]
  | error refusal =>
    obtain ⟨l, hl, rfl, hlt⟩ := exists_layout_of_refused hissue
    have hrun := (hcall l hl).of_refused (hlen ▸ hlt)
    simp only [copyNodewise, hrun, copyFor, hissue]

/-- In a heap that has been built by operations the two ways of copying come to the same. -/
theorem Reachable.copyNodewise_eq (hreach : Reachable h) (root : GroupId) (f : Factory) :
    h.copyNodewise root f h.copyBound = some (h.copyFor root f) :=
  copyNodewise_eq_copyFor (Nat.le_refl _) fun g _ => hreach.wellFormed.named g

end Heap

end AttributeGraph
