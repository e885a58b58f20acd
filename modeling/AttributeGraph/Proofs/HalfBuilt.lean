/-
Copies that are made on the way.

While a graph is copied node by node, some of the copies are half built: what they are linked to,
and when, is not what the plan says until their last links have been copied.  So it is said of each
call what it does to a heap with such nodes (`Grown`).  It leaves all nodes alone that were there
before, but for the owners of items, and the nodes that it adds are in the end as they are laid out.
The addresses are those of the layout from the beginning, because both meet the nodes in the same
order (`Layout.Tracks`).

A call is followed along the exploration of the tasks that it stands for (`Layout.Serves`), and
calls one after the other serve the tasks of all of them.
-/
import AttributeGraph.Heap.Nodewise
import AttributeGraph.Proofs.CopyIsolation

namespace AttributeGraph

/-! ### Items but for their owners -/

/-- Items that are alike but for their owners. -/
structure Item.Like (x y : Item) : Prop where
  name : x.name = y.name
  slot : ∀ side, x.slot side = y.slot side

namespace Item.Like

variable {x y z : Item}

theorem refl (x : Item) : x.Like x := ⟨rfl, fun _ => rfl⟩

theorem trans (hxy : x.Like y) (hyz : y.Like z) : x.Like z :=
  ⟨hxy.name.trans hyz.name, fun side => (hxy.slot side).trans (hyz.slot side)⟩

theorem setOwner (x : Item) (g : GroupId) : ({ x with owner := g } : Item).Like x :=
  ⟨rfl, fun side => by cases side <;> rfl⟩

theorem mapSlot (hxy : x.Like y) (side : Side) (f : Slot → Slot) :
    (x.mapSlot side f).Like (y.mapSlot side f) := by
  refine ⟨?_, fun side' => ?_⟩
  · rw [Item.name_mapSlot, Item.name_mapSlot, hxy.name]
  · rw [Item.slot_mapSlot, Item.slot_mapSlot, hxy.slot side']

theorem eq_of_owner (hxy : x.Like y) (howner : x.owner = y.owner) : x = y := by
  have hvalue : x.value = y.value := hxy.slot .value
  have hkey : x.key = y.key := hxy.slot .key
  obtain ⟨_, _, _, _⟩ := x
  obtain ⟨_, _, _, _⟩ := y
  cases hxy.name
  cases howner
  cases hvalue
  cases hkey
  rfl

end Item.Like

namespace Heap

variable {h : Heap} {f : Factory}

/-- Heaps that read alike are the same. -/
theorem ext_of_reads {a b : Heap} (hgroups : a.groups.size = b.groups.size)
    (hgroup : ∀ g, a.HasGroup g → a.group g = b.group g) (hitems : a.items.size = b.items.size)
    (hitem : ∀ i, a.HasItem i → a.item i = b.item i) (hvariants : a.variants = b.variants)
    (hcopies : a.copyRegistries = b.copyRegistries) : a = b := by
  have hga : a.groups = b.groups := by
    refine Array.ext hgroups fun k hk hk' => ?_
    have := hgroup ⟨k⟩ hk
    simpa [group, Array.getD_eq_getD_getElem?, hk, hk'] using this
  have hia : a.items = b.items := by
    refine Array.ext hitems fun k hk hk' => ?_
    have := hitem ⟨k⟩ hk
    simpa [item, Array.getD_eq_getD_getElem?, hk, hk'] using this
  obtain ⟨_, _, _, _⟩ := a
  cases hga
  cases hia
  cases hvariants
  cases hcopies
  rfl

/-! ### Plans on the way -/

/-- A plan goes on from another one. -/
structure CopyPlan.Extends (p p' : CopyPlan) : Prop where
  groups : p.groups <:+ p'.groups
  items : p.items <:+ p'.items

namespace CopyPlan.Extends

theorem refl (p : CopyPlan) : p.Extends p := ⟨List.suffix_refl _, List.suffix_refl _⟩

theorem trans {p q r : CopyPlan} (hpq : p.Extends q) (hqr : q.Extends r) : p.Extends r :=
  ⟨hpq.groups.trans hqr.groups, hpq.items.trans hqr.items⟩

end CopyPlan.Extends

theorem extends_copyStep (h : Heap) (p : CopyPlan) (t : CopyTask) :
    p.Extends (h.copyStep p t).1 := by
  have hm := copyStep_move h p t
  generalize (h.copyStep p t).1 = p' at hm ⊢
  generalize (h.copyStep p t).2 = new at hm
  cases hm with
  | newGroup hg => exact ⟨List.suffix_cons _ _, List.suffix_refl _⟩
  | newItem hi => exact ⟨List.suffix_refl _, List.suffix_cons _ _⟩
  | _ => exact ⟨List.suffix_refl _, List.suffix_refl _⟩

section Explored

variable {n : Nat} {p p' : CopyPlan} {todo : List CopyTask}

/-- Whatever is met comes on top of what has been met. -/
theorem extends_of_explore (hp : explore h.copyStep n p todo = some p') : p.Extends p' := by
  have hpreserved : Preserved h.copyStep fun q _ => p.Extends q :=
    fun q t _ hq => hq.trans (extends_copyStep h q t)
  exact hpreserved.explore _ _ _ (.refl p) hp

/-- What the tasks lead to has been met in the end. -/
theorem settled_of_explore (hp : explore h.copyStep n p todo = some p') {t : CopyTask}
    (ht : t ∈ todo) : Settled p' [] t := by
  have hpreserved : Preserved h.copyStep fun q rest => Settled q rest t :=
    preserved_of_move fun _ _ _ _ _ hm hq => settled_move hm hq
  exact hpreserved.explore _ _ _ (settled_of_mem ht) hp

theorem eq_of_explore_nil (hp : explore h.copyStep n p [] = some p') : p' = p := by
  cases n <;> exact (Option.some.inj hp).symm

/-- A task that leads to nothing is done at once. -/
theorem eq_of_explore_done {t : CopyTask} (ht : h.copyStep p t = (p, []))
    (hp : explore h.copyStep n p [t] = some p') : p' = p := by
  cases n with
  | zero => cases hp
  | succ n =>
    rw [explore, ht] at hp
    exact eq_of_explore_nil hp

/-- A task is done by what follows from it. -/
theorem explore_of_singleton {t : CopyTask} (hp : explore h.copyStep n p [t] = some p') :
    explore h.copyStep n (h.copyStep p t).1 (h.copyStep p t).2 = some p' := by
  cases n with
  | zero => cases hp
  | succ n =>
    rw [explore, List.append_nil] at hp
    exact explore_mono (Nat.le_succ n) hp

end Explored

section Lists

variable {α β : Type} [DecidableEq α] {a : α} {xs ys : List α}

theorem idxOf_lt_of_reverse_prefix (hxs : xs.reverse <+: ys) (ha : a ∈ xs) :
    ys.idxOf a < xs.length := by
  obtain ⟨zs, rfl⟩ := hxs
  rw [List.idxOf_append_of_mem (List.mem_reverse.2 ha), ← List.length_reverse]
  exact List.idxOf_lt_length_of_mem (List.mem_reverse.2 ha)

theorem idxOf_of_reverse_prefix (hxs : (a :: xs).reverse <+: ys) (ha : a ∉ xs) :
    ys.idxOf a = xs.length := by
  obtain ⟨zs, rfl⟩ := hxs
  rw [List.reverse_cons, List.append_assoc, List.idxOf_append_of_notMem fun hmem =>
    ha (List.mem_reverse.1 hmem)]
  simp

theorem lookup_map_self (g : α → β) (xs : List α) (a : α) :
    (xs.map fun x => (x, g x)).lookup a = if a ∈ xs then some (g a) else none := by
  induction xs with
  | nil => rfl
  | cons x xs ih =>
    rw [List.map_cons, List.lookup_cons, ih]
    by_cases hax : a = x
    · simp [hax]
    · have hne : (a == x) = false := by simpa using hax
      simp [hax, hne]

end Lists

/-! ### A copy with its variant -/

/-- Where an issued variant is in a heap to which it is added. -/
def addressOf (h : Heap) : Issued → VariantId
  | .fresh _ => ⟨h.variants.size⟩
  | .existing v => v

section Issuing

variable {a b : Heap} {x : Group} {issued : Issued} {g : GroupId} {p : CopyPlan}

theorem addressOf_congr (hab : a.variants = b.variants) (issued : Issued) :
    a.addressOf issued = b.addressOf issued := by
  cases issued with
  | fresh v => rw [addressOf, addressOf, hab]
  | existing v => rfl

theorem allocIssued_fst : (a.allocIssued x issued).1 = ⟨a.groups.size⟩ := by
  cases issued <;> rfl

theorem groups_allocIssued : (a.allocIssued x issued).2.groups =
    a.groups.push { x with variant := a.addressOf issued } := by
  cases issued <;> rfl

theorem items_allocIssued : (a.allocIssued x issued).2.items = a.items := by
  cases issued <;> rfl

theorem item_allocIssued (i : ItemId) : (a.allocIssued x issued).2.item i = a.item i := by
  rw [item, items_allocIssued, item]

theorem copyRegistries_allocIssued :
    (a.allocIssued x issued).2.copyRegistries = a.copyRegistries := by
  cases issued <;> rfl

theorem groups_pushCopy : (h.pushCopy p a g issued).groups =
    a.groups.push (h.relocateGroup p g (a.addressOf issued)) := by
  cases issued <;> rfl

theorem copyRegistries_foldl_pushCopy (issued : List (GroupId × Issued)) (a : Heap) :
    (issued.foldl (fun new e => h.pushCopy p new e.1 e.2) a).copyRegistries =
      a.copyRegistries := by
  induction issued generalizing a with
  | nil => rfl
  | cons e issued ih =>
    obtain ⟨g, variant⟩ := e
    rw [List.foldl_cons, ih]
    cases variant <;> rfl

/-- A variant that is issued is added in the same way whether the copy is laid out or made. -/
theorem variants_allocIssued (hab : a.variants = b.variants) :
    (a.allocIssued x issued).2.variants = (h.pushCopy p b g issued).variants := by
  cases issued with
  | fresh v => rw [allocIssued, allocGroup, pushCopy, hab]
  | existing v => exact hab

theorem hasGroup_allocIssued :
    (a.allocIssued x issued).2.HasGroup g ↔ a.HasGroup g ∨ g = ⟨a.groups.size⟩ := by
  obtain ⟨n⟩ := g
  simp only [HasGroup, groups_allocIssued, Array.size_push, GroupId.mk.injEq]
  omega

theorem group_allocIssued_self : (a.allocIssued x issued).2.group ⟨a.groups.size⟩ =
    { x with variant := a.addressOf issued } := by
  simp [group, groups_allocIssued, Array.getD_eq_getD_getElem?]

theorem group_allocIssued (hg : a.HasGroup g) :
    (a.allocIssued x issued).2.group g = a.group g := by
  have hne : g.index ≠ a.groups.size := Nat.ne_of_lt hg
  simp [group, groups_allocIssued, Array.getD_eq_getD_getElem?, Array.getElem?_push, hne]

end Issuing

theorem item_allocItem_of_hasItem {a : Heap} {x : Item} {i : ItemId} (hi : a.HasItem i) :
    (a.allocItem x).2.item i = a.item i := by
  refine item_allocItem ?_
  rintro rfl
  exact Nat.lt_irrefl _ hi

/-! ### The layout of the copies -/

/-- A plan of a copy, with what the factory issues for its groups up to the first one that it
refuses. -/
structure Layout (h : Heap) (f : Factory) where
  plan : CopyPlan
  issued : List (GroupId × Issued)
  refusal : GroupId × Cause
  inOrder : issued.map Prod.fst <+: plan.groups
  issue : ∀ e ∈ issued, f.issue h e.1 = .ok e.2
  refused : ∀ g, plan.groups[issued.length]? = some g →
    g = refusal.1 ∧ f.issue h g = .error refusal.2

namespace Layout

variable (l : Layout h f)

/-- The copy of a group. -/
def group (g : GroupId) : GroupId := h.copyOfGroup l.plan g

/-- The copy of an item. -/
def item (i : ItemId) : ItemId := h.copyOfItem l.plan i

/-- A group that is met for the first time is copied to the next address. -/
theorem group_next {p : CopyPlan} {g : GroupId}
    (hplanned : (g :: p.groups).reverse <+: l.plan.groups) (hg : g ∉ p.groups) :
    l.group g = ⟨h.groups.size + p.groups.length⟩ := by
  rw [group, copyOfGroup, idxOf_of_reverse_prefix hplanned hg]

/-- An item that is met for the first time is copied to the next address. -/
theorem item_next {p : CopyPlan} {i : ItemId}
    (hplanned : (i :: p.items).reverse <+: l.plan.items) (hi : i ∉ p.items) :
    l.item i = ⟨h.items.size + p.items.length⟩ := by
  rw [item, copyOfItem, idxOf_of_reverse_prefix hplanned hi]

/-- The copy of an item is none of the items that there were. -/
theorem item_ne (i : ItemId) {j : ItemId} (hj : h.HasItem j) : j ≠ l.item i := by
  rintro rfl
  simp only [HasItem, item, copyOfItem] at hj
  omega

/-- The heap with the copies of the first groups. -/
def upTo (n : Nat) : Heap :=
  (l.issued.take n).foldl (fun new e => h.pushCopy l.plan new e.1 e.2) h

/-- The heap with all copies. -/
def goal : Heap := h.pushCopies l.plan l.issued

theorem laidOut_upTo (n : Nat) : h.LaidOut l.plan h (l.upTo n) (l.issued.take n) :=
  laidOut_foldl h l.plan (l.issued.take n) h

theorem goal_eq : l.goal =
    { l.upTo l.issued.length with
      items := (l.upTo l.issued.length).items ++
        (l.plan.items.map (h.relocateItem l.plan)).toArray } := by
  rw [upTo, List.take_length]
  rfl

theorem upTo_succ {n : Nat} (hn : n < l.issued.length) :
    l.upTo (n + 1) = h.pushCopy l.plan (l.upTo n) l.issued[n].1 l.issued[n].2 := by
  rw [upTo, List.take_succ_eq_append_getElem hn, List.foldl_append]
  rfl

/-- The copy of a group as it is laid out, with the variant that is issued for it. -/
theorem group_goal {n : Nat} (hn : n < l.issued.length) :
    l.goal.group ⟨h.groups.size + n⟩ =
      h.relocateGroup l.plan l.issued[n].1 ((l.upTo n).addressOf l.issued[n].2) := by
  have hsize : (l.upTo n).groups.size = h.groups.size + n := by
    rw [(l.laidOut_upTo n).size, List.length_take_of_le (Nat.le_of_lt hn)]
  have hlast : (l.upTo (n + 1)).groups =
      (l.upTo n).groups.push
        (h.relocateGroup l.plan l.issued[n].1 ((l.upTo n).addressOf l.issued[n].2)) := by
    rw [l.upTo_succ hn, groups_pushCopy]
  have hall : l.goal.groups = ((l.issued.drop (n + 1)).foldl
      (fun new e => h.pushCopy l.plan new e.1 e.2) (l.upTo (n + 1))).groups := by
    rw [upTo, ← List.foldl_append, List.take_append_drop]
    rfl
  have hkept := (laidOut_foldl h l.plan (l.issued.drop (n + 1)) (l.upTo (n + 1))).groups
    (h.groups.size + n) (by rw [hlast, Array.size_push, hsize]; exact Nat.lt_succ_self _)
  rw [← hall, hlast, ← hsize, Array.getElem?_push_size] at hkept
  rw [Heap.group, ← hsize, Array.getD_eq_getD_getElem?, hkept, Option.getD_some]

/-- A plan on the way to the plan of the layout. -/
structure Planned (p : CopyPlan) : Prop where
  groups : p.groups.reverse <+: l.plan.groups
  items : p.items.reverse <+: l.plan.items

variable {l} in
theorem Planned.of_extends {p p' : CopyPlan} (hp' : l.Planned p') (hp : p.Extends p') :
    l.Planned p :=
  ⟨(List.reverse_prefix.2 hp.groups).trans hp'.groups,
    (List.reverse_prefix.2 hp.items).trans hp'.items⟩

/-! ### Half-built copies -/

/-- The copies that have been made are those of the nodes of a plan, at the addresses that they have
in the layout, with their names and variants.  The items that are copied are left alone. -/
structure Tracks (p : CopyPlan) (s : Copies) : Prop where
  planned : l.Planned p
  supplied : p.groups.length ≤ l.issued.length
  groups : s.groups = p.groups.map fun g => (g, l.group g)
  items : s.items = p.items.map fun i => (i, l.item i)
  groupCount : s.heap.groups.size = h.groups.size + p.groups.length
  itemCount : s.heap.items.size = h.items.size + p.items.length
  variants : s.heap.variants = (l.upTo p.groups.length).variants
  copyRegistries : s.heap.copyRegistries = h.copyRegistries
  source : ∀ i, h.HasItem i → s.heap.item i = h.item i
  names : ∀ i ∈ p.items, (s.heap.item (l.item i)).name = (h.item i).name
  nodup : p.items.Nodup
  filed : ∀ e ∈ p.filed, e.1 ∈ p.items

namespace Tracks

variable {l} {p : CopyPlan} {s : Copies} (ht : l.Tracks p s)

include ht

theorem hasGroup {g : GroupId} (hg : g ∈ p.groups) : s.heap.HasGroup (l.group g) := by
  have := idxOf_lt_of_reverse_prefix ht.planned.groups hg
  simp only [HasGroup, Layout.group, copyOfGroup, ht.groupCount]
  omega

theorem hasItem {i : ItemId} (hi : i ∈ p.items) : s.heap.HasItem (l.item i) := by
  have := idxOf_lt_of_reverse_prefix ht.planned.items hi
  simp only [HasItem, Layout.item, copyOfItem, ht.itemCount]
  omega

theorem item_injective {i j : ItemId} (hi : i ∈ p.items) (hij : l.item i = l.item j) : i = j :=
  copyOfItem_injective (ht.planned.items.subset (List.mem_reverse.2 hi)) hij

theorem lookup_group (g : GroupId) :
    s.groups.lookup g = if g ∈ p.groups then some (l.group g) else none := by
  rw [ht.groups, lookup_map_self]

theorem lookup_item (i : ItemId) :
    s.items.lookup i = if i ∈ p.items then some (l.item i) else none := by
  rw [ht.items, lookup_map_self]

/-- An item that has not been met has not been filed. -/
theorem lookup_filed {i : ItemId} (hi : i ∉ p.items) : p.filed.lookup i = none := by
  refine List.lookup_eq_none_iff.2 fun e he => ?_
  have hne : i ≠ e.1 := fun heq => hi (heq ▸ ht.filed e he)
  simpa using hne

/-- The copy of a group that is met for the first time is added at the end of the heap. -/
theorem group_next {g : GroupId} (hg : g ∉ p.groups)
    (hplanned : l.Planned { p with groups := g :: p.groups }) :
    l.group g = ⟨s.heap.groups.size⟩ := by
  rw [l.group_next hplanned.groups hg, ht.groupCount]

/-- The copy of an item that is met for the first time is added at the end of the heap. -/
theorem item_next {i : ItemId} (hi : i ∉ p.items)
    (hplanned : l.Planned { p with items := i :: p.items }) :
    l.item i = ⟨s.heap.items.size⟩ := by
  rw [l.item_next hplanned.items hi, ht.itemCount]

/-- A copy is added for a group with the variant that is issued next. -/
theorem addGroup {g : GroupId} (hplanned : l.Planned { p with groups := g :: p.groups })
    (hlt : p.groups.length < l.issued.length) (x : Group) :
    l.Tracks { p with groups := g :: p.groups }
      { s with
        heap := (s.heap.allocIssued x l.issued[p.groups.length].2).2
        groups := (g, l.group g) :: s.groups } where
  planned := hplanned
  supplied := hlt
  groups := by rw [ht.groups, List.map_cons]
  items := ht.items
  groupCount := by
    rw [groups_allocIssued, Array.size_push, ht.groupCount, List.length_cons, Nat.add_assoc]
  itemCount := by rw [items_allocIssued, ht.itemCount]
  variants := by rw [variants_allocIssued ht.variants, ← l.upTo_succ hlt, List.length_cons]
  copyRegistries := by rw [copyRegistries_allocIssued, ht.copyRegistries]
  source i hi := (item_allocIssued i).trans (ht.source i hi)
  names i hi := (congrArg Item.name (item_allocIssued _)).trans (ht.names i hi)
  nodup := ht.nodup
  filed := ht.filed

/-- A copy is added for an item that is met for the first time. -/
theorem addItem {i : ItemId} (hi : i ∉ p.items)
    (hplanned : l.Planned { p with items := i :: p.items }) (owner : GroupId) :
    l.Tracks { p with items := i :: p.items }
      { s with
        heap := (s.heap.allocItem { name := (h.item i).name, owner }).2
        items := (i, l.item i) :: s.items } where
  planned := hplanned
  supplied := ht.supplied
  groups := ht.groups
  items := by rw [ht.items, List.map_cons]
  groupCount := ht.groupCount
  itemCount := by
    rw [allocItem, Array.size_push, ht.itemCount, List.length_cons, Nat.add_assoc]
  variants := ht.variants
  copyRegistries := ht.copyRegistries
  source j hj := by
    have hin : s.heap.HasItem j := Nat.lt_of_lt_of_le hj (ht.itemCount ▸ Nat.le_add_right _ _)
    rw [item_allocItem_of_hasItem hin, ht.source j hj]
  names := by
    refine List.forall_mem_cons.2 ⟨?_, fun j hj => ?_⟩
    · have hname := congrArg Item.name
        (item_allocItem_self (h := s.heap) { name := (h.item i).name, owner })
      rw [ht.item_next hi hplanned]
      exact hname
    · rw [item_allocItem_of_hasItem (ht.hasItem hj), ht.names j hj]
  nodup := List.nodup_cons.2 ⟨hi, ht.nodup⟩
  filed e he := List.mem_cons_of_mem i (ht.filed e he)

theorem alterGroup (g : GroupId) (change : Group → Group) :
    l.Tracks p { s with heap := s.heap.alterGroup g change } :=
  { ht with groupCount := Array.size_modify.trans ht.groupCount }

theorem alterItem (i : ItemId) {change : Item → Item} (hname : ∀ x, (change x).name = x.name) :
    l.Tracks p { s with heap := s.heap.alterItem (l.item i) change } :=
  { ht with
    itemCount := Array.size_modify.trans ht.itemCount
    source := fun j hj => by
      rw [item_alterItem_of_ne (l.item_ne i hj), ht.source j hj]
    names := fun j hj => (item_alterItem_field Item.name hname _ _).trans (ht.names j hj) }

/-- Filing an item in a group concerns neither the one nor the other. -/
theorem file {i : ItemId} (hi : i ∈ p.items) (g : GroupId) :
    l.Tracks { p with filed := (i, g) :: p.filed } s :=
  { ht with
    planned := ⟨ht.planned.groups, ht.planned.items⟩
    filed := List.forall_mem_cons.2 ⟨hi, ht.filed⟩ }

end Tracks

end Layout

/-! ### Filling a heap -/

/-- Apart from the groups of `G` and the items of `I`, all nodes of a heap are in the other one as
they were, and what is new there is as in the goal; the owners of items are left open. -/
structure Fills (goal : Heap) (G : GroupId → Prop) (I : ItemId → Prop) (a b : Heap) : Prop where
  hasGroup : ∀ g, a.HasGroup g → b.HasGroup g
  hasItem : ∀ i, a.HasItem i → b.HasItem i
  group : ∀ g, a.HasGroup g → ¬ G g → b.group g = a.group g
  newGroup : ∀ g, ¬ a.HasGroup g → b.HasGroup g → ¬ G g → b.group g = goal.group g
  item : ∀ i, a.HasItem i → ¬ I i → (b.item i).Like (a.item i)
  newItem : ∀ i, ¬ a.HasItem i → b.HasItem i → ¬ I i → (b.item i).Like (goal.item i)

namespace Fills

variable {goal a b c : Heap} {G : GroupId → Prop} {I : ItemId → Prop}

theorem refl (goal a : Heap) : Fills goal G I a a :=
  ⟨fun _ hg => hg, fun _ hi => hi, fun _ _ _ => rfl, fun _ hno hg => absurd hg hno,
    fun _ _ _ => .refl _, fun _ hno hi => absurd hi hno⟩

theorem trans (hab : Fills goal G I a b) (hbc : Fills goal Nothing Nothing b c) :
    Fills goal G I a c where
  hasGroup g hg := hbc.hasGroup g (hab.hasGroup g hg)
  hasItem i hi := hbc.hasItem i (hab.hasItem i hi)
  group g hg hG := by rw [hbc.group g (hab.hasGroup g hg) id, hab.group g hg hG]
  newGroup g hno hg hG := by
    by_cases hgb : b.HasGroup g
    · rw [hbc.group g hgb id, hab.newGroup g hno hgb hG]
    · exact hbc.newGroup g hgb hg id
  item i hi hI := (hbc.item i (hab.hasItem i hi) id).trans (hab.item i hi hI)
  newItem i hno hi hI := by
    by_cases hib : b.HasItem i
    · exact (hbc.item i hib id).trans (hab.newItem i hno hib hI)
    · exact hbc.newItem i hib hi id

theorem alterGroup (hab : Fills goal G I a b) {g : GroupId} (hg : G g) (change : Group → Group) :
    Fills goal G I a (b.alterGroup g change) where
  hasGroup x hx := hasGroup_alterGroup.2 (hab.hasGroup x hx)
  hasItem := hab.hasItem
  group x hx hG := by
    have hne : x ≠ g := fun heq => hG (heq ▸ hg)
    rw [group_alterGroup_of_ne hne, hab.group x hx hG]
  newGroup x hno hx hG := by
    have hne : x ≠ g := fun heq => hG (heq ▸ hg)
    rw [group_alterGroup_of_ne hne, hab.newGroup x hno (hasGroup_alterGroup.1 hx) hG]
  item := hab.item
  newItem := hab.newItem

theorem allocIssued (goal a : Heap) (x : Group) (issued : Issued) :
    Fills goal (· = ⟨a.groups.size⟩) I a (a.allocIssued x issued).2 where
  hasGroup g hg := hasGroup_allocIssued.2 (.inl hg)
  hasItem i hi := by rwa [HasItem, items_allocIssued]
  group g hg _ := group_allocIssued hg
  newGroup g hno hg hG := absurd ((hasGroup_allocIssued.1 hg).resolve_left hno) hG
  item i _ _ := by
    rw [item_allocIssued]
    exact .refl _
  newItem i hno hi _ := by
    rw [HasItem, items_allocIssued] at hi
    exact absurd hi hno

theorem allocItem (goal a : Heap) (x : Item) :
    Fills goal G (· = (a.allocItem x).1) a (a.allocItem x).2 where
  hasGroup _ hg := hg
  hasItem i hi := hasItem_allocItem.2 (.inl hi)
  group _ _ _ := rfl
  newGroup _ hno hg _ := absurd hg hno
  item i _ hI := by
    rw [item_allocItem hI]
    exact .refl _
  newItem i hno hi hI := absurd ((hasItem_allocItem.1 hi).resolve_left hno) hI

/-- Only an item that is singled out is changed by more than its owner. -/
theorem alterItem (hab : Fills goal G I a b) {i : ItemId} {change : Item → Item}
    (hi : I i ∨ ∀ x, (change x).Like x) : Fills goal G I a (b.alterItem i change) := by
  have hlike : ∀ j, ¬ I j → ((b.alterItem i change).item j).Like (b.item j) := by
    intro j hj
    rw [item_alterItem]
    split
    · next hij => exact hi.resolve_left (fun hI => hj (hij.1 ▸ hI)) _
    · exact .refl _
  exact
    { hasGroup := hab.hasGroup
      hasItem := fun j hj => hasItem_alterItem.2 (hab.hasItem j hj)
      group := hab.group
      newGroup := hab.newGroup
      item := fun j hj hI => (hlike j hI).trans (hab.item j hj hI)
      newItem := fun j hno hj hI =>
        (hlike j hI).trans (hab.newItem j hno (hasItem_alterItem.1 hj) hI) }

/-- A group that has been finished need not be singled out. -/
theorem closeGroup {g : GroupId} (hab : Fills goal (· = g) I a b) (hno : ¬ a.HasGroup g)
    (hg : b.group g = goal.group g) : Fills goal Nothing I a b where
  hasGroup := hab.hasGroup
  hasItem := hab.hasItem
  group x hx _ := hab.group x hx fun heq => hno (heq ▸ hx)
  newGroup x hnox hx _ := by
    by_cases heq : x = g
    · rw [heq, hg]
    · exact hab.newGroup x hnox hx heq
  item := hab.item
  newItem := hab.newItem

/-- An item that has been finished need not be singled out. -/
theorem closeItem {i : ItemId} (hab : Fills goal G (· = i) a b) (hno : ¬ a.HasItem i)
    (hi : (b.item i).Like (goal.item i)) : Fills goal G Nothing a b where
  hasGroup := hab.hasGroup
  hasItem := hab.hasItem
  group := hab.group
  newGroup := hab.newGroup
  item j hj _ := hab.item j hj fun heq => hno (heq ▸ hj)
  newItem j hnoj hj _ := by
    by_cases heq : j = i
    · rw [heq]
      exact hi
    · exact hab.newItem j hnoj hj heq

end Fills

namespace Layout

variable {l : Layout h f} {p q r : CopyPlan} {s s' s'' : Copies} {G : GroupId → Prop}
  {I X Y : ItemId → Prop}

/-- The copy of an item belongs to the copy of the group that the item was filed in last, or else of
its owner. -/
def OwnerSet (l : Layout h f) (p : CopyPlan) (s : Copies) (i : ItemId) : Prop :=
  (s.heap.item (l.item i)).owner = l.group ((p.filed.lookup i).getD (h.item i).owner)

/-- From one plan to a later one copies have been added, and the others have been left alone, apart
from the groups of `G` and the items of `I`.  Apart from the items of `X`, new items have the right
owners, and old ones still do. -/
structure Grown (l : Layout h f) (G : GroupId → Prop) (I X : ItemId → Prop) (p : CopyPlan)
    (s : Copies) (q : CopyPlan) (s' : Copies) : Prop where
  plan : p.Extends q
  tracks : l.Tracks q s'
  fills : Fills l.goal G I s.heap s'.heap
  owners : ∀ i ∈ q.items, ¬ X i → (i ∈ p.items → l.OwnerSet p s i) → l.OwnerSet q s' i

namespace Grown

theorem refl (ht : l.Tracks p s) : l.Grown G I X p s p s :=
  ⟨.refl p, ht, .refl _ _, fun _ hi _ hset => hset hi⟩

theorem trans (hpq : l.Grown G I X p s q s') (hqr : l.Grown Nothing Nothing Y q s' r s'')
    (hY : ∀ i, Y i → X i) : l.Grown G I X p s r s'' where
  plan := hpq.plan.trans hqr.plan
  tracks := hqr.tracks
  fills := hpq.fills.trans hqr.fills
  owners i hi hX hset := hqr.owners i hi (fun hYi => hX (hY i hYi)) fun hiq =>
    hpq.owners i hiq hX hset

theorem mono (hpq : l.Grown G I X p s q s') (hX : ∀ i, X i → Y i) : l.Grown G I Y p s q s' :=
  { hpq with owners := fun i hi hY => hpq.owners i hi fun hXi => hY (hX i hXi) }

/-- An item that is filed in a group belongs to it. -/
theorem file {i : ItemId} (hpq : l.Grown G I (· = i) p s q s') (hi : i ∈ q.items) (g : GroupId) :
    l.Grown G I Nothing p s { q with filed := (i, g) :: q.filed }
      { s' with
        heap := s'.heap.alterItem (l.item i) fun x => { x with owner := l.group g } } where
  plan := ⟨hpq.plan.groups, hpq.plan.items⟩
  tracks := (hpq.tracks.file hi g).alterItem i fun _ => rfl
  fills := hpq.fills.alterItem (.inr fun x => .setOwner x _)
  owners j hj _ hset := by
    by_cases hji : j = i
    · subst hji
      rw [OwnerSet, item_alterItem_self (hpq.tracks.hasItem hi), List.lookup_cons_self,
        Option.getD_some]
    · have hne : l.item j ≠ l.item i := fun heq => hji (hpq.tracks.item_injective hj heq)
      have hji' : (j == i) = false := by simpa using hji
      rw [OwnerSet, item_alterItem_of_ne hne, List.lookup_cons, hji']
      exact hpq.owners j hj hji hset

end Grown

/-! ### Calls -/

variable {α β : Type} {m : Copying α} {k : α → Copying β} {a : α} {b : β} {Q R : Copies → Prop}

/-- A call that meets the groups of a plan gives an answer and leaves copies with a property, or it
fails with the group that is refused if that is among them. -/
def Follows (l : Layout h f) (m : Copying α) (s : Copies) (q : CopyPlan) (a : α)
    (Q : Copies → Prop) : Prop :=
  if q.groups.length ≤ l.issued.length then ∃ s', (m.run s).run = some (.ok (a, s')) ∧ Q s'
  else (m.run s).run = some (.error l.refusal)

namespace Follows

theorem ok (hle : q.groups.length ≤ l.issued.length)
    (hrun : (m.run s).run = some (.ok (a, s'))) (hQ : Q s') : l.Follows m s q a Q := by
  rw [Follows, if_pos hle]
  exact ⟨s', hrun, hQ⟩

theorem error (hlt : l.issued.length < q.groups.length)
    (hrun : (m.run s).run = some (.error l.refusal)) : l.Follows m s q a Q := by
  rw [Follows, if_neg (Nat.not_le.2 hlt)]
  exact hrun

theorem of_supplied (hm : l.Follows m s q a Q) (hle : q.groups.length ≤ l.issued.length) :
    ∃ s', (m.run s).run = some (.ok (a, s')) ∧ Q s' := by
  rwa [Follows, if_pos hle] at hm

theorem of_refused (hm : l.Follows m s q a Q) (hlt : l.issued.length < q.groups.length) :
    (m.run s).run = some (.error l.refusal) := by
  rwa [Follows, if_neg (Nat.not_le.2 hlt)] at hm

theorem mono (hm : l.Follows m s q a Q) (hQ : ∀ s', Q s' → R s') : l.Follows m s q a R := by
  rcases Nat.lt_or_ge l.issued.length q.groups.length with hlt | hle
  · exact .error hlt (hm.of_refused hlt)
  · obtain ⟨s', hrun, hs'⟩ := hm.of_supplied hle
    exact .ok hle hrun (hQ s' hs')

theorem bind (hm : l.Follows m s q a Q) (hqr : q.Extends r)
    (hk : ∀ s', Q s' → l.Follows (k a) s' r b R) : l.Follows (m >>= k) s r b R := by
  rcases Nat.lt_or_ge l.issued.length q.groups.length with hlt | hle
  · -- the group that is refused stays among those that are met
    refine .error (Nat.lt_of_lt_of_le hlt hqr.groups.length_le) ?_
    rw [StateT.run_bind, ExceptT.run_bind, hm.of_refused hlt]
    rfl
  · obtain ⟨s', hrun, hs'⟩ := hm.of_supplied hle
    have hnext := hk s' hs'
    unfold Follows at hnext ⊢
    rw [StateT.run_bind, ExceptT.run_bind, hrun]
    exact hnext

theorem pure (ht : l.Tracks p s) (hQ : Q s) : l.Follows (Pure.pure a) s p a Q :=
  .ok ht.supplied rfl hQ

theorem modify {change : Copies → Copies} (ht : l.Tracks p s) (hQ : Q (change s)) :
    l.Follows (modify change) s p ⟨⟩ Q :=
  .ok ht.supplied rfl hQ

theorem get {k : Copies → Copying β} (hk : l.Follows (k s) s q b R) :
    l.Follows (MonadState.get >>= k) s q b R := hk

theorem map {g : α → β} (hm : l.Follows m s q a Q) : l.Follows (g <$> m) s q (g a) Q := by
  rw [map_eq_pure_bind]
  rcases Nat.lt_or_ge l.issued.length q.groups.length with hlt | hle
  · refine .error hlt ?_
    rw [StateT.run_bind, ExceptT.run_bind, hm.of_refused hlt]
    rfl
  · obtain ⟨s', hrun, hs'⟩ := hm.of_supplied hle
    refine .ok hle ?_ hs'
    rw [StateT.run_bind, ExceptT.run_bind, hrun]
    rfl

end Follows

section Steps

variable {n : Nat} {ts us : List CopyTask} {t : CopyTask}

/-- What has been met already is not copied again. -/
theorem follows_met (ht : l.Tracks p s) (hmet : h.copyStep p t = (p, []))
    (hq : explore h.copyStep n p [t] = some q) :
    l.Follows (pure a) s q a (l.Grown G I X p s q) := by
  obtain rfl := eq_of_explore_done hmet hq
  exact .pure ht (.refl ht)

/-- Behind the first ones of some tasks the plan is on the way to that of the layout. -/
theorem exists_between (hplanned : l.Planned q)
    (hq : explore h.copyStep n p (ts ++ us) = some q) :
    ∃ r, explore h.copyStep n p ts = some r ∧ explore h.copyStep n r us = some q ∧
      l.Planned r ∧ r.Extends q := by
  obtain ⟨r, hr, hq⟩ := exists_explore_of_append hq
  have hext := extends_of_explore hq
  exact ⟨r, hr, hq, hplanned.of_extends hext, hext⟩

theorem exists_between_cons (hplanned : l.Planned q)
    (hq : explore h.copyStep n p (t :: us) = some q) :
    ∃ r, explore h.copyStep n p [t] = some r ∧ explore h.copyStep n r us = some q ∧
      l.Planned r ∧ r.Extends q := by
  rw [← List.singleton_append] at hq
  exact exists_between hplanned hq

end Steps

/-- A call gives an answer and copies what the tasks lead to, after the items given have been
met. -/
def Serves (l : Layout h f) (n : Nat) (m : Copying α) (tasks : List CopyTask) (known : List ItemId)
    (a : α) : Prop :=
  ∀ p s q, explore h.copyStep n p tasks = some q → l.Planned q → l.Tracks p s → known ⊆ p.items →
    l.Follows m s q a (l.Grown Nothing Nothing Nothing p s q)

namespace Serves

variable {n : Nat} {ts us : List CopyTask} {known : List ItemId}

theorem pure (a : α) : l.Serves n (Pure.pure a) [] known a := by
  intro p s q hq hplanned ht hknown
  obtain rfl := eq_of_explore_nil hq
  exact .pure ht (.refl ht)

theorem bind (hm : l.Serves n m ts known a) (hk : l.Serves n (k a) us known b) :
    l.Serves n (m >>= k) (ts ++ us) known b := by
  intro p s r hr hplanned ht hknown
  obtain ⟨q, hpq, hqr, hplanned', hext⟩ := exists_between hplanned hr
  refine (hm p s q hpq hplanned' ht hknown).bind hext fun s' hs' => ?_
  have hknown' := List.Subset.trans hknown (extends_of_explore hpq).items.subset
  exact (hk q s' r hqr hplanned hs'.tracks hknown').mono fun s'' hs'' =>
    hs'.trans hs'' fun _ hno => hno

theorem map (hm : l.Serves n m ts known a) (g : α → β) : l.Serves n (g <$> m) ts known (g a) :=
  fun p s q hq hplanned ht hknown => (hm p s q hq hplanned ht hknown).map

variable {call : α → Copying β} {task : α → CopyTask} {φ : α → β}

/-- Calls for the members of a list serve the tasks for them. -/
theorem mapM {as : List α} (hcall : ∀ a ∈ as, l.Serves n (call a) [task a] known (φ a)) :
    l.Serves n (as.mapM call) (as.map task) known (as.map φ) := by
  induction as with
  | nil => exact .pure []
  | cons a as ih =>
    rw [List.forall_mem_cons] at hcall
    rw [List.mapM_cons]
    refine hcall.1.bind ?_
    rw [← List.append_nil (as.map task)]
    exact (ih hcall.2).bind (.pure _)

/-- A call for what there may be serves the tasks for that. -/
theorem optionMapM {o : Option α} (tasks : α → List CopyTask)
    (hcall : ∀ a ∈ o, l.Serves n (call a) (tasks a) known (φ a)) :
    l.Serves n (o.mapM call) (o.toList.flatMap tasks) known (o.map φ) := by
  cases o with
  | none => exact .pure none
  | some a =>
    rw [Option.toList_some, List.flatMap_singleton]
    exact (hcall a rfl).map some

end Serves

end Layout

end Heap

end AttributeGraph
