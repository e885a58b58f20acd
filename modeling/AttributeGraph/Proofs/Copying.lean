/-
A copy is isomorphic to what it is a copy of.

The nodes are collected by a traversal that reaches one node from many sides: an
item from its group or from a group nested in it, a group from above, below,
from its items or from its siblings.  Two invariants of the traversal say that it
collects exactly the nodes that the root is linked to: `Found` keeps everything
that is met within reach, and `Complete` keeps every link of a node that has been
met either met at its other end or on the stack.  `OwnersMet` does the same for
the link from an item to its owner, which the traversal follows only when it
comes from a group nested in the item; elsewhere the owner is the group that the
traversal came from.

The copies are then laid out in the order in which the nodes were met, so the
place of a node in that order is the address of its copy, and **`copyFor_isomorphic`**
reads the links of the copies off the layout.
-/
import AttributeGraph.Heap.Specialization
import AttributeGraph.Proofs.Exploration
import AttributeGraph.Proofs.Links
import AttributeGraph.Proofs.Ordered

namespace AttributeGraph.Heap

variable {h : Heap} {root : GroupId}

/-! ### One step of the collection -/

/-- What one step of the collection can do. -/
inductive CopyMove (h : Heap) (p : CopyPlan) : CopyTask → CopyPlan → List CopyTask → Prop
  | oldGroup {g : GroupId} (hg : g ∈ p.groups) : CopyMove h p (.group g) p []
  | newGroup {g : GroupId} (hg : g ∉ p.groups) :
      CopyMove h p (.group g) { p with groups := g :: p.groups } (h.groupCopyTasks g)
  | oldOwning {i : ItemId} (hi : i ∈ p.items) : CopyMove h p (.owning i) p []
  | newOwning {i : ItemId} (hi : i ∉ p.items) :
      CopyMove h p (.owning i) p [.group (h.item i).owner, .item i]
  | oldItem {i : ItemId} (hi : i ∈ p.items) : CopyMove h p (.item i) p []
  | newItem {i : ItemId} (hi : i ∉ p.items) :
      CopyMove h p (.item i) { p with items := i :: p.items } (h.itemCopyTasks i)
  | file (i : ItemId) (g : GroupId) :
      CopyMove h p (.file i g) { p with filed := (i, g) :: p.filed } []

theorem copyStep_move (h : Heap) (p : CopyPlan) (t : CopyTask) :
    CopyMove h p t (h.copyStep p t).1 (h.copyStep p t).2 := by
  cases t with
  | group g =>
    by_cases hg : g ∈ p.groups
    · simpa only [copyStep, if_pos hg] using CopyMove.oldGroup hg
    · simpa only [copyStep, if_neg hg] using CopyMove.newGroup hg
  | owning i =>
    by_cases hi : i ∈ p.items
    · simpa only [copyStep, if_pos hi] using CopyMove.oldOwning hi
    · simpa only [copyStep, if_neg hi] using CopyMove.newOwning hi
  | item i =>
    by_cases hi : i ∈ p.items
    · simpa only [copyStep, if_pos hi] using CopyMove.oldItem hi
    · simpa only [copyStep, if_neg hi] using CopyMove.newItem hi
  | file i g => exact CopyMove.file i g

/-- An invariant is kept by every step if every move keeps it. -/
theorem preserved_of_move {I : CopyPlan → List CopyTask → Prop}
    (hI : ∀ p t rest p' new, CopyMove h p t p' new → I p (t :: rest) → I p' (new ++ rest)) :
    Preserved h.copyStep I :=
  fun p t rest hp => hI p t rest _ _ (copyStep_move h p t) hp

theorem mem_groupCopyTasks {g : GroupId} {t : CopyTask} :
    t ∈ h.groupCopyTasks g ↔
      (∃ i, (h.group g).nestedIn = some i ∧ t = .owning i) ∨
      (∃ s, (h.group g).above = some s ∧ t = .group s) ∨
      (∃ s ∈ (h.group g).subs, t = .group s) ∨
      ∃ i ∈ (h.group g).itemIds, t = .item i ∨ t = .file i g := by
  simp [groupCopyTasks, eq_comm]

theorem mem_itemCopyTasks {i : ItemId} {t : CopyTask} :
    t ∈ h.itemCopyTasks i ↔ ∃ side, ∃ g ∈ ((h.item i).slot side).groups, t = .group g := by
  constructor
  · intro ht
    simp only [itemCopyTasks, List.map_append, List.mem_append, List.mem_map] at ht
    obtain ((⟨g, hg, rfl⟩ | ⟨g, hg, rfl⟩) | ⟨g, hg, rfl⟩) | ⟨g, hg, rfl⟩ := ht
    · exact ⟨.value, g, List.mem_append_left _ hg, rfl⟩
    · exact ⟨.key, g, List.mem_append_left _ hg, rfl⟩
    · exact ⟨.value, g, List.mem_append_right _ hg, rfl⟩
    · exact ⟨.key, g, List.mem_append_right _ hg, rfl⟩
  · intro hg
    obtain ⟨side, g, hg, rfl⟩ := hg
    cases side <;> rcases List.mem_append.1 hg with hp | ht <;>
      simp_all [itemCopyTasks, Item.slot]

/-! ### Only what is within reach is met -/

/-- The task leads to nodes within reach. -/
def TaskFound (h : Heap) (root : GroupId) : CopyTask → Prop
  | .group g => h.Reaches (.group root) (.group g)
  | .owning i => h.Reaches (.group root) (.item i)
  | .item i => h.Reaches (.group root) (.item i)
  | .file i g => h.Reaches (.group root) (.group g) ∧ i ∈ (h.group g).itemIds

/-- Everything met so far, and everything on the stack, is within reach. -/
structure Found (h : Heap) (root : GroupId) (p : CopyPlan) (todo : List CopyTask) : Prop where
  groups : ∀ g ∈ p.groups, h.Reaches (.group root) (.group g)
  items : ∀ i ∈ p.items, h.Reaches (.group root) (.item i)
  filed : ∀ e ∈ p.filed, h.Reaches (.group root) (.group e.2) ∧ e.1 ∈ (h.group e.2).itemIds
  todo : ∀ t ∈ todo, h.TaskFound root t

theorem taskFound_of_mem_groupCopyTasks {g : GroupId} (hg : h.Reaches (.group root) (.group g))
    {t : CopyTask} (ht : t ∈ h.groupCopyTasks g) : h.TaskFound root t := by
  obtain ⟨i, hi, rfl⟩ | ⟨s, hs, rfl⟩ | ⟨s, hs, rfl⟩ | ⟨i, hi, rfl | rfl⟩ :=
    mem_groupCopyTasks.1 ht
  · exact hg.tail (.nestedIn hi)
  · exact hg.tail (.above hs)
  · exact hg.tail (.below hs)
  · exact hg.tail (.item hi)
  · exact ⟨hg, hi⟩

theorem taskFound_of_mem_itemCopyTasks {i : ItemId} (hi : h.Reaches (.group root) (.item i))
    {t : CopyTask} (ht : t ∈ h.itemCopyTasks i) : h.TaskFound root t := by
  obtain ⟨side, g, hg, rfl⟩ := mem_itemCopyTasks.1 ht
  exact hi.tail (.nested side hg)

theorem found_preserved (h : Heap) (root : GroupId) : Preserved h.copyStep (h.Found root) := by
  refine preserved_of_move fun p t rest p' new hm hp => ?_
  have ht : h.TaskFound root t := hp.todo t List.mem_cons_self
  have hrest : ∀ u ∈ rest, h.TaskFound root u := fun u hu => hp.todo u (List.mem_cons_of_mem _ hu)
  cases hm with
  | oldGroup | oldOwning | oldItem => exact ⟨hp.groups, hp.items, hp.filed, hrest⟩
  | newGroup hg =>
    refine ⟨List.forall_mem_cons.2 ⟨ht, hp.groups⟩, hp.items, hp.filed, ?_⟩
    exact List.forall_mem_append.2 ⟨fun u hu => taskFound_of_mem_groupCopyTasks ht hu, hrest⟩
  | @newOwning i hi =>
    refine ⟨hp.groups, hp.items, hp.filed, ?_⟩
    have howner : h.TaskFound root (.group (h.item i).owner) := Reaches.tail ht (.owner i)
    exact List.forall_mem_cons.2 ⟨howner, List.forall_mem_cons.2 ⟨ht, hrest⟩⟩
  | newItem hi =>
    refine ⟨hp.groups, List.forall_mem_cons.2 ⟨ht, hp.items⟩, hp.filed, ?_⟩
    exact List.forall_mem_append.2 ⟨fun u hu => taskFound_of_mem_itemCopyTasks ht hu, hrest⟩
  | file i g => exact ⟨hp.groups, hp.items, List.forall_mem_cons.2 ⟨ht, hp.filed⟩, hrest⟩

/-! ### Nothing within reach is missed -/

/-- What the task leads to has been met or is on the stack. -/
def Settled (p : CopyPlan) (todo : List CopyTask) : CopyTask → Prop
  | .group g => g ∈ p.groups ∨ .group g ∈ todo
  | .owning i => i ∈ p.items ∨ .item i ∈ todo ∨ .owning i ∈ todo
  | .item i => i ∈ p.items ∨ .item i ∈ todo
  | .file _ _ => True

theorem settled_of_mem {p : CopyPlan} {todo : List CopyTask} {t : CopyTask} (ht : t ∈ todo) :
    Settled p todo t := by
  cases t with
  | group g => exact .inr ht
  | owning i => exact .inr (.inr ht)
  | item i => exact .inr ht
  | file i g => trivial

/-- A move never unsettles a task. -/
theorem settled_move {p p' : CopyPlan} {t : CopyTask} {rest new : List CopyTask}
    (hm : CopyMove h p t p' new) {u : CopyTask} (hu : Settled p (t :: rest) u) :
    Settled p' (new ++ rest) u := by
  cases hm <;> cases u <;> simp only [Settled, List.mem_cons, List.mem_append] at hu ⊢ <;> grind

/-- Every link of a node that has been met is settled. -/
structure Complete (h : Heap) (p : CopyPlan) (todo : List CopyTask) : Prop where
  groups : ∀ g ∈ p.groups, ∀ t ∈ h.groupCopyTasks g, Settled p todo t
  items : ∀ i ∈ p.items, ∀ t ∈ h.itemCopyTasks i, Settled p todo t

theorem complete_preserved (h : Heap) : Preserved h.copyStep h.Complete := by
  refine preserved_of_move fun p t rest p' new hm hp => ?_
  have hgroups : ∀ g ∈ p.groups, ∀ u ∈ h.groupCopyTasks g, Settled p' (new ++ rest) u :=
    fun g hg u hu => settled_move hm (hp.groups g hg u hu)
  have hitems : ∀ i ∈ p.items, ∀ u ∈ h.itemCopyTasks i, Settled p' (new ++ rest) u :=
    fun i hi u hu => settled_move hm (hp.items i hi u hu)
  cases hm with
  | newGroup hg =>
    refine ⟨List.forall_mem_cons.2 ⟨fun u hu => ?_, hgroups⟩, hitems⟩
    exact settled_of_mem (List.mem_append_left _ hu)
  | newItem hi =>
    refine ⟨hgroups, List.forall_mem_cons.2 ⟨fun u hu => ?_, hitems⟩⟩
    exact settled_of_mem (List.mem_append_left _ hu)
  | _ => exact ⟨hgroups, hitems⟩

/-- The items of every group within reach belong to that group. -/
def ItemsOwned (h : Heap) (root : GroupId) : Prop :=
  ∀ g, h.Reaches (.group root) (.group g) → ∀ i ∈ (h.group g).itemIds, (h.item i).owner = g

/-- The owner of every item that has been met, or is on the stack to be met next, is settled. -/
structure OwnersMet (h : Heap) (root : GroupId) (p : CopyPlan) (todo : List CopyTask) : Prop where
  found : h.Found root p todo
  owners : ∀ i, i ∈ p.items ∨ .item i ∈ todo →
    (h.item i).owner ∈ p.groups ∨ .group (h.item i).owner ∈ todo

theorem ownersMet_preserved (howned : h.ItemsOwned root) :
    Preserved h.copyStep (h.OwnersMet root) := by
  intro p t rest hp
  refine ⟨found_preserved h root p t rest hp.found, ?_⟩
  have ht : h.TaskFound root t := hp.found.todo t List.mem_cons_self
  have howners := hp.owners
  have hm := copyStep_move h p t
  generalize (h.copyStep p t).1 = p' at hm ⊢
  generalize (h.copyStep p t).2 = new at hm ⊢
  intro i hi
  cases hm with
  | @newGroup g hg =>
    -- the items of a new group are its own, so their owner is met with them
    by_cases hmem : CopyTask.item i ∈ h.groupCopyTasks g
    · have hig : i ∈ (h.group g).itemIds := by simpa [mem_groupCopyTasks] using hmem
      rw [howned g ht i hig]
      exact .inl List.mem_cons_self
    · grind
  | @newItem j hj =>
    have hmem : CopyTask.item i ∉ h.itemCopyTasks j := by simp [mem_itemCopyTasks]
    grind
  | _ => grind

/-! ### The collection ends -/

/-- What the nodes cost that have not been met. -/
def copyStore (h : Heap) (p : CopyPlan) : Nat :=
  unvisited (fun g => totalCost copyCost (h.groupCopyTasks g)) h.groupIds p.groups +
    unvisited (fun i => totalCost copyCost (h.itemCopyTasks i)) h.itemIds p.items

/-- A group met for the first time pays for the tasks that it leads to. -/
theorem unvisited_group {g : GroupId} {met : List GroupId} (hg : g ∉ met) :
    unvisited (fun g => totalCost copyCost (h.groupCopyTasks g)) h.groupIds (g :: met) +
        totalCost copyCost (h.groupCopyTasks g) ≤
      unvisited (fun g => totalCost copyCost (h.groupCopyTasks g)) h.groupIds met := by
  by_cases hin : h.HasGroup g
  · exact unvisited_cons_lt _ (mem_groupIds.2 hin) hg
  · have hnone : h.groupCopyTasks g = [] := by
      simp [groupCopyTasks, group_of_not_hasGroup hin, Group.subs, Group.itemIds,
        OrderedMap.values, OrderedMap.empty]
    rw [hnone]
    exact unvisited_cons_le _ _ _ _

/-- An item met for the first time pays for the tasks that it leads to. -/
theorem unvisited_item {i : ItemId} {met : List ItemId} (hi : i ∉ met) :
    unvisited (fun i => totalCost copyCost (h.itemCopyTasks i)) h.itemIds (i :: met) +
        totalCost copyCost (h.itemCopyTasks i) ≤
      unvisited (fun i => totalCost copyCost (h.itemCopyTasks i)) h.itemIds met := by
  by_cases hin : h.HasItem i
  · exact unvisited_cons_lt _ (mem_itemIds.2 hin) hi
  · have hnone : h.itemCopyTasks i = [] := by
      rw [itemCopyTasks, item_of_not_hasItem hin]
      rfl
    rw [hnone]
    exact unvisited_cons_le _ _ _ _

theorem copyStep_cost (h : Heap) (p : CopyPlan) (t : CopyTask) :
    h.copyStore (h.copyStep p t).1 + totalCost copyCost (h.copyStep p t).2 <
      h.copyStore p + copyCost t := by
  have hm := copyStep_move h p t
  generalize (h.copyStep p t).1 = p' at hm ⊢
  generalize (h.copyStep p t).2 = new at hm ⊢
  cases hm with
  | newGroup hg =>
    have := unvisited_group (h := h) hg
    simp only [copyStore, copyCost]
    omega
  | newItem hi =>
    have := unvisited_item (h := h) hi
    simp only [copyStore, copyCost]
    omega
  | _ => simp [copyStore, copyCost]

/-- The bound on the steps of a collection is never reached. -/
theorem explore_copyStep_isSome (h : Heap) (root : GroupId) :
    (explore h.copyStep h.copyBound {} [.group root]).isSome = true := by
  refine explore_isSome (copyStep_cost h) _ _ _ ?_
  simp [copyStore, copyBound, unvisited_nil, copyCost]

/-- A plan holds exactly what a root is linked to, and files items where they are. -/
structure PlanOf (h : Heap) (root : GroupId) (p : CopyPlan) : Prop where
  mem_groups : ∀ g, g ∈ p.groups ↔ h.Reaches (.group root) (.group g)
  mem_items : ∀ i, i ∈ p.items ↔ h.Reaches (.group root) (.item i)
  filed : ∀ e ∈ p.filed, h.Reaches (.group root) (.group e.2) ∧ e.1 ∈ (h.group e.2).itemIds

/-- Whether a node has been met. -/
def Met (p : CopyPlan) : Node → Prop
  | .group g => g ∈ p.groups
  | .item i => i ∈ p.items

/-- When the stack is empty, the links of groups that have been met lead to such nodes. -/
theorem Complete.met_of_group {p : CopyPlan} (hc : h.Complete p []) {g : GroupId} {n : Node}
    (hg : g ∈ p.groups) (hn : h.Link (.group g) n) : Met p n := by
  have hgroups : ∀ t ∈ h.groupCopyTasks g, Settled p [] t := hc.groups g hg
  cases hn with
  | @above g s hs =>
    have := hgroups (.group s) (mem_groupCopyTasks.2 (.inr (.inl ⟨s, hs, rfl⟩)))
    simpa [Settled, Met] using this
  | @below g s hs =>
    have := hgroups (.group s) (mem_groupCopyTasks.2 (.inr (.inr (.inl ⟨s, hs, rfl⟩))))
    simpa [Settled, Met] using this
  | @nestedIn g i hi =>
    have := hgroups (.owning i) (mem_groupCopyTasks.2 (.inl ⟨i, hi, rfl⟩))
    simpa [Settled, Met] using this
  | @item g i hi =>
    have := hgroups (.item i) (mem_groupCopyTasks.2 (.inr (.inr (.inr ⟨i, hi, .inl rfl⟩))))
    simpa [Settled, Met] using this

/-- When the stack is empty, the groups nested in items that have been met have been met. -/
theorem Complete.met_of_item {p : CopyPlan} (hc : h.Complete p []) {i : ItemId} (hi : i ∈ p.items)
    {side : Side} {g : GroupId} (hg : g ∈ ((h.item i).slot side).groups) : g ∈ p.groups := by
  have := hc.items i hi (.group g) (mem_itemCopyTasks.2 ⟨side, g, hg, rfl⟩)
  simpa [Settled] using this

theorem met_of_link {p : CopyPlan} (hc : h.Complete p []) (ho : h.OwnersMet root p [])
    {a b : Node} (ha : Met p a) (hab : h.Link a b) : Met p b := by
  cases a with
  | group g => exact hc.met_of_group ha hab
  | item i =>
    cases hab with
    | owner => exact (ho.owners i (.inl ha)).resolve_right List.not_mem_nil
    | nested side hg => exact hc.met_of_item ha hg

/-- A group that has been met stays met. -/
theorem root_met (h : Heap) (root : GroupId) :
    Preserved h.copyStep fun p todo => root ∈ p.groups ∨ .group root ∈ todo := by
  refine preserved_of_move fun p t rest p' new hm hp => ?_
  exact settled_move (u := .group root) hm hp

/-- The plan of a copy lists what a collection has met in the order in which it was met. -/
theorem exists_copyPlan (h : Heap) (root : GroupId) :
    ∃ p, explore h.copyStep h.copyBound {} [.group root] = some p ∧ h.copyPlan root =
      { groups := p.groups.reverse, items := p.items.reverse, filed := p.filed } := by
  obtain ⟨p, hp⟩ := Option.isSome_iff_exists.1 (explore_copyStep_isSome h root)
  refine ⟨p, hp, ?_⟩
  rw [copyPlan, hp]

/-- Everything that a collection meets is settled in the end. -/
theorem complete_copyPlan {p : CopyPlan}
    (hp : explore h.copyStep h.copyBound {} [.group root] = some p) : h.Complete p [] :=
  (complete_preserved h).explore _ _ _ ⟨by simp, by simp⟩ hp

theorem root_mem_of_explore {p : CopyPlan}
    (hp : explore h.copyStep h.copyBound {} [.group root] = some p) : root ∈ p.groups :=
  ((root_met h root).explore _ _ _ (.inr List.mem_cons_self) hp).resolve_right List.not_mem_nil

/-- **The plan of a copy holds exactly what the root is linked to.** -/
theorem copyPlan_planOf (howned : h.ItemsOwned root) : h.PlanOf root (h.copyPlan root) := by
  obtain ⟨p, hp, hplan⟩ := exists_copyPlan h root
  have hempty : h.OwnersMet root {} [.group root] := by
    refine ⟨⟨by simp, by simp, by simp, ?_⟩, by simp⟩
    simpa [TaskFound] using Reaches.refl (Node.group root)
  have ho : h.OwnersMet root p [] := (ownersMet_preserved howned).explore _ _ _ hempty hp
  have hc : h.Complete p [] := complete_copyPlan hp
  have hroot : root ∈ p.groups := root_mem_of_explore hp
  have hmet : ∀ n, h.Reaches (.group root) n → Met p n := by
    intro n hn
    induction hn with
    | refl => exact hroot
    | tail _ hlink ih => exact met_of_link hc ho ih hlink
  rw [hplan]
  refine ⟨fun g => ?_, fun i => ?_, ho.found.filed⟩
  · rw [List.mem_reverse]
    exact ⟨ho.found.groups g, hmet (.group g)⟩
  · rw [List.mem_reverse]
    exact ⟨ho.found.items i, hmet (.item i)⟩

/-! ### Laying out the copies -/

/-- The address `v` of a new heap holds the settings that a factory issued: new ones, or those at
an address of the old heap. -/
def HoldsIssued (old new : Heap) (v : VariantId) : Issued → Prop
  | .fresh w => old.variants.size ≤ v.index ∧ v.index < new.variants.size ∧ new.variant v = w
  | .existing u => v = u ∧ (u.index < old.variants.size → new.variant u = old.variant u)

/-- The variants of a heap are still there, at their addresses. -/
structure KeepsVariants (old new : Heap) : Prop where
  size : old.variants.size ≤ new.variants.size
  variant : ∀ v : VariantId, v.index < old.variants.size → new.variant v = old.variant v

theorem KeepsVariants.trans {a b c : Heap} (hab : a.KeepsVariants b) (hbc : b.KeepsVariants c) :
    a.KeepsVariants c where
  size := Nat.le_trans hab.size hbc.size
  variant v hv := by rw [hbc.variant v (Nat.lt_of_lt_of_le hv hab.size), hab.variant v hv]

/-- Settings stay where they are when variants are added. -/
theorem holdsIssued_of_keepsVariants {old mid new : Heap} {v : VariantId} {issued : Issued}
    (hkeep : mid.KeepsVariants new) (hold : old.KeepsVariants mid)
    (hv : old.HoldsIssued mid v issued) : old.HoldsIssued new v issued := by
  cases issued with
  | fresh w =>
    obtain ⟨hle, hlt, hw⟩ := hv
    exact ⟨hle, Nat.lt_of_lt_of_le hlt hkeep.size, by rw [hkeep.variant v hlt, hw]⟩
  | existing u =>
    obtain ⟨rfl, _⟩ := hv
    exact ⟨rfl, (hold.trans hkeep).variant v⟩

/-- Settings that are new to a heap are new to one with fewer variants. -/
theorem holdsIssued_of_keepsVariants_left {old mid new : Heap} {v : VariantId} {issued : Issued}
    (hold : old.KeepsVariants mid) (hkeep : mid.KeepsVariants new)
    (hv : mid.HoldsIssued new v issued) : old.HoldsIssued new v issued := by
  cases issued with
  | fresh w => exact ⟨Nat.le_trans hold.size hv.1, hv.2⟩
  | existing u => exact ⟨hv.1, (hold.trans hkeep).variant u⟩

/-- The copies of groups stand behind what was there, in order. -/
structure LaidOut (h : Heap) (p : CopyPlan) (old new : Heap) (issued : List (GroupId × Issued)) :
    Prop where
  size : new.groups.size = old.groups.size + issued.length
  items : new.items = old.items
  variants : old.KeepsVariants new
  groups : ∀ k, k < old.groups.size → new.groups[k]? = old.groups[k]?
  copies : ∀ k e, issued[k]? = some e → ∃ v,
    new.groups[old.groups.size + k]? = some (h.relocateGroup p e.1 v) ∧ old.HoldsIssued new v e.2

theorem laidOut_pushCopy (h : Heap) (p : CopyPlan) (old : Heap) (e : GroupId × Issued) :
    h.LaidOut p old (h.pushCopy p old e.1 e.2) [e] := by
  obtain ⟨g, issued⟩ := e
  cases issued with
  | fresh w =>
    refine ⟨by simp [pushCopy], rfl, ⟨by simp [pushCopy], ?_⟩, ?_, ?_⟩
    · intro v hv
      simp [pushCopy, variant, Array.getD_eq_getD_getElem?, Array.getElem?_push, Nat.ne_of_lt hv]
    · intro k hk
      simp [pushCopy, Array.getElem?_push, Nat.ne_of_lt hk]
    · intro k e he
      obtain ⟨rfl, rfl⟩ : k = 0 ∧ (g, Issued.fresh w) = e := by
        cases k <;> simp_all
      refine ⟨⟨old.variants.size⟩, by simp [pushCopy], Nat.le_refl _, by simp [pushCopy], ?_⟩
      simp [pushCopy, variant, Array.getD_eq_getD_getElem?]
  | existing u =>
    refine ⟨by simp [pushCopy], rfl, ⟨Nat.le_refl _, fun _ _ => rfl⟩, ?_, ?_⟩
    · intro k hk
      simp [pushCopy, Array.getElem?_push, Nat.ne_of_lt hk]
    · intro k e he
      obtain ⟨rfl, rfl⟩ : k = 0 ∧ (g, Issued.existing u) = e := by
        cases k <;> simp_all
      exact ⟨u, by simp [pushCopy], rfl, fun _ => rfl⟩

theorem LaidOut.trans {p : CopyPlan} {a b c : Heap} {e : GroupId × Issued}
    {issued : List (GroupId × Issued)} (hab : h.LaidOut p a b [e])
    (hbc : h.LaidOut p b c issued) : h.LaidOut p a c (e :: issued) := by
  have hsize : b.groups.size = a.groups.size + 1 := hab.size
  refine ⟨?_, hbc.items.trans hab.items, hab.variants.trans hbc.variants, ?_, ?_⟩
  · rw [hbc.size, hsize, List.length_cons]
    omega
  · intro k hk
    rw [hbc.groups k (by omega), hab.groups k hk]
  · intro k e' he'
    cases k with
    | zero =>
      obtain ⟨v, hv, hgiven⟩ := hab.copies 0 e' he'
      refine ⟨v, ?_, holdsIssued_of_keepsVariants hbc.variants hab.variants hgiven⟩
      rw [hbc.groups _ (by omega), hv]
    | succ k =>
      obtain ⟨v, hv, hgiven⟩ := hbc.copies k e' he'
      refine ⟨v, ?_, holdsIssued_of_keepsVariants_left hab.variants hbc.variants hgiven⟩
      rw [← hv, hsize]
      congr 1
      omega

theorem laidOut_foldl (h : Heap) (p : CopyPlan) : ∀ (issued : List (GroupId × Issued)) (old : Heap),
    h.LaidOut p old (issued.foldl (fun new e => h.pushCopy p new e.1 e.2) old) issued := by
  intro issued
  induction issued with
  | nil =>
    intro old
    exact ⟨rfl, rfl, ⟨Nat.le_refl _, fun _ _ => rfl⟩, fun _ _ => rfl, by simp⟩
  | cons e issued ih =>
    intro old
    exact (laidOut_pushCopy h p old e).trans (ih _)

/-- What is issued for a list of groups is issued for each of them, in order. -/
theorem issueAll_spec {f : Factory} : ∀ (gs : List GroupId) {all : List (GroupId × Issued)},
    h.issueAll f gs = .ok all →
    all.map Prod.fst = gs ∧ ∀ e ∈ all, f.issue h e.1 = .ok e.2 := by
  intro gs
  induction gs with
  | nil =>
    intro all hall
    rw [← Except.ok.inj hall]
    exact ⟨rfl, fun e he => absurd he List.not_mem_nil⟩
  | cons g gs ih =>
    intro all hall
    unfold issueAll at hall
    cases hg : f.issue h g with
    | error cause =>
      rw [hg] at hall
      cases hall
    | ok issued =>
      cases hrest : h.issueAll f gs with
      | error e =>
        simp only [hg, hrest] at hall
        cases hall
      | ok rest =>
        simp only [hg, hrest] at hall
        obtain ⟨hfst, hissue⟩ := ih hrest
        rw [← Except.ok.inj hall]
        refine ⟨?_, List.forall_mem_cons.2 ⟨hg, hissue⟩⟩
        rw [List.map_cons, hfst]

/-- A factory that refuses no group of a list issues something for all of them. -/
theorem exists_issueAll {f : Factory} : ∀ (gs : List GroupId),
    (∀ g ∈ gs, ∃ issued, f.issue h g = .ok issued) → ∃ all, h.issueAll f gs = .ok all := by
  intro gs
  induction gs with
  | nil => exact fun _ => ⟨[], rfl⟩
  | cons g gs ih =>
    intro hgs
    rw [List.forall_mem_cons] at hgs
    obtain ⟨issued, hg⟩ := hgs.1
    obtain ⟨all, hall⟩ := ih hgs.2
    refine ⟨(g, issued) :: all, ?_⟩
    simp only [issueAll, hg, hall]
    rfl

/-! ### Reading the copies -/

section Reading

variable {p : CopyPlan} {issued : List (GroupId × Issued)}

/-- The copy of a group, behind the groups of the old heap. -/
theorem group_pushCopies (hfst : issued.map Prod.fst = p.groups) {g : GroupId}
    (hg : g ∈ p.groups) :
    (h.pushCopies p issued).HasGroup (h.copyOfGroup p g) ∧
      ∃ e ∈ issued, e.1 = g ∧ ∃ v,
        (h.pushCopies p issued).group (h.copyOfGroup p g) = h.relocateGroup p g v ∧
          h.HoldsIssued (h.pushCopies p issued) v e.2 := by
  have hlaid := laidOut_foldl h p issued h
  have hlen : issued.length = p.groups.length := by simpa using congrArg List.length hfst
  have hk : p.groups.idxOf g < p.groups.length := List.idxOf_lt_length_of_mem hg
  have hk' : p.groups.idxOf g < issued.length := by omega
  have he : (issued[p.groups.idxOf g]).1 = g := by
    have hmap : (issued.map Prod.fst)[p.groups.idxOf g]? = some g := by
      rw [hfst, List.getElem?_eq_getElem hk, List.getElem_idxOf]
    simpa [List.getElem?_eq_getElem hk'] using hmap
  obtain ⟨v, hv, hholds⟩ := hlaid.copies _ _ (List.getElem?_eq_getElem hk')
  rw [he] at hv
  refine ⟨?_, _, List.getElem_mem hk', he, v, ?_, ?_⟩
  · exact (Array.getElem?_eq_some_iff.1 hv).1
  · simp only [group, copyOfGroup, pushCopies, Array.getD_eq_getD_getElem?, hv, Option.getD_some]
  · exact hholds

/-- The copy of an item, behind the items of the old heap. -/
theorem item_pushCopies {i : ItemId} (hi : i ∈ p.items) :
    (h.pushCopies p issued).HasItem (h.copyOfItem p i) ∧
      (h.pushCopies p issued).item (h.copyOfItem p i) = h.relocateItem p i := by
  have hitems := (laidOut_foldl h p issued h).items
  have hk : p.items.idxOf i < p.items.length := List.idxOf_lt_length_of_mem hi
  constructor
  · simpa [HasItem, copyOfItem, pushCopies, hitems] using hk
  · simp [item, copyOfItem, pushCopies, hitems, Array.getD_eq_getD_getElem?, hk]

theorem copyOfGroup_injective {a b : GroupId} (ha : a ∈ p.groups)
    (hab : h.copyOfGroup p a = h.copyOfGroup p b) : a = b := by
  have hidx : p.groups.idxOf a = p.groups.idxOf b := by
    simpa [copyOfGroup] using congrArg GroupId.index hab
  exact (List.idxOf_inj ha).1 hidx

theorem copyOfItem_injective {i j : ItemId} (hi : i ∈ p.items)
    (hij : h.copyOfItem p i = h.copyOfItem p j) : i = j := by
  have hidx : p.items.idxOf i = p.items.idxOf j := by
    simpa [copyOfItem] using congrArg ItemId.index hij
  exact (List.idxOf_inj hi).1 hidx

end Reading

/-! ### The isomorphism -/

/-- A group `g'` of the new heap is the image of `g`: the same label, type and flag, and all links
of `g` with their ends replaced by the images. -/
structure GroupImage (h new : Heap) (f : Factory) (φ : GroupId → GroupId) (ψ : ItemId → ItemId)
    (g : GroupId) : Prop where
  name : (new.group (φ g)).name = (h.group g).name
  type : (new.group (φ g)).type = (h.group g).type
  /-- A type lends its class name where no type name is given. -/
  typeName : (new.group (φ g)).typeName =
    (h.group g).typeName.or ((h.group g).type.map ObjectType.name)
  validated : (new.group (φ g)).validated = (h.group g).validated
  above : (new.group (φ g)).above = (h.group g).above.map φ
  /-- No sub groups stay none at all, others keep their order. -/
  below : (new.group (φ g)).below.map OrderedSet.toList =
    (h.group g).below.map fun s => s.toList.map φ
  nestedIn : (new.group (φ g)).nestedIn = (h.group g).nestedIn.map ψ
  items : (new.group (φ g)).items.entries = (h.group g).items.entries.map fun e => (e.1, ψ e.2)
  variant : ∃ issued, f.issue h g = .ok issued ∧
    h.HoldsIssued new (new.group (φ g)).variant issued

/-- An item of the new heap is the image of `i`. -/
structure ItemImage (h new : Heap) (φ : GroupId → GroupId) (ψ : ItemId → ItemId) (i : ItemId) :
    Prop where
  name : (new.item (ψ i)).name = (h.item i).name
  owner : (new.item (ψ i)).owner = φ (h.item i).owner
  primary : ∀ side,
    ((new.item (ψ i)).slot side).primary = ((h.item i).slot side).primary.map φ
  /-- The typed groups keep their keys and their order. -/
  byType : ∀ side, ((new.item (ψ i)).slot side).byType.map OrderedMap.entries =
    ((h.item i).slot side).byType.map fun m => m.entries.map fun e => (e.1, φ e.2)

/-- The part of a heap that a root is linked to has an image in a new heap, one new node for each
node, and every link between images is the image of a link. -/
structure Isomorphic (h new : Heap) (root : GroupId) (f : Factory) (φ : GroupId → GroupId)
    (ψ : ItemId → ItemId) : Prop where
  newGroup : ∀ g, h.Reaches (.group root) (.group g) → ¬ h.HasGroup (φ g) ∧ new.HasGroup (φ g)
  newItem : ∀ i, h.Reaches (.group root) (.item i) → ¬ h.HasItem (ψ i) ∧ new.HasItem (ψ i)
  groupsDistinct : ∀ a b, h.Reaches (.group root) (.group a) → h.Reaches (.group root) (.group b) →
    φ a = φ b → a = b
  itemsDistinct : ∀ i j, h.Reaches (.group root) (.item i) → h.Reaches (.group root) (.item j) →
    ψ i = ψ j → i = j
  group : ∀ g, h.Reaches (.group root) (.group g) → h.GroupImage new f φ ψ g
  item : ∀ i, h.Reaches (.group root) (.item i) → h.ItemImage new φ ψ i

/-- The owner of an item is the group that it was filed in, or else its owner before. -/
theorem owner_of_filed {p : CopyPlan} (howned : h.ItemsOwned root) (hp : h.PlanOf root p)
    (i : ItemId) : (p.filed.lookup i).getD (h.item i).owner = (h.item i).owner := by
  cases hlookup : p.filed.lookup i with
  | none => rfl
  | some g =>
    have hmem : (i, g) ∈ p.filed := by
      obtain ⟨l₁, l₂, hl, _⟩ := List.lookup_eq_some_iff.1 hlookup
      rw [hl]
      simp
    obtain ⟨hg, hi⟩ := hp.filed _ hmem
    exact (howned g hg i hi).symm

theorem groupImage_pushCopies {p : CopyPlan} {issued : List (GroupId × Issued)} {f : Factory}
    (hp : h.PlanOf root p) (hfst : issued.map Prod.fst = p.groups)
    (hissue : ∀ e ∈ issued, f.issue h e.1 = .ok e.2) {g : GroupId}
    (hg : h.Reaches (.group root) (.group g)) :
    h.GroupImage (h.pushCopies p issued) f (h.copyOfGroup p) (h.copyOfItem p) g := by
  obtain ⟨-, e, he, rfl, v, hv, hholds⟩ := group_pushCopies (h := h) hfst ((hp.mem_groups g).2 hg)
  have hsubs : ∀ s, (h.group e.1).below = some s →
      (s.map (h.copyOfGroup p)).toList = s.toList.map (h.copyOfGroup p) := by
    intro s hs
    refine OrderedSet.toList_map fun a ha b hb hab => copyOfGroup_injective ?_ hab
    exact (hp.mem_groups a).2 (hg.tail (.below (by simpa [Group.subs, hs] using ha)))
  refine ⟨?_, ?_, ?_, ?_, ?_, ?_, ?_, ?_, e.2, hissue e he, ?_⟩
  · simp [hv, relocateGroup]
  · simp [hv, relocateGroup]
  · simp [hv, relocateGroup]
  · simp [hv, relocateGroup]
  · simp [hv, relocateGroup]
  · cases hbelow : (h.group e.1).below with
    | none => simp [hv, relocateGroup, hbelow]
    | some s => simp [hv, relocateGroup, hbelow, hsubs s hbelow]
  · simp [hv, relocateGroup]
  · simp [hv, relocateGroup, OrderedMap.mapValues]
  · simpa [hv, relocateGroup] using hholds

theorem itemImage_pushCopies {p : CopyPlan} {issued : List (GroupId × Issued)}
    (howned : h.ItemsOwned root) (hp : h.PlanOf root p) {i : ItemId}
    (hi : h.Reaches (.group root) (.item i)) :
    h.ItemImage (h.pushCopies p issued) (h.copyOfGroup p) (h.copyOfItem p) i := by
  have hv : (h.pushCopies p issued).item (h.copyOfItem p i) = h.relocateItem p i :=
    (item_pushCopies ((hp.mem_items i).2 hi)).2
  refine ⟨?_, ?_, fun side => ?_, fun side => ?_⟩
  · simp [hv, relocateItem]
  · simp [hv, relocateItem, owner_of_filed howned hp]
  · cases side <;> simp [hv, relocateItem, Item.slot, relocateSlot]
  · cases side <;>
      simp [hv, relocateItem, Item.slot, relocateSlot, Function.comp_def, OrderedMap.mapValues]

/-- **A copy is isomorphic to its source.**  If the items of every group that the root is linked to
belong to that group, and the factory refuses none of these groups, then copying succeeds, and the
answer is the image of the root. -/
theorem copyFor_isomorphic (h : Heap) (root : GroupId) (f : Factory) (howned : h.ItemsOwned root)
    (hissue : ∀ g, h.Reaches (.group root) (.group g) → ∃ issued, f.issue h g = .ok issued) :
    ∃ (φ : GroupId → GroupId) (ψ : ItemId → ItemId),
      (h.copyFor root f).answer = .ok (φ root) ∧
        h.Isomorphic (h.copyFor root f).heap root f φ ψ := by
  have hp := copyPlan_planOf howned
  obtain ⟨issued, hall⟩ := exists_issueAll (h := h) (f := f) (h.copyPlan root).groups
    fun g hg => hissue g ((hp.mem_groups g).1 hg)
  obtain ⟨hfst, hissued⟩ := issueAll_spec _ hall
  have hcopy : h.copyFor root f =
      { heap := h.pushCopies (h.copyPlan root) issued
        answer := .ok (h.copyOfGroup (h.copyPlan root) root) } := by
    simp [copyFor, hall]
  rw [hcopy]
  refine ⟨h.copyOfGroup (h.copyPlan root), h.copyOfItem (h.copyPlan root), rfl, ?_⟩
  refine ⟨fun g hg => ⟨?_, ?_⟩, fun i hi => ⟨?_, ?_⟩, fun a b ha _ => ?_, fun i j hi _ => ?_,
    fun g hg => groupImage_pushCopies hp hfst hissued hg,
    fun i hi => itemImage_pushCopies howned hp hi⟩
  · simp [HasGroup, copyOfGroup]
  · exact (group_pushCopies hfst ((hp.mem_groups g).2 hg)).1
  · simp [HasItem, copyOfItem]
  · exact (item_pushCopies ((hp.mem_items i).2 hi)).1
  · exact copyOfGroup_injective ((hp.mem_groups a).2 ha)
  · exact copyOfItem_injective ((hp.mem_items i).2 hi)

/-- Two groups that are linked in every direction: the second lies below the first one and is
nested in its item, under its type name too, and holds the first one as the keys of its own item. -/
def knot : Heap where
  groups := #[
    { name := "outer", below := some (.ofList [⟨1⟩]), items := .ofList [("a", ⟨0⟩)] },
    { name := "inner", typeName := some "Inner", above := some ⟨0⟩, nestedIn := some ⟨0⟩
      items := .ofList [("b", ⟨1⟩)] }]
  items := #[
    { name := "a", owner := ⟨0⟩
      value := { primary := some ⟨1⟩, byType := some (.ofList [(.name "Inner", ⟨1⟩)]) } },
    { name := "b", owner := ⟨1⟩, key := { primary := some ⟨0⟩ } }]
  variants := #[.generic]

theorem knot_itemsOwned : knot.ItemsOwned ⟨0⟩ := by
  rintro ⟨n⟩ - i hi
  match n with
  | 0 =>
    obtain rfl : i = ⟨0⟩ := by simpa using (show i ∈ [(⟨0⟩ : ItemId)] from hi)
    rfl
  | 1 =>
    obtain rfl : i = ⟨1⟩ := by simpa using (show i ∈ [(⟨1⟩ : ItemId)] from hi)
    rfl
  | n + 2 => exact absurd hi List.not_mem_nil

theorem copyFor_isomorphic_knot :
    knot.ItemsOwned ⟨0⟩ ∧
      (∀ g, knot.Reaches (.group ⟨0⟩) (.group g) →
        ∃ issued, Factory.clone.issue knot g = .ok issued) ∧
      ∃ (φ : GroupId → GroupId) (ψ : ItemId → ItemId),
        (knot.copyFor ⟨0⟩ .clone).answer = .ok (φ ⟨0⟩) ∧
          knot.Isomorphic (knot.copyFor ⟨0⟩ .clone).heap ⟨0⟩ .clone φ ψ :=
  ⟨knot_itemsOwned, fun _ _ => ⟨_, rfl⟩,
    copyFor_isomorphic knot ⟨0⟩ .clone knot_itemsOwned fun _ _ => ⟨_, rfl⟩⟩

end AttributeGraph.Heap
