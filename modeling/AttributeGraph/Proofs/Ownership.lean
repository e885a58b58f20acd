/-
Every item belongs to the group that lists it.

An item knows its owner, and a group lists its items; nothing in a heap makes the
two agree.  They do agree as long as no item is filed in a group by hand.  Most
operations list nothing new and leave owners alone (`KeepsHomes`).  The others
list an item only where they have just added it, as an item of that group: adding
paths, and copying.  In a copy the owner of an item is the copy of the group that
the item was filed from, or was met with, and where the original is listed by its
owner these are the same.

So an item that a path leads to is listed once, under its name, by its owner, and
removing it drops this one entry (`ItemsAtHome.removesFound`).
-/
import AttributeGraph.Proofs.Operations

namespace AttributeGraph

variable {a b c h : Heap} {g x y : GroupId} {i j : ItemId} {side : Side}

namespace Heap

/-- Every item that a group lists is an item of the heap and belongs to the group. -/
def ItemsAtHome (h : Heap) : Prop :=
  ∀ g, ∀ i ∈ (h.group g).itemIds, h.HasItem i ∧ (h.item i).owner = g

/-- **No item is listed by two groups.** -/
theorem ItemsAtHome.eq_of_mem (hhome : h.ItemsAtHome) (hx : i ∈ (h.group x).itemIds)
    (hy : i ∈ (h.group y).itemIds) : x = y :=
  (hhome x i hx).2.symm.trans (hhome y i hy).2

/-! ### Operations that list nothing new -/

/-- What every change of super and sub groups keeps is kept by linking a group below another one. -/
theorem keeps_insertBelow {P : Heap → Prop}
    (hP : ∀ h g (f : Group → Group), (∀ x, ∃ s t, f x = { x with above := s, below := t }) → P h →
      P (h.alterGroup g f))
    (relation : Hierarchy) (parent g : GroupId) (hh : P h) :
    P (h.insertBelow relation parent g) := by
  have hreparent : ∀ child (h : Heap), P h → P (h.reparent child parent g) := by
    intro child h hh
    unfold reparent
    exact hP _ _ _ (fun x => ⟨_, _, rfl⟩) (hP _ _ _ (fun x => ⟨_, _, rfl⟩)
      (hP _ _ _ (fun x => ⟨_, _, rfl⟩) hh))
  have hmoved : ∀ (children : List GroupId) {h : Heap}, P h →
      P (children.foldl (fun h child =>
        if h.derivesFrom relation g child then h.reparent child parent g else h) h) := by
    intro children
    induction children with
    | nil => exact fun hh => hh
    | cons s rest ih =>
      intro h hh
      rw [List.foldl_cons]
      by_cases hderives : h.derivesFrom relation g s = true
      · rw [if_pos hderives]
        exact ih (hreparent s h hh)
      · rw [if_neg hderives]
        exact ih hh
  unfold insertBelow
  by_cases heq : g = parent
  · rw [if_pos heq]
    exact hh
  · rw [if_neg heq]
    exact hP _ _ _ (fun x => ⟨_, _, rfl⟩) (hmoved _ (hP _ _ _ (fun x => ⟨_, _, rfl⟩) hh))

/-- Groups list no other items than before, and items keep their owners. -/
def KeepsHomes (a b : Heap) : Prop :=
  ∀ g, ∀ i ∈ (b.group g).itemIds, i ∈ (a.group g).itemIds ∧
    (a.HasItem i → b.HasItem i ∧ (b.item i).owner = (a.item i).owner)

namespace KeepsHomes

theorem refl (a : Heap) : KeepsHomes a a := fun _ _ hi => ⟨hi, fun hin => ⟨hin, rfl⟩⟩

theorem trans (hab : KeepsHomes a b) (hbc : KeepsHomes b c) : KeepsHomes a c := by
  intro g i hi
  obtain ⟨hib, hbc⟩ := hbc g i hi
  obtain ⟨hia, hab⟩ := hab g i hib
  refine ⟨hia, fun hin => ?_⟩
  obtain ⟨hin, hownerb⟩ := hab hin
  obtain ⟨hin, hownerc⟩ := hbc hin
  exact ⟨hin, hownerc.trans hownerb⟩

/-- Items stay at home. -/
theorem itemsAtHome (hab : KeepsHomes a b) (hhome : a.ItemsAtHome) : b.ItemsAtHome := by
  intro g i hi
  obtain ⟨hia, hkept⟩ := hab g i hi
  obtain ⟨hin, howner⟩ := hhome g i hia
  obtain ⟨hin, heq⟩ := hkept hin
  exact ⟨hin, heq.trans howner⟩

theorem alterGroup (hab : KeepsHomes a b) (g : GroupId) {f : Group → Group}
    (hf : ∀ x, ∀ i ∈ (f x).itemIds, i ∈ x.itemIds) : KeepsHomes a (b.alterGroup g f) := by
  refine hab.trans fun x i hi => ⟨?_, fun hin => ⟨hin, rfl⟩⟩
  rw [group_alterGroup] at hi
  by_cases hx : g = x ∧ b.HasGroup x
  · rw [if_pos hx] at hi
    exact hf _ i hi
  · rwa [if_neg hx] at hi

/-- A change of a group that leaves its items alone. -/
theorem relink (hab : KeepsHomes a b) (g : GroupId) {f : Group → Group}
    (hf : ∀ x, (f x).items = x.items) : KeepsHomes a (b.alterGroup g f) := by
  refine hab.alterGroup g fun x i hi => ?_
  rwa [Group.itemIds, hf] at hi

theorem alterItem (hab : KeepsHomes a b) (i : ItemId) {f : Item → Item}
    (hf : ∀ x, (f x).owner = x.owner) : KeepsHomes a (b.alterItem i f) := by
  refine hab.trans fun x j hj => ⟨hj, fun hin => ⟨hasItem_alterItem.2 hin, ?_⟩⟩
  rw [item_alterItem]
  by_cases hij : i = j ∧ b.HasItem j
  · rw [if_pos hij, hf]
  · rw [if_neg hij]

theorem allocGroup (hab : KeepsHomes a b) {x : Group} (hx : x.items = .empty) (v : Variant) :
    KeepsHomes a (b.allocGroup x v).2 := by
  refine hab.trans fun y i hi => ⟨?_, fun hin => ⟨hin, rfl⟩⟩
  by_cases hy : y = (b.allocGroup x v).1
  · rw [hy, group_allocGroup_self, Group.itemIds, hx] at hi
    cases hi
  · rwa [group_allocGroup hy] at hi

theorem setRoot (hab : KeepsHomes a b) (side : Side) (i : ItemId) (g : GroupId) :
    KeepsHomes a (b.setRoot side i g) := by
  refine (hab.relink g ?_).alterItem i ?_
  · exact fun _ => rfl
  · exact fun x => by cases side <;> rfl

theorem registerAll (hab : KeepsHomes a b) (side : Side) (i : ItemId) (gs : List GroupId) :
    KeepsHomes a (b.registerAll side i gs) := by
  induction gs generalizing b with
  | nil => exact hab
  | cons g gs ih =>
    refine ih ((hab.relink g ?_).alterItem i ?_)
    · exact fun _ => rfl
    · exact fun x => by cases side <;> rfl

theorem insertBelow (hab : KeepsHomes a b) (relation : Hierarchy) (parent g : GroupId) :
    KeepsHomes a (b.insertBelow relation parent g) := by
  refine keeps_insertBelow (fun h g f hf hah => hah.relink g fun x => ?_) relation parent g hab
  obtain ⟨s, t, hx⟩ := hf x
  rw [hx]

theorem validate (g : GroupId) (profileOf : ObjectType → Option TypeProfile)
    (options : ValidationPolicy) : KeepsHomes b (b.validate g profileOf options).heap := by
  have hend : KeepsHomes b (b.validationEnd g profileOf options.maxDepth).heap := by
    unfold validationEnd
    split
    · rename_i run hrun
      refine keeps_checkGroup (P := KeepsHomes b) (fun h g hb => ?_) profileOf _ _ g none 0 _ _ _
        hrun (refl b)
      exact hb.relink g fun _ => rfl
    · exact refl b
  unfold Heap.validate
  dsimp only
  split <;> exact hend

end KeepsHomes

/-! ### Adding paths -/

namespace ItemsAtHome

variable (hhome : b.ItemsAtHome)

include hhome

theorem ensureItem (g : GroupId) (n : String) : (b.ensureItem g n).2.ItemsAtHome := by
  cases hn : (b.group g).items.find? n with
  | some i =>
    unfold Heap.ensureItem
    rw [hn]
    exact hhome
  | none =>
    rw [ensureItem_of_none hn]
    have hnew : ((b.allocItem { name := n, owner := g }).2.item ⟨b.items.size⟩).owner = g := by
      rw [show (⟨b.items.size⟩ : ItemId) = (b.allocItem { name := n, owner := g }).1 from rfl,
        item_allocItem_self]
    have hold : ∀ x, ∀ i ∈ (b.group x).itemIds,
        (b.allocItem { name := n, owner := g }).2.HasItem i ∧
          ((b.allocItem { name := n, owner := g }).2.item i).owner = x := by
      intro x i hi
      obtain ⟨hin, howner⟩ := hhome x i hi
      refine ⟨hasItem_allocItem.2 (.inl hin), ?_⟩
      rw [item_allocItem fun heq => absurd (heq ▸ hin) (Nat.lt_irrefl _), howner]
    intro x i hi
    rw [group_alterGroup] at hi
    split at hi
    · -- the new item is listed where it belongs
      rename_i hx
      obtain ⟨rfl, -⟩ := hx
      rcases OrderedMap.mem_values_insert hi with rfl | hi
      · exact ⟨hasItem_allocItem.2 (.inr rfl), hnew⟩
      · exact hold _ i hi
    · exact hold x i hi

theorem ensureNested (g : GroupId) (i : ItemId) (n : String) :
    (b.ensureNested g i n).2.ItemsAtHome := by
  unfold Heap.ensureNested
  cases (b.item i).value.primary with
  | some nested => exact hhome
  | none => exact (((KeepsHomes.refl b).allocGroup rfl _).setRoot .value i _).itemsAtHome hhome

theorem ensurePath (g : GroupId) (head : String) (rest : List String) :
    (b.ensurePath g head rest).2.ItemsAtHome := by
  induction rest generalizing b g head with
  | nil => exact hhome.ensureItem g head
  | cons next rest ih => exact ih ((hhome.ensureItem g head).ensureNested g _ head) _ next

theorem addNested {input : PathInput} {nested : List GroupId}
    (hc : b.addNested side g input nested = .ok c) : c.ItemsAtHome := by
  obtain ⟨p, -, rfl⟩ := addNested_eq_ok hc
  exact (KeepsHomes.registerAll (.refl _) side _ nested).itemsAtHome
    (hhome.ensurePath g p.head p.tail)

theorem addPaths (g : GroupId) (paths : List String) : (b.addPaths g paths).heap.ItemsAtHome := by
  induction paths generalizing b with
  | nil => exact hhome
  | cons path rest ih =>
    unfold Heap.addPaths
    cases hc : b.addPath g (.text path) with
    | error e => exact hhome
    | ok c => exact ih (hhome.addNested hc)

theorem reachItem {input : PathInput} {create : Bool} {found : Option ItemId}
    (hc : b.reachItem g input create = .ok (found, c)) : c.ItemsAtHome := by
  obtain ⟨p, -, ⟨-, rfl⟩ | ⟨-, -, rfl⟩⟩ := reachItem_eq_ok hc
  · exact hhome.ensurePath g p.head p.tail
  · exact hhome

end ItemsAtHome

/-! ### Removing a path -/

/-- One entry of the heap is gone: the one that lists the item. -/
structure Dropped (h : Heap) (i : ItemId) (h' : Heap) : Prop where
  entries : ∀ x, (h'.group x).items.entries = (h.group x).items.entries.filter fun e => e.2 ≠ i
  group : ∀ x, h'.group x = { h.group x with items := (h'.group x).items }
  heap : h' = { h with groups := h'.groups }
  size : h'.groups.size = h.groups.size

/-- Removing a path does to a heap what finding it tells: a path that is none is refused for the
same reason, one without an item changes nothing, and otherwise the item that is found is listed by
exactly one group, and dropped. -/
structure RemovesFound (h : Heap) (g : GroupId) (input : PathInput) : Prop where
  refused : ∀ e, h.reachItem g input false = .error e → h.removePath g input = .error e
  absent : ∀ c, h.reachItem g input false = .ok (none, c) → h.removePath g input = .ok h
  found : ∀ i c, h.reachItem g input false = .ok (some i, c) →
    (∃! x, i ∈ (h.group x).itemIds) ∧ ∃ h', h.removePath g input = .ok h' ∧ h.Dropped i h'

/-- Walking along a path ends at an item that a group lists. -/
theorem exists_find?_of_locate {head : String} {tail : List String}
    (hi : h.locate g head tail = .found i) : ∃ x n, (h.group x).items.find? n = some i := by
  induction tail generalizing g head with
  | nil =>
    rw [locate] at hi
    cases hfound : (h.group g).items.find? head with
    | none =>
      rw [hfound] at hi
      cases hi
    | some j =>
      rw [hfound] at hi
      cases hi
      exact ⟨g, head, hfound⟩
  | cons next rest ih =>
    rw [locate] at hi
    cases hfound : (h.group g).items.find? head with
    | none =>
      rw [hfound] at hi
      cases hi
    | some j =>
      rw [hfound] at hi
      cases hy : (h.item j).value.primary with
      | none =>
        simp only [hy] at hi
        cases hi
      | some y =>
        simp only [hy] at hi
        exact ih hi

/-- The item of a path is one that a group lists. -/
theorem exists_find?_of_itemAt? {p : Path} (hi : h.itemAt? g p = some i) :
    ∃ x n, (h.group x).items.find? n = some i := by
  unfold itemAt? at hi
  generalize h.superChain g = chain at hi
  induction chain with
  | nil => cases hi
  | cons y above ih =>
    rw [resolveAlong] at hi
    cases hend : h.locate y p.head p.tail with
    | found j =>
      rw [hend] at hi
      obtain rfl := Option.some.inj hi
      exact exists_find?_of_locate hend
    | blocked =>
      rw [hend] at hi
      cases hi
    | missing =>
      rw [hend] at hi
      exact ih hi

/-- An item that its owner lists is dropped by erasing its name there. -/
theorem ItemsAtHome.dropped (hhome : h.ItemsAtHome) (hnamed : h.ItemsNamed)
    (hfound : (h.group x).items.find? (h.item i).name = some i) :
    h.Dropped i (h.alterGroup x fun w => { w with items := w.items.erase (h.item i).name }) where
  entries y := by
    rw [group_alterGroup]
    by_cases hy : x = y ∧ h.HasGroup y
    · -- the owner lists nothing else under the name
      rw [if_pos hy, ← hy.1]
      refine List.filter_congr fun e he => decide_eq_decide.2 (not_congr ⟨fun hname => ?_, ?_⟩)
      · have heq := OrderedMap.find?_eq_some_iff.2 he
        rw [hname, hfound] at heq
        exact (Option.some.inj heq).symm
      · rintro rfl
        exact (hnamed x e.1 e.2 (OrderedMap.find?_eq_some_iff.2 he)).symm
    · -- no other group lists the item
      rw [if_neg hy, eq_comm, List.filter_eq_self]
      intro e he
      refine decide_eq_true fun hei => hy ?_
      have hlisted : i ∈ (h.group y).itemIds := hei ▸ List.mem_map_of_mem he
      exact ⟨hhome.eq_of_mem (mem_itemIds_of_find? hfound) hlisted, hasGroup_of_mem_itemIds hlisted⟩
  group y := by
    rw [group_alterGroup]
    by_cases hy : x = y ∧ h.HasGroup y
    · rw [if_pos hy]
    · rw [if_neg hy]
  heap := rfl
  size := Array.size_modify

/-- **Removing a path drops the item that is found there, and nothing else.** -/
theorem ItemsAtHome.removesFound (hhome : h.ItemsAtHome) (hnamed : h.ItemsNamed) (g : GroupId)
    (input : PathInput) : h.RemovesFound g input where
  refused e he := by
    rw [Heap.reachItem] at he
    rw [removePath]
    cases hp : Path.parse input with
    | error e' =>
      rw [hp] at he
      exact congrArg Except.error (Except.error.inj he)
    | ok p =>
      rw [hp] at he
      cases he
  absent c hc := by
    obtain ⟨p, hp, ⟨hcreate, -⟩ | ⟨-, hi, -⟩⟩ := reachItem_eq_ok hc
    · cases hcreate
    · rw [removePath_of_parse hp, ← hi]
  found i c hc := by
    obtain ⟨p, hp, ⟨hcreate, -⟩ | ⟨-, hi, -⟩⟩ := reachItem_eq_ok hc
    · cases hcreate
    · obtain ⟨x, n, hfound⟩ := exists_find?_of_itemAt? hi.symm
      have hx := mem_itemIds_of_find? hfound
      obtain rfl := hnamed x n i hfound
      obtain ⟨-, rfl⟩ := hhome x i hx
      refine ⟨⟨_, hx, fun y hy => hhome.eq_of_mem hy hx⟩, _, ?_, hhome.dropped hnamed hfound⟩
      rw [removePath_of_parse hp, ← hi]

theorem keepsHomes_of_removePath {input : PathInput} (hc : b.removePath g input = .ok c) :
    KeepsHomes b c := by
  rcases removePath_eq_ok hc with rfl | ⟨i, rfl⟩
  · exact .refl _
  · exact (KeepsHomes.refl b).alterGroup _ fun _ _ => OrderedMap.mem_values_erase

/-! ### Copying -/

/-- No group is met twice. -/
theorem nodup_copyPlan (h : Heap) (root : GroupId) : (h.copyPlan root).groups.Nodup := by
  obtain ⟨p, hp, hplan⟩ := exists_copyPlan h root
  have hkept : Preserved h.copyStep fun p _ => p.groups.Nodup := by
    refine preserved_of_move fun p t rest p' new hm hnodup => ?_
    cases hm with
    | newGroup hg => exact List.nodup_cons.2 ⟨hg, hnodup⟩
    | _ => exact hnodup
  rw [hplan]
  exact List.nodup_reverse.2 (hkept.explore _ _ _ List.nodup_nil hp)

section Pushing

variable {p : CopyPlan} {issued : List (GroupId × Issued)}

/-- A group of the new heap that was not there before is the copy of a group of the plan. -/
theorem exists_copyOfGroup (hnodup : p.groups.Nodup) (hfst : issued.map Prod.fst = p.groups)
    (hg : (h.pushCopies p issued).HasGroup g) (hnew : ¬ h.HasGroup g) :
    ∃ x ∈ p.groups, h.copyOfGroup p x = g := by
  have hsize : (h.pushCopies p issued).groups.size = h.groups.size + issued.length :=
    (laidOut_foldl h p issued h).size
  have hlength : issued.length = p.groups.length := by simpa using congrArg List.length hfst
  have hle : h.groups.size ≤ g.index := Nat.le_of_not_lt hnew
  have hk : g.index - h.groups.size < p.groups.length := by
    have hlt : g.index < (h.pushCopies p issued).groups.size := hg
    omega
  refine ⟨p.groups[g.index - h.groups.size], List.getElem_mem hk, ?_⟩
  rw [copyOfGroup, hnodup.idxOf_getElem, Nat.add_sub_cancel' hle]

/-- A copied item is listed by the copy of its owner. -/
theorem ItemsAtHome.pushCopies (hhome : h.ItemsAtHome) {root : GroupId} (hp : h.PlanOf root p)
    (hnodup : p.groups.Nodup) (hfst : issued.map Prod.fst = p.groups) :
    (h.pushCopies p issued).ItemsAtHome := by
  have howned : h.ItemsOwned root := fun g _ i hi => (hhome g i hi).2
  intro g i hi
  have hg := hasGroup_of_mem_itemIds hi
  by_cases hold : h.HasGroup g
  · rw [group_pushCopies_of_hasGroup hold] at hi
    obtain ⟨hin, howner⟩ := hhome g i hi
    exact ⟨hasItem_pushCopies hin, by rw [item_pushCopies_of_hasItem hin, howner]⟩
  · obtain ⟨x, hx, rfl⟩ := exists_copyOfGroup hnodup hfst hg hold
    obtain ⟨-, e, -, rfl, v, heq, -⟩ := group_pushCopies (h := h) hfst hx
    rw [heq] at hi
    obtain ⟨j, hj, rfl⟩ := exists_of_mem_itemIds_relocateGroup hi
    have hreach := (hp.mem_groups e.1).1 hx
    have hmem : j ∈ p.items := (hp.mem_items j).2 (hreach.tail (.item hj))
    refine ⟨(item_pushCopies hmem).1, ?_⟩
    rw [(item_pushCopies hmem).2]
    show h.copyOfGroup p ((p.filed.lookup j).getD (h.item j).owner) = _
    rw [owner_of_filed howned hp, (hhome _ j hj).2]

end Pushing

theorem ItemsAtHome.copyFor (hhome : b.ItemsAtHome) (root : GroupId) (f : Factory) :
    (b.copyFor root f).heap.ItemsAtHome := by
  unfold Heap.copyFor
  dsimp only
  cases hissue : b.issueAll f (b.copyPlan root).groups with
  | error e => exact hhome
  | ok issued =>
    exact hhome.pushCopies (copyPlan_planOf fun g _ i hi => (hhome g i hi).2)
      (nodup_copyPlan b root) (issueAll_spec _ hissue).1

theorem ItemsAtHome.convert (hhome : b.ItemsAtHome) (g : GroupId) (kind : Kind) (f : Factory) :
    (b.convert g kind f).heap.ItemsAtHome := by
  unfold Heap.convert
  by_cases hkind : (b.variantOf g).kind = kind
  · rw [if_pos hkind]
    exact hhome
  · rw [if_neg hkind]
    exact hhome.copyFor g f

end Heap

end AttributeGraph
