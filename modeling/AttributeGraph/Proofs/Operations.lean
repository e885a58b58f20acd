/-
Every heap that operations lead to is well formed.

The operations that are more than a few writes come first.  Validating a group
only sets flags, whatever way it takes.  Restoring a description builds groups
and registers, roots and links what it has just built.  Copying a group adds
relocated nodes, and every link of a node that is copied leads to another one
that is: this needs no owners to be right, since an item belongs either to a
group that it was filed from or to the owner that was met with it.

`Operation` then lists what can be done to a heap from outside.  One operation on
nodes of a well-formed heap keeps it well formed (`WellFormed.perform`), so every
`Reachable` heap is.
-/
import AttributeGraph.Heap.Validation
import AttributeGraph.Proofs.Constructing
import AttributeGraph.Proofs.Copying
import AttributeGraph.Proofs.Maintenance

namespace AttributeGraph

variable {a b h : Heap}

/-! ### Validating -/

namespace Validating

variable {α β : Type} {P : Heap → Prop}

/-- A validation in progress leaves a heap that has the property that the heap had before. -/
def Keeps (P : Heap → Prop) (m : Validating α) : Prop :=
  ∀ r x r', m.run r = some (x, r') → P r.heap → P r'.heap

theorem Keeps.pure (x : α) : Keeps P (Pure.pure x) := by
  intro r y r' hrun hr
  obtain ⟨-, rfl⟩ := Prod.mk.inj (Option.some.inj hrun)
  exact hr

theorem Keeps.bind {m : Validating α} {f : α → Validating β} (hm : Keeps P m)
    (hf : ∀ x, Keeps P (f x)) : Keeps P (m >>= f) := by
  intro r y r'' hrun hr
  rw [StateT.run_bind] at hrun
  obtain ⟨⟨x, r'⟩, hfirst, hnext⟩ := Option.bind_eq_some_iff.1 hrun
  exact hf x r' y r'' hnext (hm r x r' hfirst hr)

/-- What follows from reading the state may rely on it. -/
theorem Keeps.get_bind {f : ValidationState → Validating β}
    (hf : ∀ r, P r.heap → Keeps P (f r)) : Keeps P (get >>= f) :=
  fun r y r' hrun hr => hf r hr r y r' hrun hr

theorem Keeps.set {r : ValidationState} (hr : P r.heap) : Keeps P (MonadStateOf.set r) := by
  intro _ y r' hrun _
  obtain ⟨-, rfl⟩ := Prod.mk.inj (Option.some.inj hrun)
  exact hr

theorem Keeps.modify {f : ValidationState → ValidationState}
    (hf : ∀ r, P r.heap → P (f r).heap) : Keeps P (modify f) := by
  intro r y r' hrun hr
  obtain ⟨-, rfl⟩ := Prod.mk.inj (Option.some.inj hrun)
  exact hf r hr

theorem Keeps.forM {l : List α} {f : α → Validating Unit} (hf : ∀ x, Keeps P (f x)) :
    Keeps P (l.forM f) := by
  induction l with
  | nil => exact Keeps.pure _
  | cons x l ih => exact (hf x).bind fun _ => ih

end Validating

namespace Heap

open Validating

theorem keeps_checkItem {P : Heap → Prop} {visit : Check} (hvisit : ∀ g t n, Keeps P (visit g t n))
    (maxDepth : Nat) (g : GroupId) (i : ItemId) (d : TypeProfile) (depth : Nat) :
    Keeps P (checkItem visit maxDepth g i d depth) := by
  unfold checkItem
  refine Keeps.get_bind fun r _ => ?_
  dsimp only
  cases d.attribute? (r.heap.item i).name with
  | none => exact Keeps.modify fun _ hr => hr
  | some a =>
    by_cases hdepth : depth + 1 ≤ maxDepth
    · simp only [if_pos hdepth]
      exact (Keeps.forM fun n => hvisit n _ _).bind fun _ => Keeps.forM fun n => hvisit n _ _
    · simp only [if_neg hdepth]
      exact Keeps.pure _

/-- Validating changes a heap by setting flags only. -/
theorem keeps_checkGroup {P : Heap → Prop} (hP : ∀ h g, P h → P (h.setValidated g true))
    (profileOf : ObjectType → Option TypeProfile) (maxDepth : Nat) :
    ∀ (fuel : Nat) (g : GroupId) (implied : Option ObjectType) (depth : Nat),
      Keeps P (checkGroup profileOf maxDepth fuel g implied depth) := by
  intro fuel
  induction fuel with
  | zero =>
    intro g implied depth r x r' hrun
    cases hrun
  | succ fuel ih =>
    intro g implied depth
    unfold checkGroup
    refine Keeps.get_bind fun r hr => ?_
    by_cases hdone : (r.heap.group g).validated ∨ g ∈ r.visited
    · simp only [if_pos hdone]
      exact Keeps.pure _
    · simp only [if_neg hdone]
      refine (Keeps.set (r := { r with visited := g :: r.visited }) hr).bind fun _ => ?_
      cases ((r.heap.group g).type.or implied).bind profileOf with
      | none => exact Keeps.modify fun _ hr => hr
      | some d =>
        have hitems : Keeps P ((r.heap.group g).itemIds.forM fun i =>
            checkItem (checkGroup profileOf maxDepth fuel) maxDepth g i d depth) :=
          Keeps.forM fun i => keeps_checkItem ih maxDepth g i d depth
        have hrest : Keeps P (do
            (r.heap.group g).above.toList.forM fun s =>
              checkGroup profileOf maxDepth fuel s (d.parent?.map TypeProfile.type) depth
            (r.heap.group g).subs.forM fun s => checkGroup profileOf maxDepth fuel s none depth) :=
          (Keeps.forM fun s => ih s _ depth).bind fun _ => Keeps.forM fun s => ih s none depth
        refine hitems.bind fun _ => Keeps.get_bind fun r' _ => ?_
        by_cases hclean : r'.failures.length = r.failures.length
        · simp only [if_pos hclean]
          exact (Keeps.modify fun x hx => hP x.heap g hx).bind fun _ => hrest
        · simp only [if_neg hclean]
          exact hrest

theorem Upkeep.validate (hab : Upkeep a b) (g : GroupId)
    (profileOf : ObjectType → Option TypeProfile) (options : ValidationPolicy) :
    Upkeep a (b.validate g profileOf options).heap := by
  have hend : Upkeep a (b.validationEnd g profileOf options.maxDepth).heap := by
    unfold validationEnd
    split
    · rename_i run hrun
      refine keeps_checkGroup (P := Upkeep a) (fun h g hah => ?_) profileOf _ _ g none 0 _ _ _ hrun
        hab
      exact hah.relabel fun x => ⟨_, _, _, _, rfl⟩
    · exact hab
  unfold Heap.validate
  dsimp only
  split <;> exact hend

/-! ### Restoring -/

/-- Building keeps heaps well formed. -/
theorem upkeep_construction :
    Construction Upkeep (fun _ b g => b.HasGroup g) HasGroup HasItem where
  self hab := hab.wellFormed.upkeep
  trans hab hbc := hab.trans hbc
  hasGroup hg := hg
  before _ hg := hg
  made hg hbc := hbc.hasGroup _ hg
  kept hab hg := hab.hasGroup _ hg
  opened hab hg := hab.hasGroup _ hg
  hosts hab hi := hab.hasItem _ hi
  create name typeName validated v hstart := by
    obtain ⟨hup, hg⟩ := hstart.createGroup name none typeName validated v
    exact ⟨hup, hg, hg⟩
  ensureItem n hstart hg := hstart.ensureItem hg n
  registerAll side hab hi hgs := hab.registerAll side hgs (hab.hasItem _ hi)
  setRoot side hab hi hg := hab.setRoot side hg (hab.hasItem _ hi)
  insertBelow hierarchy hab hp hg := hab.insertBelow hierarchy hp hg

theorem Upkeep.allocCopyRegistry (hab : Upkeep a b) : Upkeep a b.allocCopyRegistry.2 where
  wellFormed := by
    have hwf := hab.wellFormed
    refine ⟨⟨fun g hg => ?_, fun i hi => (hwf.closed.item i hi).mono fun _ hg => hg⟩, hwf.named,
      hwf.rooted⟩
    exact (hwf.closed.group g hg).mono (fun _ hg => hg) (fun _ hi => hi) (Nat.le_refl _)
  hasGroup := hab.hasGroup
  hasItem := hab.hasItem

theorem Upkeep.restoreDescription (hab : Upkeep a b) (d : Description) (hierarchy : Hierarchy) :
    Upkeep a (b.restoreDescription d hierarchy).2.heap := by
  have hstart := hab.allocCopyRegistry
  obtain ⟨g, h, hbuilds, hup, -⟩ :=
    upkeep_construction.exists_group ⟨hierarchy, b.allocCopyRegistry.1⟩ d _
      hstart.wellFormed.upkeep
  obtain ⟨ds, hrun⟩ := hbuilds []
  have hheap : (b.restoreDescription d hierarchy).2.heap = h :=
    congrArg (fun r => r.2.heap) hrun
  rw [hheap]
  exact hstart.trans hup

/-- A restoration that does not stop before leaves what it has built, with type names resolved or
not. -/
theorem heap_restore (h : Heap) (input : Value) (options : RawOptions)
    (resolver : Option Resolver) :
    (h.restore input options resolver).heap = h ∨ ∃ d hierarchy,
      (h.restore input options resolver).heap = (h.restoreDescription d hierarchy).2.heap ∨
      ∃ resolver' changes, (h.restore input options resolver).heap =
        ((h.restoreDescription d hierarchy).2.heap.applyAll resolver' changes).heap := by
  unfold Heap.restore
  cases options.resolve with
  | error e => exact .inl rfl
  | ok o =>
    dsimp only
    by_cases hconfig : o.restore.resolvesNames = true ∧ resolver.isNone = true
    · rw [if_pos hconfig]
      exact .inl rfl
    rw [if_neg hconfig]
    cases Description.read input with
    | error e => exact .inl rfl
    | ok read =>
      obtain ⟨v, d⟩ := read
      dsimp only
      by_cases hsuper : d.superTypeName.isSome = true
      · rw [if_pos hsuper]
        exact .inl rfl
      rw [if_neg hsuper]
      refine .inr ⟨d, o.hierarchy, ?_⟩
      cases resolver with
      | none => exact .inl rfl
      | some resolver =>
        cases o.restore.resolvesNames with
        | false => exact .inl rfl
        | true => exact .inr ⟨resolver, _, rfl⟩

theorem Upkeep.restore (hab : Upkeep a b) (input : Value) (options : RawOptions)
    (resolver : Option Resolver) : Upkeep a (b.restore input options resolver).heap := by
  rcases b.heap_restore input options resolver with heq | ⟨d, hierarchy, heq | ⟨_, changes, heq⟩⟩
  · rw [heq]
    exact hab
  · rw [heq]
    exact hab.restoreDescription d hierarchy
  · rw [heq]
    exact (hab.restoreDescription d hierarchy).applyAll changes

/-! ### Copying -/

section Copying

variable {root : GroupId} {p : CopyPlan}

/-- The items that have been met, and those on the stack, are filed from a group that has been met,
or their owner has been met or is on the stack. -/
structure OwnersPlanned (h : Heap) (p : CopyPlan) (todo : List CopyTask) : Prop where
  filed : ∀ e ∈ p.filed, e.2 ∈ p.groups
  file : ∀ i g, .file i g ∈ todo → g ∈ p.groups
  owners : ∀ i, i ∈ p.items ∨ .item i ∈ todo → (∃ g, (i, g) ∈ p.filed ∨ .file i g ∈ todo) ∨
    (h.item i).owner ∈ p.groups ∨ .group (h.item i).owner ∈ todo

theorem ownersPlanned_preserved (h : Heap) : Preserved h.copyStep h.OwnersPlanned := by
  refine preserved_of_move fun p t rest p' new hm hp => ?_
  have howners := hp.owners
  have hfile := hp.file
  have hfiled := hp.filed
  cases hm with
  | @newGroup g hg =>
    -- an item of a new group is filed from it
    have hitem : ∀ i, .item i ∈ h.groupCopyTasks g → .file i g ∈ h.groupCopyTasks g := by
      intro i hi
      have hig : i ∈ (h.group g).itemIds := by simpa [mem_groupCopyTasks] using hi
      exact mem_groupCopyTasks.2 (.inr (.inr (.inr ⟨i, hig, .inr rfl⟩)))
    have hown : ∀ i x, .file i x ∈ h.groupCopyTasks g → x = g := by
      intro i x hx
      have hx : i ∈ (h.group g).itemIds ∧ x = g := by simpa [mem_groupCopyTasks] using hx
      exact hx.2
    refine ⟨?_, ?_, ?_⟩ <;> grind
  | @newItem j hj =>
    have hitem : ∀ i, CopyTask.item i ∉ h.itemCopyTasks j := by simp [mem_itemCopyTasks]
    have hown : ∀ i x, CopyTask.file i x ∉ h.itemCopyTasks j := by simp [mem_itemCopyTasks]
    refine ⟨?_, ?_, ?_⟩ <;> grind
  | _ => refine ⟨?_, ?_, ?_⟩ <;> grind

/-- Every link of a node of the plan leads to a node of the plan, and the owners of the copies of
items are copies of groups of the plan. -/
structure LinksPlanned (h : Heap) (p : CopyPlan) : Prop where
  group : ∀ g ∈ p.groups, ∀ n, h.Link (.group g) n → Met p n
  nested : ∀ i ∈ p.items, ∀ side, ∀ g ∈ ((h.item i).slot side).groups, g ∈ p.groups
  owner : ∀ i ∈ p.items, (p.filed.lookup i).getD (h.item i).owner ∈ p.groups

theorem copyPlan_linksPlanned (h : Heap) (root : GroupId) : h.LinksPlanned (h.copyPlan root) := by
  obtain ⟨p, hp, hplan⟩ := exists_copyPlan h root
  have hc : h.Complete p [] := complete_copyPlan hp
  have ho : h.OwnersPlanned p [] :=
    (ownersPlanned_preserved h).explore _ _ _ ⟨by simp, by simp, by simp⟩ hp
  rw [hplan]
  refine ⟨fun g hg n hn => ?_, fun i hi side g hg => ?_, fun i hi => ?_⟩
  · have hmet := hc.met_of_group (List.mem_reverse.1 hg) hn
    cases n with
    | group x => exact List.mem_reverse.2 hmet
    | item i => exact List.mem_reverse.2 hmet
  · exact List.mem_reverse.2 (hc.met_of_item (List.mem_reverse.1 hi) hg)
  · refine List.mem_reverse.2 ?_
    cases hlookup : p.filed.lookup i with
    | some g =>
      obtain ⟨l₁, l₂, hl, -⟩ := List.lookup_eq_some_iff.1 hlookup
      exact ho.filed (i, g) (by rw [hl]; simp)
    | none =>
      -- an item that has not been filed was met with its owner
      rcases ho.owners i (.inl (List.mem_reverse.1 hi)) with ⟨g, hg | hg⟩ | howner | howner
      · exact absurd (List.lookup_eq_none_iff.1 hlookup (i, g) hg) (by simp)
      · exact absurd hg List.not_mem_nil
      · exact howner
      · exact absurd howner List.not_mem_nil

variable {issued : List (GroupId × Issued)}

theorem group_pushCopies_of_hasGroup {g : GroupId} (hg : h.HasGroup g) :
    (h.pushCopies p issued).group g = h.group g := by
  simp only [group, pushCopies, Array.getD_eq_getD_getElem?,
    (laidOut_foldl h p issued h).groups _ hg]

/-- A group of the new heap was there before or is a copy. -/
theorem group_of_pushCopies (hfst : issued.map Prod.fst = p.groups) {g : GroupId}
    (hg : (h.pushCopies p issued).HasGroup g) :
    (h.HasGroup g ∧ (h.pushCopies p issued).group g = h.group g) ∨
      ∃ e ∈ issued, e.1 ∈ p.groups ∧ ∃ v,
        (h.pushCopies p issued).group g = h.relocateGroup p e.1 v ∧
          h.HoldsIssued (h.pushCopies p issued) v e.2 := by
  have hlaid := laidOut_foldl h p issued h
  by_cases hold : h.HasGroup g
  · exact .inl ⟨hold, group_pushCopies_of_hasGroup hold⟩
  · right
    have hsize : g.index < h.groups.size + issued.length := by
      rw [← hlaid.size]
      exact hg
    have hle : h.groups.size ≤ g.index := Nat.le_of_not_lt hold
    have hk : g.index - h.groups.size < issued.length := by omega
    obtain ⟨v, hv, hholds⟩ := hlaid.copies _ _ (List.getElem?_eq_getElem hk)
    rw [Nat.add_sub_cancel' hle] at hv
    refine ⟨_, List.getElem_mem hk, ?_, v, ?_, hholds⟩
    · rw [← hfst]
      exact List.mem_map_of_mem (List.getElem_mem hk)
    · simp only [group, pushCopies, Array.getD_eq_getD_getElem?, hv, Option.getD_some]

theorem items_pushCopies (h : Heap) (p : CopyPlan) (issued : List (GroupId × Issued)) :
    (h.pushCopies p issued).items = h.items ++ (p.items.map (h.relocateItem p)).toArray := by
  rw [pushCopies, (laidOut_foldl h p issued h).items]

theorem item_pushCopies_of_hasItem {i : ItemId} (hi : h.HasItem i) :
    (h.pushCopies p issued).item i = h.item i := by
  rw [item, items_pushCopies, Array.getD_eq_getD_getElem?, Array.getElem?_append_left hi, item,
    Array.getD_eq_getD_getElem?]

/-- An item of the new heap was there before or is a copy. -/
theorem item_of_pushCopies {i : ItemId} (hi : (h.pushCopies p issued).HasItem i) :
    h.HasItem i ∨ ∃ j ∈ p.items, (h.pushCopies p issued).item i = h.relocateItem p j := by
  by_cases hold : h.HasItem i
  · exact .inl hold
  · right
    have hle : h.items.size ≤ i.index := Nat.le_of_not_lt hold
    have hsize : i.index < h.items.size + p.items.length := by
      simpa [HasItem, items_pushCopies] using hi
    have hk : i.index - h.items.size < p.items.length := by omega
    refine ⟨_, List.getElem_mem hk, ?_⟩
    rw [item, items_pushCopies, Array.getD_eq_getD_getElem?, Array.getElem?_append_right hle]
    simp [hk]

theorem exists_of_mem_subs_relocateGroup {g s : GroupId} {v : VariantId}
    (hs : s ∈ (h.relocateGroup p g v).subs) :
    ∃ x ∈ (h.group g).subs, h.copyOfGroup p x = s := by
  cases hbelow : (h.group g).below with
  | none =>
    rw [Group.subs, relocateGroup, hbelow] at hs
    cases hs
  | some l =>
    rw [Group.subs, relocateGroup, hbelow] at hs
    rw [Group.subs, hbelow]
    exact List.mem_map.1 (OrderedSet.mem_ofList.1 hs)

theorem exists_of_mem_itemIds_relocateGroup {g : GroupId} {i : ItemId} {v : VariantId}
    (hi : i ∈ (h.relocateGroup p g v).itemIds) :
    ∃ j ∈ (h.group g).itemIds, h.copyOfItem p j = i := by
  rw [Group.itemIds, relocateGroup, OrderedMap.values_mapValues] at hi
  exact List.mem_map.1 hi

/-- The links of a copied group lead to nodes of the new heap. -/
theorem groupClosed_relocateGroup (hp : h.LinksPlanned p) (hfst : issued.map Prod.fst = p.groups)
    {g : GroupId} (hg : g ∈ p.groups) {v : VariantId}
    (hv : v.index < (h.pushCopies p issued).variants.size) :
    (h.pushCopies p issued).GroupClosed (h.relocateGroup p g v) where
  super s hs := by
    obtain ⟨x, hx, rfl⟩ := Option.map_eq_some_iff.1 hs
    exact (group_pushCopies hfst (hp.group g hg _ (.above hx))).1
  subs s hs := by
    obtain ⟨x, hx, rfl⟩ := exists_of_mem_subs_relocateGroup hs
    exact (group_pushCopies hfst (hp.group g hg _ (.below hx))).1
  nestedIn i hi := by
    obtain ⟨j, hj, rfl⟩ := Option.map_eq_some_iff.1 hi
    exact (item_pushCopies (hp.group g hg _ (.nestedIn hj))).1
  items i hi := by
    obtain ⟨j, hj, rfl⟩ := exists_of_mem_itemIds_relocateGroup hi
    exact (item_pushCopies (hp.group g hg _ (.item hj))).1
  variant := hv

theorem typed_relocateSlot (s : Slot) :
    (h.relocateSlot p s).typed = s.typed.map (h.copyOfGroup p) := by
  cases hs : s.byType with
  | none =>
    simp only [relocateSlot, Slot.typed, hs, Option.map_none, Option.getD_none, List.map_nil]
  | some m =>
    simp only [relocateSlot, Slot.typed, hs, Option.map_some, Option.getD_some,
      OrderedMap.values_mapValues]

theorem mem_groups_relocateSlot {s : Slot} {g : GroupId} (hg : g ∈ (h.relocateSlot p s).groups) :
    ∃ x ∈ s.groups, h.copyOfGroup p x = g := by
  rcases Slot.mem_groups.1 hg with hprimary | htyped
  · obtain ⟨x, hx, hxg⟩ := Option.map_eq_some_iff.1 hprimary
    exact ⟨x, Slot.mem_groups.2 (.inl hx), hxg⟩
  · rw [typed_relocateSlot] at htyped
    obtain ⟨x, hx, hxg⟩ := List.mem_map.1 htyped
    exact ⟨x, Slot.mem_groups.2 (.inr hx), hxg⟩

theorem rooted_relocateSlot {s : Slot} (hs : s.Rooted) : (h.relocateSlot p s).Rooted := by
  intro hne
  have hprimary : s.primary.isSome = true := by
    refine hs fun hnil => hne ?_
    rw [typed_relocateSlot, hnil, List.map_nil]
  rw [relocateSlot, Option.isSome_map]
  exact hprimary

theorem slot_relocateItem (i : ItemId) (side : Side) :
    (h.relocateItem p i).slot side = h.relocateSlot p ((h.item i).slot side) := by
  cases side <;> rfl

theorem itemClosed_relocateItem (hp : h.LinksPlanned p) (hfst : issued.map Prod.fst = p.groups)
    {i : ItemId} (hi : i ∈ p.items) : (h.pushCopies p issued).ItemClosed (h.relocateItem p i) := by
  refine itemClosed_of_slots (group_pushCopies hfst (hp.owner i hi)).1 fun side g hg => ?_
  rw [slot_relocateItem] at hg
  obtain ⟨x, hx, rfl⟩ := mem_groups_relocateSlot hg
  exact (group_pushCopies hfst (hp.nested i hi side x hx)).1

/-- What a factory has issued is there after copying. -/
theorem HoldsIssued.lt_size {old new : Heap} {v : VariantId} {x : Issued}
    (hv : old.HoldsIssued new v x) (hle : old.variants.size ≤ new.variants.size)
    (hx : ∀ u, x = .existing u → u.index < old.variants.size) : v.index < new.variants.size := by
  cases x with
  | fresh w => exact hv.2.1
  | existing u =>
    rw [hv.1]
    exact Nat.lt_of_lt_of_le (hx u rfl) hle

/-- Nothing is lost by copying. -/
theorem hasGroup_pushCopies {g : GroupId} (hg : h.HasGroup g) :
    (h.pushCopies p issued).HasGroup g := by
  have hsize : (h.pushCopies p issued).groups.size = h.groups.size + issued.length :=
    (laidOut_foldl h p issued h).size
  exact Nat.lt_of_lt_of_le hg (by omega)

theorem hasItem_pushCopies {i : ItemId} (hi : h.HasItem i) : (h.pushCopies p issued).HasItem i := by
  rw [HasItem, items_pushCopies, Array.size_append]
  exact Nat.lt_add_right _ hi

/-- Copied items are filed under their names, as the originals are. -/
theorem itemsNamed_pushCopies (hwf : h.WellFormed) (hp : h.LinksPlanned p)
    (hfst : issued.map Prod.fst = p.groups) : (h.pushCopies p issued).ItemsNamed := by
  intro g n i hi
  have hg := hasGroup_of_mem_itemIds (mem_itemIds_of_find? hi)
  rcases group_of_pushCopies hfst hg with ⟨hold, heq⟩ | ⟨e, -, hmem, v, heq, -⟩
  · rw [heq] at hi
    have hin := (hwf.closed.group g hold).items i (mem_itemIds_of_find? hi)
    rw [item_pushCopies_of_hasItem hin]
    exact hwf.named g n i hi
  · rw [heq, OrderedMap.find?_eq_some_iff] at hi
    obtain ⟨⟨m, j⟩, hj, hmj⟩ := List.mem_map.1 hi
    obtain ⟨rfl, rfl⟩ := Prod.mk.inj hmj
    have hfound := OrderedMap.find?_eq_some_iff.2 hj
    rw [(item_pushCopies (hp.group e.1 hmem _ (.item (mem_itemIds_of_find? hfound)))).2]
    exact hwf.named e.1 m j hfound

/-- Copying a planned part of a heap keeps it well formed. -/
theorem WellFormed.pushCopies (hwf : h.WellFormed) (hp : h.LinksPlanned p)
    (hfst : issued.map Prod.fst = p.groups)
    (hissued : ∀ e ∈ issued, ∀ v, e.2 = .existing v → v.index < h.variants.size) :
    Upkeep h (h.pushCopies p issued) where
  wellFormed := by
    have hvariants : h.variants.size ≤ (h.pushCopies p issued).variants.size :=
      (laidOut_foldl h p issued h).variants.size
    refine ⟨⟨fun g hg => ?_, fun i hi => ?_⟩, itemsNamed_pushCopies hwf hp hfst, fun i side => ?_⟩
    · rcases group_of_pushCopies hfst hg with ⟨hold, heq⟩ | ⟨e, he, hmem, v, heq, hholds⟩
      · rw [heq]
        exact (hwf.closed.group g hold).mono (fun _ => hasGroup_pushCopies)
          (fun _ => hasItem_pushCopies) hvariants
      · rw [heq]
        exact groupClosed_relocateGroup hp hfst hmem (hholds.lt_size hvariants (hissued e he))
    · rcases item_of_pushCopies hi with hold | ⟨j, hj, heq⟩
      · rw [item_pushCopies_of_hasItem hold]
        exact (hwf.closed.item i hold).mono fun _ => hasGroup_pushCopies
      · rw [heq]
        exact itemClosed_relocateItem hp hfst hj
    · by_cases hi : (h.pushCopies p issued).HasItem i
      · rcases item_of_pushCopies hi with hold | ⟨j, -, heq⟩
        · rw [item_pushCopies_of_hasItem hold]
          exact hwf.rooted i side
        · rw [heq, slot_relocateItem]
          exact rooted_relocateSlot (hwf.rooted j side)
      · exact rooted_of_not_hasItem hi side
  hasGroup _ := hasGroup_pushCopies
  hasItem _ := hasItem_pushCopies

/-- The settings that a factory takes from a heap are there. -/
def Supplies (h : Heap) (f : Factory) : Prop :=
  ∀ g v, f.issue h g = .ok (.existing v) → v.index < h.variants.size

theorem Upkeep.copyFor (hab : Upkeep a b) (root : GroupId) {f : Factory} (hf : b.Supplies f) :
    Upkeep a (b.copyFor root f).heap := by
  unfold Heap.copyFor
  dsimp only
  cases hissue : b.issueAll f (b.copyPlan root).groups with
  | error e => exact hab
  | ok issued =>
    obtain ⟨hfst, hall⟩ := issueAll_spec _ hissue
    refine hab.trans (hab.wellFormed.pushCopies (copyPlan_linksPlanned b root) hfst ?_)
    intro e he v hv
    exact hf e.1 v (by rw [hall e he, hv])

theorem Upkeep.convert (hab : Upkeep a b) (g : GroupId) (kind : Kind) {f : Factory}
    (hf : b.Supplies f) : Upkeep a (b.convert g kind f).heap := by
  unfold Heap.convert
  by_cases hkind : (b.variantOf g).kind = kind
  · rw [if_pos hkind]
    exact hab
  · rw [if_neg hkind]
    exact hab.copyFor g hf

end Copying

end Heap

/-! ### Operations -/

/-- What can be done to a heap from outside. -/
inductive Operation where
  | create (name : String) (type : Option ObjectType) (typeName : Option String)
    (validated : Bool) (v : Variant)
  | setName (g : GroupId) (name : String)
  | setValidated (g : GroupId) (validated : Bool)
  | setType (g : GroupId) (type : Option ObjectType)
  | setTypeName (g : GroupId) (typeName : Option String)
  | setAbove (g : GroupId) (super : Option GroupId)
  | setBelow (g : GroupId) (subs : Option (List GroupId))
  | setVariant (g : GroupId) (f : Variant → Variant)
  | setRoot (side : Side) (i : ItemId) (g : GroupId)
  | registerAll (side : Side) (i : ItemId) (gs : List GroupId)
  | fileItem (g : GroupId) (i : ItemId)
  | reachItem (g : GroupId) (input : PathInput) (create : Bool)
  | addNested (side : Side) (g : GroupId) (input : PathInput) (nested : List GroupId)
  | addPaths (g : GroupId) (paths : List String)
  | removePath (g : GroupId) (input : PathInput)
  | insertBelow (relation : Hierarchy) (parent g : GroupId)
  | resolveNames (g : GroupId) (resolver : Resolver)
  | resolveItemNames (i : ItemId) (resolver : Resolver)
  | copyFor (root : GroupId) (f : Factory)
  | forFetch (g : GroupId)
  | forLoad (g : GroupId)
  | forCopy (g : GroupId) (copies : Option CopyRegistryId)
  | validate (g : GroupId) (profileOf : ObjectType → Option TypeProfile) (policy : ValidationPolicy)
  | restore (input : Value) (options : RawOptions) (resolver : Option Resolver)

namespace Heap

/-- The heap after a change that may fail, and then changes nothing. -/
def afterwards (h : Heap) : Except Error Heap → Heap
  | .ok new => new
  | .error _ => h

/-- Carry out an operation. -/
def perform (h : Heap) : Operation → Heap
  | .create name type typeName validated v => (h.createGroup name type typeName validated v).2
  | .setName g name => h.setName g name
  | .setValidated g validated => h.setValidated g validated
  | .setType g type => h.setType g type
  | .setTypeName g typeName => h.setTypeName g typeName
  | .setAbove g super => h.setAbove g super
  | .setBelow g subs => h.setBelow g subs
  | .setVariant g f => h.setVariant g f
  | .setRoot side i g => h.setRoot side i g
  | .registerAll side i gs => h.registerAll side i gs
  | .fileItem g i => h.fileItem g i
  | .reachItem g input create => h.afterwards ((h.reachItem g input create).map Prod.snd)
  | .addNested side g input nested => h.afterwards (h.addNested side g input nested)
  | .addPaths g paths => (h.addPaths g paths).heap
  | .removePath g input => h.afterwards (h.removePath g input)
  | .insertBelow relation parent g => h.insertBelow relation parent g
  | .resolveNames g resolver => (h.resolveNames g resolver).heap
  | .resolveItemNames i resolver => (h.resolveItemNames i resolver).heap
  | .copyFor root f => (h.copyFor root f).heap
  | .forFetch g => (h.forFetch g).heap
  | .forLoad g => (h.forLoad g).heap
  | .forCopy g copies => (h.forCopy g copies).heap
  | .validate g profileOf policy => (h.validate g profileOf policy).heap
  | .restore input options resolver => (h.restore input options resolver).heap

/-- The nodes that an operation may link to are nodes of the heap. -/
def Admits (h : Heap) : Operation → Prop
  | .setAbove _ super => ∀ s ∈ super, h.HasGroup s
  | .setBelow _ subs => ∀ s ∈ subs.getD [], h.HasGroup s
  | .setRoot _ i g => h.HasItem i ∧ h.HasGroup g
  | .registerAll _ i gs => h.HasItem i ∧ ∀ g ∈ gs, h.HasGroup g
  | .fileItem g i => h.HasGroup g ∧ h.HasItem i
  | .reachItem g _ _ => h.HasGroup g
  | .addNested _ g _ nested => h.HasGroup g ∧ ∀ x ∈ nested, h.HasGroup x
  | .addPaths g _ => h.HasGroup g
  | .insertBelow _ parent g => h.HasGroup parent ∧ h.HasGroup g
  | .copyFor _ f => h.Supplies f
  | _ => True

theorem Upkeep.afterwards (hab : Upkeep a b) {r : Except Error Heap}
    (hr : ∀ c, r = .ok c → Upkeep a c) : Upkeep a (b.afterwards r) := by
  cases r with
  | ok c => exact hr c rfl
  | error e => exact hab

/-- **An operation keeps a heap well formed**, and all of its nodes. -/
theorem WellFormed.perform (hwf : h.WellFormed) {op : Operation} (hop : h.Admits op) :
    Upkeep h (h.perform op) := by
  have hup := hwf.upkeep
  cases op with
  | create name type typeName validated v =>
    exact (hup.createGroup name type typeName validated v).1
  | setName | setValidated | setType | setTypeName => exact hup.relabel fun x => ⟨_, _, _, _, rfl⟩
  | setAbove g super => exact hup.setAbove g hop
  | setBelow g subs => exact hup.setBelow g hop
  | setVariant g f => exact hup.setVariant g f
  | setRoot side i g => exact hup.setRoot side hop.2 hop.1
  | registerAll side i gs => exact hup.registerAll side hop.2 hop.1
  | fileItem g i => exact hup.fileItem hop.1 hop.2
  | reachItem g input create =>
    refine hup.afterwards fun c hc => ?_
    cases hr : h.reachItem g input create with
    | error e =>
      rw [hr] at hc
      cases hc
    | ok found =>
      rw [hr] at hc
      rw [← Except.ok.inj hc]
      exact hup.reachItem hop hr
  | addNested side g input nested =>
    exact hup.afterwards fun c hc => hup.addNested side hop.1 hop.2 hc
  | addPaths g paths => exact Upkeep.addPaths paths hup hop
  | removePath g input => exact hup.afterwards fun c hc => hup.removePath hc
  | insertBelow relation parent g => exact hup.insertBelow relation hop.1 hop.2
  | resolveNames | resolveItemNames => exact Upkeep.applyAll _ hup
  | copyFor root f => exact hup.copyFor root hop
  | forFetch g => exact hup.convert g .fetch fun _ _ hv => by cases hv
  | forLoad g => exact hup.convert g .load fun _ _ hv => by cases hv
  | forCopy g copies =>
    cases copies with
    | some copies => exact hup.convert g .copy fun _ _ hv => by cases hv
    | none => exact hup.allocCopyRegistry.convert g .copy fun _ _ hv => by cases hv
  | validate g profileOf policy => exact hup.validate g profileOf policy
  | restore input options resolver => exact hup.restore input options resolver

/-- The heaps that operations lead to, starting from the one without nodes. -/
inductive Reachable : Heap → Prop
  | empty : Reachable empty
  | step {h : Heap} {op : Operation} (hreach : Reachable h) (hop : h.Admits op) :
      Reachable (h.perform op)

/-- **Every heap that operations lead to is well formed.** -/
theorem Reachable.wellFormed (hreach : Reachable h) : h.WellFormed := by
  induction hreach with
  | empty => exact empty_wellFormed
  | step _ hop ih => exact (ih.perform hop).wellFormed

/-- Hence so is every group of such a heap, with all that is nested below it. -/
theorem Reachable.wellFormedBelow (hreach : Reachable h) {g : GroupId} (hg : h.HasGroup g) :
    h.WellFormedBelow g :=
  hreach.wellFormed.below hg

end Heap

end AttributeGraph
