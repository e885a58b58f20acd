/-
Filling a slot with groups that have just been built.

The groups are registered in order.  Each is filed at the end, or in the place of
one with the same tag, and the first filed group is the primary one
(`registerAll_spec`) unless one is set afterwards.  Then each is linked below the
group that it extends, if there is one among its siblings (`above_linkAll`).  No
group has a type yet, so linking a group below another one moves no third group.

Beside these effects there are, for every step, the three facts that building
asks for: what grows, what is retained, and that the heap stays tidy.
-/
import AttributeGraph.Description.Restoration
import AttributeGraph.Proofs.Growth
import AttributeGraph.Proofs.Related

namespace AttributeGraph

/-! ### Registering -/

namespace Slot

variable {tagOf : GroupId → Option TypeTag} {s : Slot} {g : GroupId} {k : TypeTag}

theorem byType_register (hg : tagOf g = some k) :
    (s.register tagOf g).byType = some ((s.byType.getD .empty).insert k g) := by
  unfold register
  rw [hg]
  cases s.primary with
  | none => rfl
  | some p =>
    show (if tagOf p = none ∨ tagOf p = some k then _ else _ : Slot).byType = _
    split <;> rfl

theorem find?_register (hg : tagOf g = some k) (l : TypeTag) :
    (s.register tagOf g).find? l = if l = k then some g else s.find? l := by
  rw [find?, byType_register hg, Option.bind_some, OrderedMap.find?_insert, find?_getD]

/-- Registering files a group under its tag. -/
theorem Filed.register (hs : s.Filed tagOf) (g : GroupId) : (s.register tagOf g).Filed tagOf := by
  intro l z hz
  cases hg : tagOf g with
  | none =>
    unfold Slot.register at hz
    rw [hg] at hz
    exact hs l z hz
  | some k =>
    rw [find?_register hg] at hz
    by_cases hl : l = k
    · rw [if_pos hl] at hz
      rw [← Option.some.inj hz, hl]
      exact hg
    · rw [if_neg hl] at hz
      exact hs l z hz

/-- The first one of the filed groups stays the primary group. -/
theorem primary_register_filed (hg : tagOf g = some k) (hs : s.Filed tagOf)
    (hfirst : s.primary = s.typed.head?) :
    (s.register tagOf g).primary = (s.register tagOf g).typed.head? := by
  rw [typed, byType_register hg, Option.map_some, Option.getD_some]
  unfold register
  rw [hg, hfirst, ← values_getD s, OrderedMap.values, OrderedMap.values]
  show _ = ((OrderedMap.fileEntry k g (s.byType.getD .empty).entries).map Prod.snd).head?
  cases hentries : (s.byType.getD .empty).entries with
  | nil => rfl
  | cons e rest =>
    obtain ⟨l, p⟩ := e
    have hp : tagOf p = some l := by
      refine hs l p ?_
      rw [← find?_getD, OrderedMap.find?_eq_some_iff, hentries]
      exact List.mem_cons_self
    show (if tagOf p = none ∨ tagOf p = some k then _ else _ : Slot).primary = _
    rw [hp, OrderedMap.fileEntry]
    by_cases hl : l = k
    · rw [if_pos hl, if_pos (.inr (congrArg some hl))]
      rfl
    · rw [if_neg hl, if_neg (by simpa using hl)]
      rfl

end Slot

theorem Item.slot_mapSlot (side side' : Side) (f : Slot → Slot) (i : Item) :
    (i.mapSlot side f).slot side' = if side' = side then f (i.slot side') else i.slot side' := by
  cases side <;> cases side' <;> rfl

theorem Item.name_mapSlot (side : Side) (f : Slot → Slot) (i : Item) :
    (i.mapSlot side f).name = i.name := by
  cases side <;> rfl

theorem Item.owner_mapSlot (side : Side) (f : Slot → Slot) (i : Item) :
    (i.mapSlot side f).owner = i.owner := by
  cases side <;> rfl

namespace Heap

variable {base a b h : Heap} {G : GroupId → Prop} {I : ItemId → Prop} {L : GroupId → Prop}
  {n m : Nat}
  {side : Side} {i : ItemId} {g : GroupId}

/-! ### Registering in a heap -/

theorem tag?_setNestedIn (h : Heap) (g : GroupId) (i : ItemId) :
    (h.setNestedIn g i).tag? = h.tag? := by
  funext z
  unfold setNestedIn
  refine tag?_eq (group_alterGroup_field Group.type ?_ g z)
    (group_alterGroup_field Group.typeName ?_ g z)
  · exact fun _ => rfl
  · exact fun _ => rfl

theorem Grows.setNestedIn (hab : Grows G I a b) (hg : a.HasGroup g → G g) (i : ItemId) :
    Grows G I a (b.setNestedIn g i) :=
  hab.alterGroup hg _

theorem Retains.setNestedIn (hbh : Retains n m L b h) (g : GroupId) (i : ItemId) :
    Retains n m L b (h.setNestedIn g i) := by
  unfold Heap.setNestedIn
  exact hbh.alterGroup (fun _ => rfl) (.inr fun _ => ⟨rfl, rfl⟩)

theorem Tidy.setNestedIn (ht : Tidy base h) (g : GroupId) (i : ItemId) :
    Tidy base (h.setNestedIn g i) := by
  unfold Heap.setNestedIn
  exact ht.alterGroup g (fun _ => rfl) fun _ => rfl

theorem Grows.register (hab : Grows G I a b) (hg : a.HasGroup g → G g) (hi : a.HasItem i → I i) :
    Grows G I a (b.register side i g) :=
  (hab.setNestedIn hg i).alterItem hi _

theorem Retains.register (hbh : Retains n m L b h) (hi : i.index < m) :
    Retains n m L b (h.register side i g) :=
  (hbh.setNestedIn g i).alterItem hi _

theorem Tidy.register (ht : Tidy base h) (hi : ¬ base.HasItem i) :
    Tidy base (h.register side i g) := by
  have hnested := ht.setNestedIn g i
  refine hnested.alterItem fun side' => ?_
  rw [Item.slot_mapSlot, ← tag?_setNestedIn h g i]
  by_cases hside : side' = side
  · rw [if_pos hside]
    exact (hnested.filed i hi side').register g
  · rw [if_neg hside]
    exact hnested.filed i hi side'

theorem tag?_register (h : Heap) (side : Side) (i : ItemId) (g : GroupId) :
    (h.register side i g).tag? = h.tag? := tag?_setNestedIn h g i

theorem item_register (hi : h.HasItem i) :
    (h.register side i g).item i = (h.item i).mapSlot side fun s => s.register h.tag? g := by
  unfold register
  rw [item_alterItem_self (show (h.setNestedIn g i).HasItem i from hi)]
  rfl

/-- Groups with tags are filed one after the other.  Of those with the same tag the last one stays,
in the place of the first one. -/
theorem registerAll_spec (side : Side) (hitem : ¬ base.HasItem i) :
    ∀ (gs : List GroupId) (h : Heap) (m : OrderedMap (Option TypeTag) GroupId), Tidy base h →
    h.HasItem i → ((h.item i).slot side).primary = ((h.item i).slot side).typed.head? →
    m.entries = (((h.item i).slot side).byType.getD .empty).entries.map (Prod.map some id) →
    (∀ g ∈ gs, ∃ k, h.tag? g = some k) →
    ∃ s : Slot, (h.registerAll side i gs).item i = (h.item i).mapSlot side (fun _ => s) ∧
      s.typed = (gs.foldl (fun m g => m.insert (h.tag? g) g) m).values ∧
      s.primary = s.typed.head? := by
  intro gs
  induction gs with
  | nil =>
    intro h m ht hi hfirst hm _
    refine ⟨(h.item i).slot side, ?_, ?_, hfirst⟩
    · cases side <;> rfl
    · rw [List.foldl_nil, OrderedMap.values, hm, List.map_map, ← Slot.values_getD]
      rfl
  | cons g gs ih =>
    intro h m ht hi hfirst hm htags
    obtain ⟨k, hk⟩ := htags g List.mem_cons_self
    have hslot : ((h.register side i g).item i).slot side =
        ((h.item i).slot side).register h.tag? g := by
      rw [item_register hi, Item.slot_mapSlot, if_pos rfl]
    obtain ⟨s, hs, hstyped, hsfirst⟩ := ih (h.register side i g) (m.insert (h.tag? g) g)
      (ht.register hitem) (hasItem_alterItem.2 hi)
      (by
        rw [hslot]
        exact Slot.primary_register_filed hk (ht.filed i hitem side) hfirst)
      (by
        rw [hslot, Slot.byType_register hk, Option.getD_some, hk]
        show OrderedMap.fileEntry (some k) g m.entries = _
        rw [hm, OrderedMap.fileEntry_map fun _ _ => Option.some.inj]
        rfl)
      (by
        intro z hz
        rw [tag?_register]
        exact htags z (List.mem_cons_of_mem g hz))
    refine ⟨s, ?_, ?_, hsfirst⟩
    · show ((h.register side i g).registerAll side i gs).item i = _
      rw [hs, item_register hi]
      cases side <;> rfl
    · rw [hstyped, tag?_register]
      rfl

theorem hasGroup_registerAll {gs : List GroupId} {x : GroupId} :
    (h.registerAll side i gs).HasGroup x ↔ h.HasGroup x := by
  induction gs generalizing h with
  | nil => exact Iff.rfl
  | cons g gs ih => exact ih.trans hasGroup_alterGroup

theorem Grows.registerAll {gs : List GroupId} (hab : Grows G I a b)
    (hgs : ∀ g ∈ gs, a.HasGroup g → G g) (hi : a.HasItem i → I i) :
    Grows G I a (b.registerAll side i gs) := by
  induction gs generalizing b with
  | nil => exact hab
  | cons g gs ih =>
    rw [List.forall_mem_cons] at hgs
    exact ih (hab.register hgs.1 hi) hgs.2

theorem Retains.registerAll {gs : List GroupId} (hbh : Retains n m L b h) (hi : i.index < m) :
    Retains n m L b (h.registerAll side i gs) := by
  induction gs generalizing h with
  | nil => exact hbh
  | cons g gs ih => exact ih (hbh.register hi)

theorem Tidy.registerAll {gs : List GroupId} (ht : Tidy base h) (hi : ¬ base.HasItem i) :
    Tidy base (h.registerAll side i gs) := by
  induction gs generalizing h with
  | nil => exact ht
  | cons g gs ih => exact ih (ht.register hi)

/-! ### Setting the primary group -/

theorem Grows.setRoot (hab : Grows G I a b) (hg : a.HasGroup g → G g) (hi : a.HasItem i → I i) :
    Grows G I a (b.setRoot side i g) :=
  (hab.setNestedIn hg i).alterItem hi _

theorem Retains.setRoot (hbh : Retains n m L b h) (hi : i.index < m) :
    Retains n m L b (h.setRoot side i g) :=
  (hbh.setNestedIn g i).alterItem hi _

theorem Tidy.setRoot (ht : Tidy base h) (hi : ¬ base.HasItem i) :
    Tidy base (h.setRoot side i g) := by
  have hnested := ht.setNestedIn g i
  refine hnested.alterItem fun side' => ?_
  rw [Item.slot_mapSlot]
  by_cases hside : side' = side
  · rw [if_pos hside]
    exact fun k z hz => hnested.filed i hi side' k z hz
  · rw [if_neg hside]
    exact hnested.filed i hi side'

theorem item_setRoot (hi : h.HasItem i) :
    (h.setRoot side i g).item i =
      (h.item i).mapSlot side fun s => { s with primary := some g } := by
  unfold setRoot
  rw [item_alterItem_self (show (h.setNestedIn g i).HasItem i from hi)]
  rfl

/-! ### Linking the groups of a slot -/

/-- The group that a built group extends: the first other group of the slot with the type name. -/
def superAmong (h : Heap) (siblings : List BuiltGroup) (r : BuiltGroup) : Option GroupId :=
  r.superTypeName.bind fun n =>
    (siblings.find? fun c => c.group ≠ r.group && (h.group c.group).typeName = some n).map
      BuiltGroup.group

theorem superAmong_eq (h : Heap) (siblings : List BuiltGroup) (r : BuiltGroup) :
    h.superAmong siblings r = r.superTypeName.bind fun n =>
      (siblings.map BuiltGroup.group).find? fun z =>
        z ≠ r.group && (h.group z).typeName = some n := by
  simp only [List.find?_map]
  rfl

/-- Link a built group below the one that it extends. -/
def linkBelow (h : Heap) (hierarchy : Hierarchy) (siblings : List BuiltGroup) (r : BuiltGroup) :
    Heap :=
  match h.superAmong siblings r with
  | some p => h.insertBelow hierarchy p r.group
  | none => h

theorem superAmong_congr {h' : Heap} {siblings : List BuiltGroup}
    (hnames : ∀ c ∈ siblings, (h'.group c.group).typeName = (h.group c.group).typeName)
    (r : BuiltGroup) : h'.superAmong siblings r = h.superAmong siblings r := by
  unfold superAmong
  congr 1
  funext n
  congr 1
  refine find?_congr fun c hc => ?_
  rw [hnames c hc]

theorem mem_of_superAmong {siblings : List BuiltGroup} {r : BuiltGroup} {p : GroupId}
    (hp : h.superAmong siblings r = some p) : p ∈ siblings.map BuiltGroup.group ∧ p ≠ r.group := by
  unfold superAmong at hp
  obtain ⟨n, -, hfound⟩ := Option.bind_eq_some_iff.1 hp
  obtain ⟨c, hc, rfl⟩ := Option.map_eq_some_iff.1 hfound
  have hne := List.find?_some hc
  rw [Bool.and_eq_true, decide_eq_true_eq] at hne
  exact ⟨List.mem_map_of_mem (List.mem_of_find?_eq_some hc), hne.1⟩

/-- A group without a type takes over no other group. -/
theorem insertBelow_of_untyped {hierarchy : Hierarchy} {p : GroupId} (hg : (h.group g).type = none)
    (hne : g ≠ p) : h.insertBelow hierarchy p g =
      (h.alterGroup g fun x => { x with above := some p }).alterGroup p fun x =>
        { x with below := some ((x.below.getD .empty).insert g) } := by
  have hkeep : ∀ (children : List GroupId) (h' : Heap), (h'.group g).type = none →
      children.foldl (fun h child =>
        if h.derivesFrom hierarchy g child then h.reparent child p g else h) h' = h' := by
    intro children
    induction children with
    | nil => intro h' _; rfl
    | cons child children ih =>
      intro h' hh'
      have hnot : h'.derivesFrom hierarchy g child = false := by
        unfold derivesFrom
        rw [hh']
      rw [List.foldl_cons, hnot, if_neg Bool.false_ne_true, ih h' hh']
  have huntyped : ((h.alterGroup g fun x => { x with above := some p }).group g).type = none := by
    refine (group_alterGroup_field Group.type ?_ g g).trans hg
    exact fun _ => rfl
  unfold insertBelow
  rw [if_neg hne]
  dsimp only
  rw [hkeep _ _ huntyped]

section LinkBelow

variable {hierarchy : Hierarchy} {siblings : List BuiltGroup} {r : BuiltGroup}

theorem linkBelow_eq (hierarchy : Hierarchy) (siblings : List BuiltGroup)
    (hr : (h.group r.group).type = none) :
    h.linkBelow hierarchy siblings r = h ∧ h.superAmong siblings r = none ∨
      ∃ p, h.superAmong siblings r = some p ∧ h.linkBelow hierarchy siblings r =
        (h.alterGroup r.group fun x => { x with above := some p }).alterGroup p fun x =>
          { x with below := some ((x.below.getD .empty).insert r.group) } := by
  unfold linkBelow
  cases hp : h.superAmong siblings r with
  | none => exact .inl ⟨rfl, rfl⟩
  | some p =>
    exact .inr ⟨p, rfl, insertBelow_of_untyped hr fun hrp => (mem_of_superAmong hp).2 hrp.symm⟩

theorem Grows.linkBelow (hab : Grows G I a b) (hr : (b.group r.group).type = none)
    (hmem : r ∈ siblings) (hG : ∀ c ∈ siblings, a.HasGroup c.group → G c.group) :
    Grows G I a (b.linkBelow hierarchy siblings r) := by
  rcases linkBelow_eq hierarchy siblings hr with ⟨heq, -⟩ | ⟨p, hp, heq⟩
  · rw [heq]
    exact hab
  · rw [heq]
    obtain ⟨c, hc, rfl⟩ := List.mem_map.1 (mem_of_superAmong hp).1
    exact (hab.alterGroup (hG r hmem) _).alterGroup (hG c hc) _

theorem Retains.linkBelow (hbh : Retains n m L b h) (hr : (h.group r.group).type = none)
    (hmem : r ∈ siblings) (hL : ∀ c ∈ siblings, L c.group) :
    Retains n m L b (h.linkBelow hierarchy siblings r) := by
  rcases linkBelow_eq hierarchy siblings hr with ⟨heq, -⟩ | ⟨p, hp, heq⟩
  · rw [heq]
    exact hbh
  · rw [heq]
    obtain ⟨c, hc, rfl⟩ := List.mem_map.1 (mem_of_superAmong hp).1
    refine (hbh.alterGroup ?_ (.inl (hL r hmem))).alterGroup ?_ (.inl (hL c hc))
    · exact fun _ => rfl
    · exact fun _ => rfl

theorem Tidy.linkBelow (ht : Tidy base h) (hr : (h.group r.group).type = none) :
    Tidy base (h.linkBelow hierarchy siblings r) := by
  rcases linkBelow_eq hierarchy siblings hr with ⟨heq, -⟩ | ⟨p, hp, heq⟩
  · rw [heq]
    exact ht
  · rw [heq]
    refine (ht.alterGroup r.group ?_ ?_).alterGroup p ?_ ?_
    all_goals exact fun _ => rfl

/-- Linking a group sets its super group and no other one. -/
theorem above_linkBelow (hierarchy : Hierarchy) (siblings : List BuiltGroup)
    (hr : (h.group r.group).type = none)
    (hin : h.HasGroup r.group) (habove : (h.group r.group).above = none) (x : GroupId) :
    ((h.linkBelow hierarchy siblings r).group x).above =
      if x = r.group then h.superAmong siblings r else (h.group x).above := by
  rcases linkBelow_eq hierarchy siblings hr with ⟨heq, hp⟩ | ⟨p, hp, heq⟩
  · rw [heq, hp]
    by_cases hx : x = r.group
    · rw [if_pos hx, hx, habove]
    · rw [if_neg hx]
  · rw [heq, hp, group_alterGroup_field Group.above (by exact fun _ => rfl)]
    by_cases hx : x = r.group
    · rw [if_pos hx, hx, group_alterGroup_self hin]
    · rw [if_neg hx, group_alterGroup_of_ne hx]

/-- Linking a group adds it to the sub groups of another one at most. -/
theorem mem_subs_linkBelow (hr : (h.group r.group).type = none) {x w : GroupId}
    (hw : w ∈ ((h.linkBelow hierarchy siblings r).group x).subs) :
    w ∈ (h.group x).subs ∨ w = r.group := by
  rcases linkBelow_eq hierarchy siblings hr with ⟨heq, -⟩ | ⟨p, -, heq⟩
  · rw [heq] at hw
    exact .inl hw
  · have hsame : ((h.alterGroup r.group fun x => { x with above := some p }).group x).subs =
        (h.group x).subs := by
      rw [group_alterGroup_field Group.subs (by exact fun _ => rfl)]
    rw [heq, group_alterGroup] at hw
    by_cases hx : p = x ∧ (h.alterGroup r.group fun x => { x with above := some p }).HasGroup x
    · rw [if_pos hx] at hw
      rw [← hsame]
      exact Group.mem_subs_addSub.1 hw
    · rw [if_neg hx, hsame] at hw
      exact .inl hw

theorem hasGroup_linkBelow (hr : (h.group r.group).type = none) {x : GroupId} :
    (h.linkBelow hierarchy siblings r).HasGroup x ↔ h.HasGroup x := by
  rcases linkBelow_eq hierarchy siblings hr with ⟨heq, -⟩ | ⟨p, -, heq⟩
  · rw [heq]
  · rw [heq, hasGroup_alterGroup, hasGroup_alterGroup]

theorem typeName_linkBelow (hierarchy : Hierarchy) (siblings : List BuiltGroup)
    (hr : (h.group r.group).type = none) (x : GroupId) :
    ((h.linkBelow hierarchy siblings r).group x).typeName = (h.group x).typeName := by
  rcases linkBelow_eq hierarchy siblings hr with ⟨heq, -⟩ | ⟨p, -, heq⟩
  · rw [heq]
  · rw [heq, group_alterGroup_field Group.typeName (by exact fun _ => rfl),
      group_alterGroup_field Group.typeName (by exact fun _ => rfl)]

end LinkBelow

/-- Link built groups of a slot below those that they extend, in order. -/
def linkAll (h : Heap) (hierarchy : Hierarchy) (siblings todo : List BuiltGroup) : Heap :=
  todo.foldl (fun h r => h.linkBelow hierarchy siblings r) h

section LinkAll

variable {hierarchy : Hierarchy} {siblings todo : List BuiltGroup}

theorem type_linkBelow {r : BuiltGroup} (hr : (h.group r.group).type = none) (x : GroupId) :
    ((h.linkBelow hierarchy siblings r).group x).type = (h.group x).type := by
  rcases linkBelow_eq hierarchy siblings hr with ⟨heq, -⟩ | ⟨p, -, heq⟩
  · rw [heq]
  · rw [heq, group_alterGroup_field Group.type (by exact fun _ => rfl),
      group_alterGroup_field Group.type (by exact fun _ => rfl)]

theorem Grows.linkAll (hab : Grows G I a b) (htodo : ∀ r ∈ todo, r ∈ siblings)
    (huntyped : ∀ r ∈ todo, (b.group r.group).type = none)
    (hG : ∀ c ∈ siblings, a.HasGroup c.group → G c.group) :
    Grows G I a (b.linkAll hierarchy siblings todo) := by
  induction todo generalizing b with
  | nil => exact hab
  | cons r todo ih =>
    rw [List.forall_mem_cons] at htodo huntyped
    refine ih (hab.linkBelow huntyped.1 htodo.1 hG) htodo.2 fun c hc => ?_
    rw [type_linkBelow huntyped.1]
    exact huntyped.2 c hc

theorem Retains.linkAll (hbh : Retains n m L b h) (htodo : ∀ r ∈ todo, r ∈ siblings)
    (huntyped : ∀ r ∈ todo, (h.group r.group).type = none) (hL : ∀ c ∈ siblings, L c.group) :
    Retains n m L b (h.linkAll hierarchy siblings todo) := by
  induction todo generalizing h with
  | nil => exact hbh
  | cons r todo ih =>
    rw [List.forall_mem_cons] at htodo huntyped
    refine ih (hbh.linkBelow huntyped.1 htodo.1 hL) htodo.2 fun c hc => ?_
    rw [type_linkBelow huntyped.1]
    exact huntyped.2 c hc

theorem Tidy.linkAll (ht : Tidy base h) (huntyped : ∀ r ∈ todo, (h.group r.group).type = none) :
    Tidy base (h.linkAll hierarchy siblings todo) := by
  induction todo generalizing h with
  | nil => exact ht
  | cons r todo ih =>
    rw [List.forall_mem_cons] at huntyped
    refine ih (ht.linkBelow huntyped.1) fun c hc => ?_
    rw [type_linkBelow huntyped.1]
    exact huntyped.2 c hc

theorem hasGroup_linkAll (huntyped : ∀ r ∈ todo, (h.group r.group).type = none) {x : GroupId} :
    (h.linkAll hierarchy siblings todo).HasGroup x ↔ h.HasGroup x := by
  induction todo generalizing h with
  | nil => exact Iff.rfl
  | cons r todo ih =>
    rw [List.forall_mem_cons] at huntyped
    refine (ih fun c hc => ?_).trans (hasGroup_linkBelow huntyped.1)
    rw [type_linkBelow huntyped.1]
    exact huntyped.2 c hc

/-- Each of the groups comes to lie below the one that it extends. -/
theorem above_linkAll (hdistinct : (todo.map BuiltGroup.group).Nodup)
    (huntyped : ∀ r ∈ todo, (h.group r.group).type = none ∧ h.HasGroup r.group ∧
      (h.group r.group).above = none) :
    (∀ r ∈ todo, ((h.linkAll hierarchy siblings todo).group r.group).above =
      h.superAmong siblings r) ∧
    ∀ x ∉ todo.map BuiltGroup.group,
      ((h.linkAll hierarchy siblings todo).group x).above = (h.group x).above := by
  induction todo generalizing h with
  | nil => exact ⟨fun r hr => absurd hr List.not_mem_nil, fun x _ => rfl⟩
  | cons r todo ih =>
    rw [List.map_cons, List.nodup_cons] at hdistinct
    rw [List.forall_mem_cons] at huntyped
    obtain ⟨⟨hr, hin, habove⟩, huntyped⟩ := huntyped
    have hone := above_linkBelow hierarchy siblings hr hin habove
    have hrest : ∀ c ∈ todo, ((h.linkBelow hierarchy siblings r).group c.group).type = none ∧
        (h.linkBelow hierarchy siblings r).HasGroup c.group ∧
        ((h.linkBelow hierarchy siblings r).group c.group).above = none := by
      intro c hc
      obtain ⟨htype, hcin, hcabove⟩ := huntyped c hc
      have hne : c.group ≠ r.group := fun heq => hdistinct.1 (heq ▸ List.mem_map_of_mem hc)
      exact ⟨(type_linkBelow hr c.group).trans htype, (hasGroup_linkBelow hr).2 hcin,
        by rw [hone, if_neg hne, hcabove]⟩
    obtain ⟨hlinked, hothers⟩ := ih hdistinct.2 hrest
    have hnames := superAmong_congr fun c (_ : c ∈ siblings) =>
      typeName_linkBelow hierarchy siblings hr c.group
    refine ⟨List.forall_mem_cons.2 ⟨?_, fun c hc => ?_⟩, fun x hx => ?_⟩
    · exact (hothers r.group hdistinct.1).trans (by rw [hone, if_pos rfl])
    · exact (hlinked c hc).trans (hnames c)
    · rw [List.map_cons, List.mem_cons, not_or] at hx
      exact (hothers x hx.2).trans (by rw [hone, if_neg hx.1])

theorem mem_subs_linkAll (huntyped : ∀ r ∈ todo, (h.group r.group).type = none) {x w : GroupId}
    (hw : w ∈ ((h.linkAll hierarchy siblings todo).group x).subs) :
    w ∈ (h.group x).subs ∨ w ∈ todo.map BuiltGroup.group := by
  induction todo generalizing h with
  | nil => exact .inl hw
  | cons r todo ih =>
    rw [List.forall_mem_cons] at huntyped
    have hrest : ∀ c ∈ todo, ((h.linkBelow hierarchy siblings r).group c.group).type = none := by
      intro c hc
      rw [type_linkBelow huntyped.1]
      exact huntyped.2 c hc
    rw [List.map_cons, List.mem_cons]
    rcases ih hrest hw with hw | hw
    · rcases mem_subs_linkBelow huntyped.1 hw with hw | hw
      · exact .inl hw
      · exact .inr (.inl hw)
    · exact .inr (.inr hw)

end LinkAll

end Heap

end AttributeGraph
