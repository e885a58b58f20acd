/-
Where a restoration says that super types are missing.

What is nested in an item is built before the item's own group is nested anywhere.
So a group of a slot is reported at a time when the way up from it ends at the
group with the item (`Filled.climbs`): the path that is reported is the name of
the last attribute, whatever leads to that group in the end.

`Accounted` says of a group that has been built that the orphans inside have been
reported in this way and hang below the group along their names; it is shown for
lists of groups, slots, items and attributes in turn.  Therefore there is one
diagnostic for each orphan, and its path is the path of the orphan exactly for
those directly below the root (`orphans_reported`).
-/
import AttributeGraph.Proofs.Orphans

namespace AttributeGraph

namespace Heap

variable {a b c h h₁ base : Heap} {y : GroupId} {i : ItemId} {s : RestorationScope}
  {rs ts ps : List BuiltGroup} {ds typed : List Description} {lone : Option Description}
  {e : Description} {os os' : List Orphan} {zs ws : List GroupId}

/-! ### Building -/

/-- A group has been built from a description: it is nested nowhere yet, and the orphans inside hang
below it. -/
structure Accounted (base a b : Heap) (y : GroupId) (d : Description) (zs : List GroupId) :
    Prop where
  grows : Grows Nothing Nothing a b
  tidy : Tidy base b
  adds : Adds a b (y :: zs)
  name : (b.group y).name = d.name
  typeName : (b.group y).typeName = d.typeName
  loose : (b.group y).nestedIn = none
  located : List.Forall₂ (b.Located y) d.orphans zs

/-- Groups have been built from descriptions, one by one. -/
structure AccountedAll (base a b : Heap) (rs : List BuiltGroup) (ds : List Description)
    (zs : List GroupId) : Prop where
  grows : Grows Nothing Nothing a b
  tidy : Tidy base b
  adds : Adds a b (rs.map BuiltGroup.group ++ zs)
  built : List.Forall₂ b.Described rs ds
  loose : ∀ r ∈ rs, (b.group r.group).nestedIn = none
  located : List.Forall₂ (fun o z => ∃ r ∈ rs, b.Located r.group o z)
    (ds.flatMap Description.orphans) zs

/-- Below an item groups have been built, and they are the orphans that are described. -/
structure AccountedBelow (base a b : Heap) (i : ItemId) (os : List Orphan) (zs : List GroupId) :
    Prop where
  grows : Grows Nothing (· = i) a b
  tidy : Tidy base b
  settles : Settles a b
  adds : Adds a b zs
  located : List.Forall₂
    (fun o z => b.Located (b.item i).owner (o.under (b.item i).name) z) os zs

/-- A new item waits for groups in a group that is nested nowhere yet. -/
structure Awaits (base h : Heap) (i : ItemId) : Prop where
  inHeap : h.HasItem i
  new : ¬ base.HasItem i
  owner : h.HasGroup (h.item i).owner
  top : (h.group (h.item i).owner).nestedIn = none

/-- Wherever a description is built, the orphans inside are reported. -/
def Accounts (s : RestorationScope) (d : Description) : Prop :=
  ∀ base h, Grows Nothing Nothing base h → Tidy base h →
    ∃ y h' zs, (Restoring.makeGroup s d).Emits h y h' (d.orphans.map Orphan.diagnostic) ∧
      Accounted base h h' y d zs

theorem AccountedAll.nil (htidy : Tidy base h) : AccountedAll base h h [] [] [] where
  grows := .refl h
  tidy := htidy
  adds := .nil h h
  built := .nil
  loose _ hr := absurd hr List.not_mem_nil
  located := .nil

theorem AccountedAll.inHeap (hrs : AccountedAll base a b rs ds zs) : ∀ r ∈ rs, b.HasGroup r.group :=
  fun _ hr => hrs.adds.inHeap _ (List.mem_append_left zs (List.mem_map_of_mem hr))

/-- A group is built, and then others are. -/
theorem AccountedAll.cons (hy : Accounted base a b y e zs) (hrs : AccountedAll base b c rs ds ws) :
    AccountedAll base a c (⟨e.superTypeName, y⟩ :: rs) (e :: ds) (zs ++ ws) := by
  have hsettles := Settles.grows hrs.grows
  have hin : b.HasGroup y := hy.adds.inHeap y List.mem_cons_self
  have hkept : c.group y = b.group y := hrs.grows.group y hin fun hno => hno
  refine ⟨?_, hrs.tidy, ?_, .cons ?_ hrs.built, List.forall_mem_cons.2 ⟨?_, hrs.loose⟩, ?_⟩
  · exact hy.grows.trans hrs.grows (fun _ _ hg => hg) fun _ _ hi => hi
  · have hadds := hy.adds.append hrs.adds (fun _ hg => hg) hy.grows.hasGroup hrs.grows.hasGroup
    refine hadds.subperm (List.Perm.subperm ?_)
    exact (List.perm_append_comm_assoc _ _ _).cons y
  · exact ⟨rfl, by rw [hkept, hy.name], by rw [hkept, hy.typeName]⟩
  · rw [hkept, hy.loose]
  · rw [List.flatMap_cons]
    refine List.rel_append ?_ ?_
    · exact hy.located.imp fun _ _ hz => ⟨_, List.mem_cons_self, hsettles.located hz⟩
    · exact hrs.located.imp fun _ _ ⟨r, hr, hz⟩ => ⟨r, List.mem_cons_of_mem _ hr, hz⟩

theorem makeGroups_accounted (hds : ∀ d ∈ ds, Accounts s d) :
    ∀ h, Grows Nothing Nothing base h → Tidy base h →
      ∃ rs h' zs, (Restoring.makeGroups s ds).Emits h rs h'
        ((ds.flatMap Description.orphans).map Orphan.diagnostic) ∧
        AccountedAll base h h' rs ds zs := by
  induction ds with
  | nil => exact fun h _ htidy => ⟨[], h, [], .pure _ h, .nil htidy⟩
  | cons d ds ih =>
    intro h hgrows htidy
    rw [List.forall_mem_cons] at hds
    obtain ⟨y, h₁, zs, hrun, hy⟩ := hds.1 base h hgrows htidy
    have hgrows₁ : Grows Nothing Nothing base h₁ :=
      hgrows.trans hy.grows (fun _ _ hg => hg) fun _ _ hi => hi
    obtain ⟨rs, h₂, ws, hruns, hrs⟩ := ih hds.2 h₁ hgrows₁ hy.tidy
    refine ⟨_, h₂, _, ?_, .cons hy hrs⟩
    rw [List.flatMap_cons, List.map_append, ← List.append_nil (List.map _ (ds.flatMap _))]
    exact hrun.bind (hruns.bind (.pure _ h₂))

theorem makePrimary_accounted (side : Side) (i : ItemId) {o : Option Description}
    (ho : ∀ d ∈ o, Accounts s d) (hgrows : Grows Nothing Nothing base h) (htidy : Tidy base h) :
    ∃ ps h' zs, (Restoring.makePrimary s side i o).Emits h ps (h'.setPrimary side i ps)
      ((o.toList.flatMap Description.orphans).map Orphan.diagnostic) ∧
      AccountedAll base h h' ps o.toList zs := by
  cases o with
  | none => exact ⟨[], h, [], .pure _ h, .nil htidy⟩
  | some d =>
    obtain ⟨y, h', zs, hrun, hy⟩ := ho d rfl base h hgrows htidy
    refine ⟨[⟨d.superTypeName, y⟩], h', zs ++ [], ?_, .cons hy (.nil hy.tidy)⟩
    rw [Option.toList_some, List.flatMap_singleton, ← List.append_nil (List.map _ _)]
    exact hrun.bind ((Restoring.Emits.edit _ h').bind (.pure _ _))

/-- An item goes on waiting while nothing but the item changes. -/
theorem Awaits.later (hi : Awaits base a i) (hgrows : Grows Nothing (· = i) a b)
    (hab : Settles a b) : Awaits base b i where
  inHeap := hab.hasItem i hi.inHeap
  new := hi.new
  owner := by
    rw [(hab.item i hi.inHeap).2]
    exact hab.hasGroup _ hi.owner
  top := by
    rw [(hab.item i hi.inHeap).2, hgrows.group _ hi.owner fun hno => hno]
    exact hi.top

/-! ### Slots -/

/-- One part of what is below an item is built and then another one. -/
theorem AccountedBelow.append (hab : AccountedBelow base a b i os zs)
    (hbc : AccountedBelow base b c i os' ws) (hi : b.HasItem i) :
    AccountedBelow base a c i (os ++ os') (zs ++ ws) where
  grows := hab.grows.trans hbc.grows (fun _ _ hno => hno) fun _ _ hji => hji
  tidy := hbc.tidy
  settles := hab.settles.trans hbc.settles
  adds := hab.adds.append hbc.adds (fun _ hg => hg) hab.grows.hasGroup hbc.grows.hasGroup
  located := by
    obtain ⟨hname, howner⟩ := hbc.settles.item i hi
    have hkept := hab.located.imp fun _ _ hz => hbc.settles.located hz
    rw [← hname, ← howner] at hkept
    exact List.rel_append hkept hbc.located

/-- The groups of a slot have been built and nested in the item, but not linked yet. -/
structure Filled (base a b : Heap) (i : ItemId) (rs : List BuiltGroup) (ds : List Description)
    (zs : List GroupId) : Prop where
  below : AccountedBelow base a b i (ds.flatMap Description.orphans) zs
  adds : Adds a b (rs.map BuiltGroup.group ++ zs)
  built : List.Forall₂ b.Described rs ds
  nested : ∀ r ∈ rs, (b.group r.group).nestedIn = some i

/-- Groups that have just been built are filled into a slot. -/
theorem AccountedAll.filled (hrs : AccountedAll base a b rs ds zs) (hi : Awaits base a i)
    (hbc : Settles b c) (hgrows : Grows Nothing (· = i) a c) (htidy : Tidy base c)
    (hnested : ∀ r ∈ rs, (c.group r.group).nestedIn = some i) : Filled base a c i rs ds zs where
  below := by
    refine ⟨hgrows, htidy, (Settles.grows hrs.grows).trans hbc, ?_, hrs.located.imp ?_⟩
    · exact (hrs.adds.later hbc.hasGroup).subperm (List.sublist_append_right _ zs).subperm
    · rintro o z ⟨r, hr, hz⟩
      exact hbc.located_under hz (hgrows.hasItem i hi.inHeap) (hnested r hr)
  adds := hrs.adds.later hbc.hasGroup
  built := by
    refine (forall₂_mem hrs.built).imp ?_
    rintro r e ⟨hr, -, hre⟩
    exact hre.settle hbc (hrs.inHeap r hr)
  nested := hnested

theorem AccountedAll.nestedAtMost (hrs : AccountedAll base a b rs ds zs) (i : ItemId) :
    ∀ g ∈ rs.map BuiltGroup.group, b.HasGroup g ∧ ∀ j, (b.group g).nestedIn = some j → j = i := by
  intro g hg
  obtain ⟨r, hr, rfl⟩ := List.mem_map.1 hg
  refine ⟨hrs.inHeap r hr, fun j hj => ?_⟩
  rw [hrs.loose r hr] at hj
  cases hj

theorem Filled.registered (hts : AccountedAll base h h₁ ts typed zs) (hi : Awaits base h i)
    (side : Side) :
    Filled base h (h₁.registerAll side i (ts.map BuiltGroup.group)) i ts typed zs := by
  obtain ⟨hsettles, hnested⟩ := settles_registerAll side i (hts.nestedAtMost i)
  refine hts.filled hi hsettles ?_ (hts.tidy.registerAll hi.new) fun r hr =>
    hnested _ (List.mem_map_of_mem hr)
  refine (hts.grows.mono (fun _ _ hno => hno) fun _ _ hno => hno.elim).registerAll ?_ fun _ => rfl
  exact fun g hg => hts.adds.new g (List.mem_append_left zs hg)

theorem settles_setPrimary (side : Side) (hps : AccountedAll base a h ps lone.toList ws) :
    Settles h (h.setPrimary side i ps) ∧
      ∀ r ∈ ps, ((h.setPrimary side i ps).group r.group).nestedIn = some i := by
  have hone := eq_head?_of_forall₂ hps.built.flip
  unfold setPrimary
  cases hhead : ps.head? with
  | none =>
    rw [hhead] at hone
    rw [hone]
    exact ⟨.refl h, fun r hr => absurd hr List.not_mem_nil⟩
  | some p =>
    rw [hhead] at hone
    have hp : p ∈ ps := List.mem_of_head? hhead
    obtain ⟨hin, hloose⟩ := hps.nestedAtMost i p.group (List.mem_map_of_mem hp)
    refine ⟨settles_nest hloose side _, fun r hr => ?_⟩
    rw [hone, Option.toList_some, List.mem_singleton] at hr
    show ((h.setRoot side i p.group).group r.group).nestedIn = some i
    rw [hr, setRoot, nestedIn_nest h p.group i side _ hin, if_pos rfl]

/-- What has been filled into a slot stays there while more is. -/
theorem Filled.append (hab : Filled base a b i ts typed zs) (hbc : Filled base b c i ps ds ws)
    (hi : b.HasItem i) : Filled base a c i (ts ++ ps) (typed ++ ds) (zs ++ ws) where
  below := by
    rw [List.flatMap_append]
    exact hab.below.append hbc.below hi
  adds := by
    have hadds := hab.adds.append hbc.adds (fun _ hg => hg) hab.below.grows.hasGroup
      hbc.below.grows.hasGroup
    refine hadds.subperm (List.Perm.subperm ?_)
    rw [List.map_append, List.append_assoc, List.append_assoc]
    exact (List.perm_append_comm_assoc _ _ _).append_left _
  built := by
    refine List.rel_append ((forall₂_mem hab.built).imp ?_) hbc.built
    rintro r e ⟨hr, -, hre⟩
    refine hre.settle hbc.below.settles (hab.adds.inHeap _ ?_)
    exact List.mem_append_left zs (List.mem_map_of_mem hr)
  nested := List.forall_mem_append.2
    ⟨fun r hr => hbc.below.settles.nestedIn _ i (hab.nested r hr), hbc.nested⟩

/-- The way up from a group that has been filled in is short: the item is in a group that is nested
nowhere yet. -/
theorem Filled.climbs (hab : Filled base a b i rs ds zs) (hi : Awaits base b i) :
    ∀ r ∈ rs, b.Climbs (b.item i).owner [(b.item i).name] r.group :=
  fun r hr => .step (.root hi.owner hi.top) (hab.nested r hr)

theorem Filled.distinct (hab : Filled base a b i rs ds zs) : (rs.map BuiltGroup.group).Nodup :=
  hab.adds.nodup.sublist (List.sublist_append_left _ zs)

/-- **Below an item there are the orphans inside the groups of its slot, and those that are groups
of the slot.** -/
theorem Filled.linked (hab : Filled base a b i rs ds zs) (hbase : Grows Nothing Nothing base a)
    (hi : Awaits base b i) (hierarchy : Hierarchy) :
    AccountedBelow base a (b.linkAll hierarchy rs rs) i
      (ds.flatMap Description.orphans ++ slotOrphans ds)
      (zs ++ (b.missingSupers rs rs).map Prod.fst) := by
  have hnew : ∀ r ∈ rs, ¬ a.HasGroup r.group := fun r hr =>
    hab.adds.new _ (List.mem_append_left zs (List.mem_map_of_mem hr))
  have huntyped : ∀ r ∈ rs, (b.group r.group).type = none := fun r hr =>
    hab.below.tidy.untyped r.group fun hin => hnew r hr (hbase.hasGroup _ hin)
  have hrelinked := (Relinked.refl b).linkAll hierarchy rs rs
  have hlater := hrelinked.settles
  refine ⟨hab.below.grows.linkAll (fun _ hr => hr) huntyped hnew,
    hab.below.tidy.linkAll huntyped, hab.below.settles.trans hlater,
    (hab.adds.later hlater.hasGroup).subperm ?_, ?_⟩
  · have hsub := (b.sublist_missingSupers rs rs).append_right zs
    exact List.perm_append_comm.subperm.trans hsub.subperm
  · rw [hrelinked.item]
    refine List.rel_append (hab.below.located.imp fun _ _ hz => hlater.located hz) ?_
    refine List.forall₂_map_right_iff.2 ((missingSupers_orphans hab.built hab.distinct).imp ?_)
    rintro o p ⟨hnames, hname, -, hp⟩
    have hself : b.Located p.1 o p.1 := ⟨hab.adds.inHeap _ (List.mem_append_left zs hp), hname, by
      rw [hnames]
      exact .self⟩
    obtain ⟨r, hr, hrp⟩ := List.mem_map.1 hp
    exact hlater.located ((Settles.refl b).located_under hself hi.inHeap (hrp ▸ hab.nested r hr))

/-- What is reported of the groups of a slot is what is to be reported of orphans. -/
theorem Filled.reports (hab : Filled base a b i rs ds zs) (n : String) :
    (b.missingSupers rs rs).map (b.missingReport n) =
      (slotOrphans ds).map fun o => (o.under n).diagnostic := by
  refine (map_eq_of_forall₂ ?_ (missingSupers_orphans hab.built hab.distinct)).symm
  rintro o p ⟨hnames, hname, hsuper, -⟩
  rw [missingReport, Orphan.diagnostic, Orphan.under, hnames, hname, hsuper]
  rfl

/-- An attribute makes no difference to what is reported of the orphans inside groups. -/
theorem reports_under (ds : List Description) (n : String) :
    (ds.flatMap Description.orphans).map (fun o => (o.under n).diagnostic) =
      (ds.flatMap Description.orphans).map Orphan.diagnostic := by
  refine List.map_congr_left fun o ho => ?_
  obtain ⟨e, -, ho⟩ := List.mem_flatMap.1 ho
  exact Orphan.diagnostic_under (Description.names_ne_nil ho) n

theorem makeSlot_accounted (side : Side) {typed : Option (List Description)}
    {lone : Option Description} (htyped : ∀ d ∈ typed.getD [], Accounts s d)
    (hlone : ∀ d ∈ lone, Accounts s d) (hbase : Grows Nothing Nothing base h)
    (htidy : Tidy base h) (hi : Awaits base h i) :
    let ds := typed.getD [] ++ lone.toList
    let os := ds.flatMap Description.orphans ++ slotOrphans ds
    ∃ h' zs, (Restoring.makeSlot s side i typed lone).Emits h ⟨⟩ h'
      (os.map fun o => (o.under (h.item i).name).diagnostic) ∧
      AccountedBelow base h h' i os zs := by
  intro ds os
  obtain ⟨ts, h₁, zs, hruns, hts⟩ := makeGroups_accounted htyped h hbase htidy
  have hfilled := Filled.registered hts hi side
  have hbase₂ : Grows Nothing Nothing base (h₁.registerAll side i (ts.map BuiltGroup.group)) :=
    hbase.trans hfilled.below.grows (fun _ _ hno => hno) fun j hj hji => hi.new (hji ▸ hj)
  obtain ⟨ps, h₃, ws, hrun, hps⟩ := makePrimary_accounted side i hlone hbase₂ hfilled.below.tidy
  have hi₂ := hi.later hfilled.below.grows hfilled.below.settles
  obtain ⟨hsettles, hnested⟩ := settles_setPrimary (i := i) side hps
  have hgrows₃ : Grows Nothing (· = i) _ (h₃.setPrimary side i ps) :=
    (hps.grows.mono (fun _ _ hno => hno) fun _ _ hno => hno.elim).setPrimary
      (fun r hr => hps.adds.new _ (List.mem_append_left ws (List.mem_map_of_mem hr))) fun _ => rfl
  have hall := hfilled.append
    (hps.filled hi₂ hsettles hgrows₃ (hps.tidy.setPrimary hi.new) hnested) hi₂.inHeap
  -- only now the groups of the slot are linked, and those without a super type are reported
  have hi₃ := hi.later hall.below.grows hall.below.settles
  have hname : ((h₃.setPrimary side i ps).item i).name = (h.item i).name :=
    (hall.below.settles.item i hi.inHeap).1
  have hlinks := Restoring.Emits.linkSupers s (hall.climbs hi₃)
  rw [hall.reports, hname] at hlinks
  refine ⟨_, _, ?_, hall.linked hbase hi₃ s.hierarchy⟩
  unfold Restoring.makeSlot
  rw [Restoring.makeTyped_eq, List.map_append, reports_under, List.flatMap_append, List.map_append,
    List.append_assoc]
  exact hruns.bind ((Restoring.Emits.edit _ h₁).bind (hrun.bind hlinks))

/-! ### Items -/

theorem makeItem_accounted {item : NestedDescription}
    (hitem : ∀ side, ∀ d ∈ item.groups side, Accounts s d)
    (hbase : Grows Nothing Nothing base h) (htidy : Tidy base h) (hi : Awaits base h i) :
    ∃ h' zs, (Restoring.makeItem s i item).Emits h ⟨⟩ h'
      (item.orphans.map fun o => (o.under (h.item i).name).diagnostic) ∧
      AccountedBelow base h h' i item.orphans zs := by
  have htyped : ∀ side, ∀ d ∈ item.typed side, Accounts s d := fun side d hd =>
    hitem side d (List.mem_append_left _ hd)
  have hlone : ∀ side, ∀ d ∈ item.lone side, Accounts s d := fun side d hd =>
    hitem side d (List.mem_append_right _ (Option.mem_toList.2 hd))
  obtain ⟨h₁, zs, hvalue, hfirst⟩ := makeSlot_accounted .value (htyped .value)
    (hlone .value) hbase htidy hi
  have hbase₁ : Grows Nothing Nothing base h₁ :=
    hbase.trans hfirst.grows (fun _ _ hno => hno) fun j hj hji => hi.new (hji ▸ hj)
  have hi₁ := hi.later hfirst.grows hfirst.settles
  obtain ⟨h₂, ws, hkey, hsecond⟩ := makeSlot_accounted .key (htyped .key) (hlone .key)
    hbase₁ hfirst.tidy hi₁
  rw [(hfirst.settles.item i hi.inHeap).1] at hkey
  refine ⟨h₂, zs ++ ws, ?_, ?_⟩
  · rw [Restoring.makeItem_eq, item.orphans_eq, List.map_append]
    exact hvalue.bind hkey
  · rw [item.orphans_eq]
    exact hfirst.append hsecond hi₁.inHeap

/-- The items of a group have been built: the group is nested nowhere yet, and the orphans hang
below it. -/
structure AccountedItems (base a b : Heap) (y : GroupId) (os : List Orphan) (zs : List GroupId) :
    Prop where
  grows : Grows (· = y) Nothing a b
  tidy : Tidy base b
  settles : Settles a b
  adds : Adds a b zs
  loose : (b.group y).nestedIn = none
  located : List.Forall₂ (b.Located y) os zs

theorem settles_ensureItem (h : Heap) (y : GroupId) (n : String) :
    Settles h (h.ensureItem y n).2 := by
  cases hn : (h.group y).items.find? n with
  | some i =>
    unfold Heap.ensureItem
    rw [hn]
    exact .refl h
  | none =>
    rw [ensureItem_of_none hn]
    refine (Settles.grows (Grows.allocItem (.refl h) _)).alterGroup y ?_ ?_ fun j hj => hj
    all_goals exact fun _ => rfl

/-- The items that are built later leave those in front of them alone. -/
theorem AccountedItems.append (hab : AccountedItems base a b y os zs)
    (hbc : AccountedItems base b c y os' ws) :
    AccountedItems base a c y (os ++ os') (zs ++ ws) where
  grows := hab.grows.trans hbc.grows (fun _ _ hgy => hgy) fun _ _ hno => hno
  tidy := hbc.tidy
  settles := hab.settles.trans hbc.settles
  adds := hab.adds.append hbc.adds (fun _ hg => hg) hab.grows.hasGroup hbc.grows.hasGroup
  loose := hbc.loose
  located := List.rel_append (hab.located.imp fun _ _ hz => hbc.settles.located hz) hbc.located

/-- A group gets a new item, and what is nested in it is built. -/
theorem makeField_accounted {n : String} {item : NestedDescription} (hfresh : ¬ base.HasGroup y)
    (hitem : ∀ side, ∀ d ∈ item.groups side, Accounts s d) (hbase : Grows Nothing Nothing base h)
    (htidy : Tidy base h) (hy : h.HasGroup y) (htop : (h.group y).nestedIn = none)
    (hn : n ∉ (h.group y).items.keys) :
    ∃ h' zs, (Restoring.makeItem s (h.ensureItem y n).1 item).Emits (h.ensureItem y n).2 ⟨⟩ h'
      ((item.orphans.map (.under n)).map Orphan.diagnostic) ∧
      AccountedItems base h h' y (item.orphans.map (.under n)) zs ∧
      (h'.group y).items.keys = (h.group y).items.keys ++ [n] := by
  obtain ⟨hnotIn, hitem₁, hin₁, hgroup₁⟩ :=
    ensureItem_of_new hy (OrderedMap.find?_eq_none_iff.2 hn)
  have hgrows₁ := Grows.ensureItem h y n
  have htidy₁ := htidy.ensureItem y n
  have hsettles₁ := settles_ensureItem h y n
  have hsame₁ : ∀ x, (h.ensureItem y n).2.HasGroup x ↔ h.HasGroup x := fun x => hasGroup_ensureItem
  generalize (h.ensureItem y n).1 = i at *
  generalize (h.ensureItem y n).2 = h₁ at *
  have hbase₁ : Grows Nothing Nothing base h₁ :=
    hbase.trans hgrows₁ (fun g hg hgy => hfresh (hgy ▸ hg)) fun _ _ hno => hno
  have hin : h₁.HasGroup y := (hsame₁ y).2 hy
  have hawaits : Awaits base h₁ i := by
    refine ⟨hin₁, fun hin => hnotIn (hbase.hasItem i hin), ?_, ?_⟩
    · rwa [hitem₁]
    · rw [hitem₁, hgroup₁]
      exact htop
  obtain ⟨h₂, zs, hrun, hbelow⟩ := makeItem_accounted hitem hbase₁ htidy₁ hawaits
  obtain ⟨hname₂, howner₂⟩ := hbelow.settles.item i hin₁
  rw [hitem₁] at hname₂ howner₂ hrun
  have hgroup₂ : h₂.group y = h₁.group y := hbelow.grows.group y hin fun hno => hno
  refine ⟨h₂, zs, ?_, ⟨?_, hbelow.tidy, hsettles₁.trans hbelow.settles, ?_, ?_, ?_⟩, ?_⟩
  · rw [List.map_map]
    exact hrun
  · exact hgrows₁.trans hbelow.grows (fun _ _ hno => hno.elim) fun j hj hji => hnotIn (hji ▸ hj)
  · exact ⟨fun z hz hin => hbelow.adds.new z hz ((hsame₁ z).2 hin), hbelow.adds.inHeap,
      hbelow.adds.nodup⟩
  · rw [hgroup₂, hgroup₁]
    exact htop
  · have hlocated := hbelow.located
    rw [hname₂, howner₂] at hlocated
    exact List.forall₂_map_left_iff.2 hlocated
  · rw [hgroup₂, hgroup₁]
    show ((h.group y).items.insert n i).keys = _
    rw [OrderedMap.keys_insert, if_neg hn]

theorem makeItems_accounted (hfresh : ¬ base.HasGroup y) :
    ∀ (fields : List (String × NestedDescription)) (h : Heap),
      (∀ e ∈ fields, ∀ side, ∀ d ∈ e.2.groups side, Accounts s d) →
      Grows Nothing Nothing base h → Tidy base h → h.HasGroup y → (h.group y).nestedIn = none →
      (fields.map Prod.fst).Nodup → (∀ e ∈ fields, e.1 ∉ (h.group y).items.keys) →
      ∃ h' zs, (Restoring.makeItems s y fields).Emits h ⟨⟩ h'
        ((itemsOrphans fields).map Orphan.diagnostic) ∧
        AccountedItems base h h' y (itemsOrphans fields) zs := by
  intro fields
  induction fields with
  | nil =>
    intro h _ _ htidy _ htop _ _
    exact ⟨h, [], .pure _ h, .refl h, htidy, .refl h, .nil h h, htop, .nil⟩
  | cons e fields ih =>
    intro h hgroups hbase htidy hy htop hnames hnew
    obtain ⟨n, item⟩ := e
    rw [List.forall_mem_cons] at hgroups hnew
    rw [List.map_cons, List.nodup_cons] at hnames
    obtain ⟨h₁, zs, hrun, hfirst, hkeys⟩ :=
      makeField_accounted hfresh hgroups.1 hbase htidy hy htop hnew.1
    have hbase₁ : Grows Nothing Nothing base h₁ :=
      hbase.trans hfirst.grows (fun g hg hgy => hfresh (hgy ▸ hg)) fun _ _ hno => hno
    obtain ⟨h₂, ws, hruns, hrest⟩ := ih h₁ hgroups.2 hbase₁ hfirst.tidy
      (hfirst.grows.hasGroup y hy) hfirst.loose hnames.2 fun a ha => by
        rw [hkeys, List.mem_append, List.mem_singleton, not_or]
        exact ⟨hnew.2 a ha, fun han => hnames.1 (List.mem_map.2 ⟨a, ha, han⟩)⟩
    refine ⟨h₂, zs ++ ws, ?_, hfirst.append hrest⟩
    rw [itemsOrphans, List.map_append]
    exact (Restoring.Emits.build _ h).bind (hrun.bind hruns)

/-- **The orphans inside a description are reported, and they hang below the group that is
built.** -/
theorem accounts_of_parsed (s : RestorationScope) {d : Description}
    (hd : d.Everywhere Description.Parsed) : Accounts s d := by
  induction hd with
  | @intro d hparsed _ ih =>
    intro base h hbase htidy
    have hstart := Restoring.Emits.build (fun h => h.startGroup s d) h
    have hgroup₁ := group_startGroup h s d
    have hin₁ : (h.startGroup s d).2.HasGroup (h.startGroup s d).1 :=
      hasGroup_allocGroup.2 (.inr rfl)
    have hnew : ¬ h.HasGroup (h.startGroup s d).1 := Nat.lt_irrefl _
    have hgrows₁ : Grows Nothing Nothing h (h.startGroup s d).2 := (Grows.refl h).allocGroup _ _
    have htidy₁ : Tidy base (h.startGroup s d).2 := htidy.allocGroup rfl _
    generalize (h.startGroup s d).1 = y at *
    generalize (h.startGroup s d).2 = h₁ at *
    have hbase₁ : Grows Nothing Nothing base h₁ :=
      hbase.trans hgrows₁ (fun _ _ hno => hno) fun _ _ hno => hno
    have hfresh : ¬ base.HasGroup y := fun hin => hnew (hbase.hasGroup y hin)
    obtain ⟨h₂, zs, hrun, hitems⟩ := makeItems_accounted hfresh d.fields h₁ ih hbase₁ htidy₁ hin₁
      (by rw [hgroup₁]) hparsed.names (by rw [hgroup₁]; exact fun _ _ => List.not_mem_nil)
    have horphans : d.orphans = itemsOrphans d.fields := by rw [d.orphans_eq, itemsOrphans_eq]
    refine ⟨y, h₂, zs, ?_, ?_, hitems.tidy, ?_, ?_, ?_, hitems.loose, ?_⟩
    · rw [makeGroup_eq, horphans, ← List.append_nil (List.map _ _)]
      exact hstart.bind (hrun.bind (.pure y h₂))
    · exact hgrows₁.trans hitems.grows (fun g hg hgy => hnew (hgy ▸ hg)) fun _ _ hno => hno
    · have hfirst : Adds h h₁ [y] :=
        ⟨List.forall_mem_singleton.2 hnew, List.forall_mem_singleton.2 hin₁, List.nodup_singleton y⟩
      exact hfirst.append hitems.adds (fun _ hg => hg) hgrows₁.hasGroup hitems.grows.hasGroup
    · rw [hitems.settles.name y hin₁, hgroup₁]
    · rw [hitems.settles.typeName y hin₁, hgroup₁]
    · rw [horphans]
      exact hitems.located

end Heap

/-! ### Restorations -/

/-- The last of several names is no longer than the dotted text of all. -/
theorem Path.length_last_le (n : String) (q : List String) :
    ((n :: q).getLast?.getD "").length ≤ (Path.format (n :: q)).length := by
  induction q generalizing n with
  | nil => rw [Path.format, String.intercalate_singleton, List.getLast?_singleton, Option.getD_some]
  | cons m q ih =>
    have hmq := ih m
    unfold Path.format at hmq ⊢
    rw [List.getLast?_cons_cons, String.intercalate_cons_cons, String.length_append]
    omega

/-- It is this text only if it is the only name. -/
theorem Path.last_eq_format_iff {names : List String} (hne : names ≠ []) :
    names.getLast?.getD "" = Path.format names ↔ names.length = 1 := by
  cases names with
  | nil => exact absurd rfl hne
  | cons n q =>
    cases q with
    | nil => exact iff_of_true String.intercalate_singleton.symm rfl
    | cons m q =>
      -- otherwise a name and a dot stand in front of it
      refine iff_of_false (fun heq => ?_) (by rw [List.length_cons, List.length_cons]; omega)
      have hlength := congrArg String.length heq
      have hmq := Path.length_last_le m q
      have hdot : ".".length = 1 := rfl
      unfold Path.format at hlength hmq
      rw [List.getLast?_cons_cons, String.intercalate_cons_cons, String.length_append,
        String.length_append] at hlength
      omega

namespace Heap

variable {h : Heap} {d : Description} {input v : Value} {options : RawOptions}
  {resolver : Option Resolver} {y : GroupId}

theorem Retyped.climbs {a b : Heap} {g x : GroupId} {q : List String} (hab : Retyped a b)
    (hq : a.Climbs g q x) : b.Climbs g q x :=
  hq.congr (fun x hx => (hab.hasGroup x).2 hx) hab.nestedIn hab.itemName hab.owner

/-- The diagnostics of a restoration are those of building. -/
theorem diagnostics_restore {o : Options} {F : Heap} {ds : List Diagnostic}
    (ho : options.resolve = .ok o) (hread : Description.read input = .ok (v, d))
    (hrun : h.restoreDescription d o.hierarchy = (y, ⟨F, ds⟩))
    (hanswer : (h.restore input options resolver).answer = .ok y) :
    (h.restore input options resolver).diagnostics = ds := by
  obtain ⟨o', v', d', ho', hresolver, hread', hsuper⟩ := exists_read_of_restore hanswer
  obtain rfl := Except.ok.inj (ho.symm.trans ho')
  obtain ⟨rfl, rfl⟩ := Prod.mk.inj (Except.ok.inj (hread.symm.trans hread'))
  cases hresolve : o.restore.resolvesNames with
  | false => rw [restore_deferred ho hread hsuper hrun hresolve]
  | true =>
    obtain ⟨resolver, rfl⟩ := Option.isSome_iff_exists.1 (hresolver hresolve)
    rw [restore_resolved ho hread hsuper hrun hresolve]

/-- **A description that has been read is built, and the orphans inside are reported.** -/
theorem exists_accounted (hd : d.Everywhere Description.Parsed) (h : Heap) (hierarchy : Hierarchy) :
    ∃ y F zs, h.restoreDescription d hierarchy = (y, ⟨F, d.orphans.map Orphan.diagnostic⟩) ∧
      Accounted h h.allocCopyRegistry.2 F y d zs := by
  have hgrows : Grows Nothing Nothing h h.allocCopyRegistry.2 := { Grows.refl h with }
  have htidy : Tidy h h.allocCopyRegistry.2 := { Tidy.refl h with }
  obtain ⟨y, F, zs, hrun, haccounted⟩ :=
    accounts_of_parsed ⟨hierarchy, h.allocCopyRegistry.1⟩ hd h _ hgrows htidy
  exact ⟨y, F, zs, hrun [], haccounted⟩

/-- **One diagnostic for each orphan, and its path is that of the orphan only directly below the
root.** -/
theorem orphans_reported (h : Heap) (hinput : input.Regular)
    (hread : Description.read input = .ok (v, d))
    (hanswer : (h.restore input options resolver).answer = .ok y) :
    let restored := h.restore input options resolver
    restored.diagnostics = d.orphans.map Orphan.diagnostic ∧
    ∃ zs, zs.Nodup ∧ List.Forall₂ (fun o z => ¬ h.HasGroup z ∧
      (restored.heap.group z).name = o.name ∧ restored.heap.Climbs y o.names z ∧
      restored.heap.pathTo z = Path.format o.names ∧
      (o.diagnostic.path = restored.heap.pathTo z ↔ o.names.length = 1)) d.orphans zs := by
  intro restored
  obtain ⟨options', F, ds, ho, hrun, hretyped⟩ := exists_of_restore hread hanswer
  obtain ⟨-, hparsed⟩ := Description.sameGroup_of_read hinput hread
  obtain ⟨y', F', zs, hrun', haccounted⟩ := exists_accounted hparsed h options'.hierarchy
  obtain ⟨rfl, heq⟩ := Prod.mk.inj (hrun.symm.trans hrun')
  obtain ⟨rfl, rfl⟩ := Restoration.mk.inj heq
  have hy : F.HasGroup y := haccounted.adds.inHeap y List.mem_cons_self
  refine ⟨diagnostics_restore ho hread hrun hanswer, zs, haccounted.adds.nodup.of_cons, ?_⟩
  refine (forall₂_mem haccounted.located).imp ?_
  rintro o z ⟨ho, hz, hlocated⟩
  have hup : restored.heap.Climbs y o.names z :=
    hretyped.climbs (hlocated.hangs.climbs hy haccounted.loose)
  refine ⟨haccounted.adds.new z (List.mem_cons_of_mem y hz),
    (hretyped.name z).trans hlocated.name, hup, hup.pathTo_eq, ?_⟩
  rw [hup.pathTo_eq]
  exact Path.last_eq_format_iff (Description.names_ne_nil ho)

/-- A catalog of shelves, with books below a shelf, and with cases. -/
def catalog : Value :=
  .object [
    ("name", .text "catalog"),
    ("attributes", .object [
      ("shelf", .object [
        ("group", .object [
          ("name", .text "shelf"),
          ("attributes", .object [
            ("book", .object [
              ("typeGroups", .array [
                .object [("name", .text "novel"), ("typeName", .text "Novel"),
                  ("superTypeName", .text "Book")]])])])]),
        ("typeGroups", .array [
          .object [("name", .text "case"), ("typeName", .text "Case"),
            ("superTypeName", .text "Rack")]])])])]

/-- What the catalog is read as. -/
def catalogDescription : Description :=
  { name := "catalog"
    attributes := some [("shelf",
      { group := some
          { name := "shelf"
            attributes := some [("book",
              { typeGroups := some [
                  { name := "novel", typeName := some "Novel", superTypeName := some "Book" }] })] }
        typeGroups := some
          [{ name := "case", typeName := some "Case", superTypeName := some "Rack" }] })] }

theorem regular_catalog : catalog.Regular := by decide +kernel

/-- Neither books nor racks are in the catalog.  The cases are reported where they are, but the
novels are not. -/
theorem orphans_reported_catalog :
    let restored := Heap.empty.restore catalog {} none
    restored.answer = .ok ⟨0⟩ ∧
    catalogDescription.orphans =
      [⟨["shelf", "book"], "novel", "Book"⟩, ⟨["shelf"], "case", "Rack"⟩] ∧
    restored.diagnostics = catalogDescription.orphans.map Orphan.diagnostic ∧
    ∃ novel case, (restored.heap.group novel).name = "novel" ∧
      restored.heap.pathTo novel = Path.format ["shelf", "book"] ∧
      (restored.heap.group case).name = "case" ∧
      restored.heap.pathTo case = Path.format ["shelf"] := by
  intro restored
  have hanswer : restored.answer = .ok ⟨0⟩ := answer_of_toOption (by decide +kernel)
  obtain ⟨hdiagnostics, zs, -, hzs⟩ :=
    orphans_reported (d := catalogDescription) .empty regular_catalog rfl hanswer
  refine ⟨hanswer, rfl, hdiagnostics, ?_⟩
  obtain ⟨novel, zs, ⟨-, hnovel, -, hbook, -⟩, hzs, -⟩ := List.forall₂_cons_left_iff.1 hzs
  obtain ⟨case, zs, ⟨-, hcase, -, hshelf, -⟩, -, -⟩ := List.forall₂_cons_left_iff.1 hzs
  exact ⟨novel, case, hnovel, hbook, hcase, hshelf⟩

/-- **No group of the restored catalog has the path that is reported for the novels.** -/
theorem orphan_misplaced :
    let restored := Heap.empty.restore catalog {} none
    restored.answer = .ok ⟨0⟩ ∧
    restored.diagnostics.map (fun d => (d.code, d.path)) =
      [(.superTypeUnresolved, "book"), (.superTypeUnresolved, "shelf")] ∧
    ∀ g, restored.heap.HasGroup g → restored.heap.pathTo g ≠ "book" := by
  refine ⟨answer_of_toOption (by decide +kernel), by decide +kernel, fun g hg => ?_⟩
  have hpaths : ∀ g ∈ (Heap.empty.restore catalog {} none).heap.groupIds,
      (Heap.empty.restore catalog {} none).heap.pathTo g ≠ "book" := by decide +kernel
  exact hpaths g (mem_groupIds.2 hg)

end Heap

end AttributeGraph
