/-
Groups that are registered before their types are known.

A group may be registered in an item by the name of its type and get the type when the
names are resolved.  Until then a slot takes the type and its name for two types.
Resolving then files the groups under their types, in the right order; but of the
groups that come to share a type the one stays whose tag came up last, which need not
be the one registered last, and the primary group is not looked at again.

So the slot is not always the one that comes about when the types are set first
(`resolving_differs`).  `resolveItemNames_registered` says when it is: the map of the
groups per type is the same if for each type the last registration was made under the
tag that came up last, and the primary group is the same if the last group for the type
of the first one was registered under the tag of the first one.
-/
import AttributeGraph.Proofs.Resolving
import AttributeGraph.Proofs.SlotHistory

namespace AttributeGraph

namespace Slot

/-! ### Tags for one type -/

/-- The tags under which the groups for a type are registered, in order. -/
def tagsFor (tagOf : GroupId → Option TypeTag) (typeOf : GroupId → ObjectType)
    (gs : List GroupId) (t : ObjectType) : List TypeTag :=
  (gs.filter fun g => typeOf g = t).filterMap tagOf

variable {tagOf raw live : GroupId → Option TypeTag} {key : GroupId → TypeTag}
  {typeOf : GroupId → ObjectType} {f : TypeTag → TypeTag} {gs rest : List GroupId}
  {first : GroupId} {k l : TypeTag} {m : OrderedMap TypeTag GroupId}

/-- If groups with one tag have another one later, the last one with the first tag is the last one
with the second tag just if that has the first one. -/
theorem lastWith_eq_iff (hfiner : ∀ g ∈ gs, raw g = some l → live g = some k)
    (hsome : ∃ g ∈ gs, raw g = some l) :
    lastWith raw gs l = lastWith live gs k ↔ (lastWith live gs k).bind raw = some l := by
  constructor
  · intro heq
    have hin : (lastWith raw gs l).isSome = true := by
      obtain ⟨g, hg, hl⟩ := hsome
      rw [lastWith, List.find?_isSome]
      exact ⟨g, List.mem_reverse.2 hg, decide_eq_true hl⟩
    obtain ⟨p, hp⟩ := Option.isSome_iff_exists.1 hin
    rw [← heq, hp]
    exact tag_of_lastWith hp
  · intro hbind
    obtain ⟨p, hp, hl⟩ := Option.bind_eq_some_iff.1 hbind
    rw [hp]
    rw [lastWith, List.find?_eq_some_iff_append] at hp ⊢
    obtain ⟨-, later, earlier, heq, hlater⟩ := hp
    refine ⟨decide_eq_true hl, later, earlier, heq, ?_⟩
    intro g hg
    have hgs : g ∈ gs := by
      rw [← List.mem_reverse, heq]
      exact List.mem_append_left _ hg
    have hno : live g ≠ some k := by simpa using hlater g hg
    simpa using mt (hfiner g hgs) hno

/-! ### What is registered in a new slot -/

theorem byType_foldl_register (htags : ∀ g ∈ gs, tagOf g = some (key g)) :
    ∀ {s : Slot}, s.byType = some m → (gs.foldl (register tagOf) s).byType =
      some ((gs.map fun g => (key g, g)).foldl (fun m e => m.insert e.1 e.2) m) := by
  induction gs generalizing m with
  | nil =>
    intro s hs
    exact hs
  | cons g gs ih =>
    intro s hs
    obtain ⟨hg, hgs⟩ := List.forall_mem_cons.1 htags
    refine ih hgs ?_
    rw [byType_register hg, hs]
    rfl

/-- Groups with tags are filed in order. -/
theorem byType_registered (htags : ∀ g ∈ first :: rest, tagOf g = some (key g)) :
    ((first :: rest).foldl (register tagOf) {}).byType =
      some (.ofList ((first :: rest).map fun g => (key g, g))) := by
  obtain ⟨hfirst, hrest⟩ := List.forall_mem_cons.1 htags
  exact byType_foldl_register hrest (byType_register hfirst)

/-- The last group with a tag is found. -/
theorem find?_registered (tagOf : GroupId → Option TypeTag) (gs : List GroupId) (k : TypeTag) :
    (gs.foldl (register tagOf) {}).find? k = lastWith tagOf gs k :=
  ((Recalls.nil tagOf).registerAll gs).filed k

theorem mem_of_typed_registered {g : GroupId} (hg : g ∈ (gs.foldl (register tagOf) {}).typed) :
    g ∈ gs := by
  obtain ⟨k, hk⟩ := mem_typed_iff.1 hg
  rw [find?_registered] at hk
  exact List.mem_reverse.1 (List.mem_of_find?_eq_some hk)

/-- Of groups with tags the last one with the tag of the first one is the primary group. -/
theorem primary_registered (htags : ∀ g ∈ first :: rest, tagOf g = some (key g)) :
    ((first :: rest).foldl (register tagOf) {}).primary =
      lastWith tagOf (first :: rest) (key first) := by
  obtain ⟨hfirst, hrest⟩ := List.forall_mem_cons.1 htags
  refine ((Recalls.nil tagOf).registerAll (first :: rest)).typed [] first rest _ rfl ?_ hfirst ?_
  · intro u hu
    cases hu
  · intro g hg
    rw [hrest g hg]
    exact Option.some_ne_none _

/-- A slot in which no group has been filed under a tag: it has no primary group, or one without a
tag. -/
structure Unfiled (tagOf : GroupId → Option TypeTag) (s : Slot) : Prop where
  byType : s.byType = none
  primary : ∀ p, s.primary = some p → tagOf p = none

namespace Unfiled

variable {s : Slot} (hs : s.Unfiled tagOf)

include hs

/-- Groups with tags are registered in such a slot as in a new one. -/
theorem foldl_register (htags : ∀ g ∈ first :: rest, tagOf g = some (key g)) :
    (first :: rest).foldl (register tagOf) s = (first :: rest).foldl (register tagOf) {} := by
  have hone : s.register tagOf first = ({} : Slot).register tagOf first := by
    rw [register, register, htags first List.mem_cons_self, hs.byType]
    cases hp : s.primary with
    | none => rfl
    | some p => simp [hs.primary p hp]
  rw [List.foldl_cons, List.foldl_cons, hone]

theorem mem_of_typed (htags : ∀ g ∈ gs, tagOf g = some (key g)) {g : GroupId}
    (hg : g ∈ (gs.foldl (register tagOf) s).typed) : g ∈ gs := by
  cases gs with
  | nil => simp [typed, hs.byType] at hg
  | cons first rest =>
    rw [hs.foldl_register htags] at hg
    exact mem_of_typed_registered hg

end Unfiled

/-! ### Tags that change after registering -/

section Late

variable (hraw : ∀ g ∈ gs, raw g = some (key g)) (hlive : ∀ g ∈ gs, live g = some (f (key g)))

include hraw hlive

/-- The groups of a slot are filed under their new tags. -/
theorem byType_retag_registered : ((gs.foldl (register raw) {}).retag live).byType =
    (gs.foldl (register raw) {}).byType.map fun m =>
      .ofList (m.entries.map fun e => (f e.1, e.2)) := by
  cases gs with
  | nil => rfl
  | cons first rest =>
    rw [retag, byType_registered hraw, Option.map_some, Option.map_some]
    have hentries : ∀ e ∈ (OrderedMap.ofList ((first :: rest).map fun g => (key g, g))).entries,
        ((live e.2).getD e.1, e.2) = (f e.1, e.2) := by
      intro e he
      have hmem := OrderedMap.mem_of_find?_ofList (OrderedMap.find?_eq_some_iff.2 he)
      obtain ⟨g, hg, heq⟩ := List.mem_map.1 hmem
      obtain ⟨hkey, hgroup⟩ := Prod.mk.inj heq
      rw [← hgroup, ← hkey, hlive g hg]
      rfl
    rw [List.map_congr_left hentries]

/-- The types are in the order in which they would be filed. -/
theorem keys_retag_registered :
    ((gs.foldl (register raw) {}).retag live).byType.map OrderedMap.keys =
      (gs.foldl (register live) {}).byType.map OrderedMap.keys := by
  rw [byType_retag_registered hraw hlive]
  cases gs with
  | nil => rfl
  | cons first rest =>
    have hmap : ((first :: rest).map fun g => (f (key g), g)) =
        ((first :: rest).map fun g => (key g, g)).map fun e => (f e.1, e.2) := by
      rw [List.map_map]
      rfl
    rw [byType_registered hraw, byType_registered hlive, hmap, Option.map_some, Option.map_some,
      Option.map_some, OrderedMap.keys_ofList_rename]

/-- Under a type the last group stays with the tag that came up last. -/
theorem find?_retag_registered (k : TypeTag) :
    ((gs.foldl (register raw) {}).retag live).find? k =
      ((gs.map key).filter fun l => f l = k).eraseDups.getLast?.bind (lastWith raw gs) := by
  rw [find?, byType_retag_registered hraw hlive]
  cases gs with
  | nil => rfl
  | cons first rest =>
    have hfound : ∀ l, (OrderedMap.ofList ((first :: rest).map fun g => (key g, g))).find? l =
        lastWith raw (first :: rest) l := by
      intro l
      rw [← find?_registered, find?, byType_registered hraw, Option.bind_some]
    rw [byType_registered hraw, Option.map_some, Option.bind_some, OrderedMap.find?_ofList_rename,
      List.map_map]
    simp only [hfound]
    rfl

/-- The tag of the last group with a new tag is the last one of those that become this tag. -/
theorem getLast?_tags (k : TypeTag) : ((gs.map key).filter fun l => f l = k).getLast? =
    (lastWith live gs k).bind raw := by
  have hfind : (gs.reverse.find? fun g => f (key g) = k) = lastWith live gs k := by
    refine find?_congr ?_
    intro g hg
    simp [hlive g (List.mem_reverse.1 hg)]
  rw [List.filter_map, List.getLast?_map, List.getLast?_filter]
  show (gs.reverse.find? fun g => f (key g) = k).map key = _
  rw [hfind]
  cases hlast : lastWith live gs k with
  | none => rfl
  | some g =>
    have hg : g ∈ gs := List.mem_reverse.1 (List.mem_of_find?_eq_some hlast)
    exact (hraw g hg).symm

/-- Tags that change afterwards make no difference for a type just if the last group for it had the
tag that came up last. -/
theorem find?_retag_registered_iff (k : TypeTag) :
    ((gs.foldl (register raw) {}).retag live).find? k = (gs.foldl (register live) {}).find? k ↔
      ((gs.map key).filter fun l => f l = k).eraseDups.getLast? =
        ((gs.map key).filter fun l => f l = k).getLast? := by
  rw [find?_retag_registered hraw hlive, find?_registered, getLast?_tags hraw hlive]
  cases hnew : ((gs.map key).filter fun l => f l = k).eraseDups.getLast? with
  | none =>
    have hnil : (gs.map key).filter (fun l => f l = k) = [] := by
      rw [List.getLast?_eq_none_iff] at hnew
      rw [List.eq_nil_iff_forall_not_mem]
      intro l hl
      rw [← List.mem_eraseDups, hnew] at hl
      exact List.not_mem_nil hl
    have hnone : (lastWith live gs k).bind raw = none := by
      rw [← getLast?_tags hraw hlive, hnil]
      rfl
    cases hlast : lastWith live gs k with
    | none => simp
    | some g =>
      have hg : g ∈ gs := List.mem_reverse.1 (List.mem_of_find?_eq_some hlast)
      rw [hlast, Option.bind_some, hraw g hg] at hnone
      cases hnone
  | some l =>
    have hmem := List.mem_of_getLast? hnew
    rw [List.mem_eraseDups, List.mem_filter, decide_eq_true_eq, List.mem_map] at hmem
    obtain ⟨⟨g, hg, hl⟩, hfl⟩ := hmem
    rw [Option.bind_some, eq_comm (a := some l)]
    refine lastWith_eq_iff ?_ ⟨g, hg, (hraw g hg).trans (congrArg some hl)⟩
    intro x hx hxl
    rw [hraw x hx] at hxl
    rw [hlive x hx, Option.some.inj hxl, hfl]

/-- They make no difference for the primary group just if the last group for the type of the first
one had the tag of the first one. -/
theorem primary_retag_registered_iff :
    ((gs.foldl (register raw) {}).retag live).primary = (gs.foldl (register live) {}).primary ↔
      ∀ g ∈ gs.head?, ((gs.map key).filter fun l => f l = f (key g)).getLast? = raw g := by
  cases gs with
  | nil => simp [retag]
  | cons first rest =>
    have hfirst : first ∈ first :: rest := List.mem_cons_self
    have hfiner : ∀ g ∈ first :: rest, raw g = some (key first) →
        live g = some (f (key first)) := by
      intro g hg hl
      rw [hraw g hg] at hl
      rw [hlive g hg, Option.some.inj hl]
    have hlate : (((first :: rest).foldl (register raw) {}).retag live).primary =
        lastWith raw (first :: rest) (key first) := primary_registered hraw
    have hearly : ((first :: rest).foldl (register live) {}).primary =
        lastWith live (first :: rest) (f (key first)) := primary_registered hlive
    rw [hlate, hearly, lastWith_eq_iff hfiner ⟨first, hfirst, hraw first hfirst⟩,
      ← getLast?_tags hraw hlive]
    simp only [List.head?_cons, Option.mem_def, Option.some.injEq, forall_eq', hraw first hfirst]

/-- The groups per type are the same just if they are the same for each type. -/
theorem byType_retag_registered_iff :
    ((gs.foldl (register raw) {}).retag live).byType = (gs.foldl (register live) {}).byType ↔
      ∀ k, ((gs.map key).filter fun l => f l = k).eraseDups.getLast? =
        ((gs.map key).filter fun l => f l = k).getLast? := by
  simp only [← find?_retag_registered_iff hraw hlive]
  have hkeys := keys_retag_registered hraw hlive
  cases gs with
  | nil => simp [retag]
  | cons first rest =>
    have hlate := byType_retag_registered hraw hlive
    rw [byType_registered hraw, Option.map_some] at hlate
    have hearly := byType_registered hlive
    simp only [find?, hlate, hearly, Option.map_some, Option.bind_some, Option.some.injEq]
      at hkeys ⊢
    exact OrderedMap.eq_iff_of_keys hkeys

end Late

/-- The tags of the groups for a type are those that become the type. -/
theorem tagsFor_eq (hraw : ∀ g ∈ gs, raw g = some (key g))
    (hkey : ∀ g ∈ gs, f (key g) = .type (typeOf g)) (t : ObjectType) :
    (gs.map key).filter (fun l => f l = .type t) = tagsFor raw typeOf gs t := by
  have htype : (gs.filter fun g => f (key g) = .type t) = gs.filter fun g => typeOf g = t := by
    refine List.filter_congr ?_
    intro g hg
    simp [hkey g hg]
  have htags : (gs.filter fun g => typeOf g = t).filterMap raw =
      (gs.filter fun g => typeOf g = t).filterMap (some ∘ key) := by
    refine List.filterMap_congr ?_
    intro g hg
    exact hraw g (List.mem_of_mem_filter hg)
  rw [List.filter_map, tagsFor, htags, List.filterMap_eq_map, ← htype]
  rfl

/-- **When it makes no difference that types are set after registering.**  The types are always in
the same order.  The groups per type are the same if the last group for each type had the tag that
came up last, and the primary group is the same if the last group for the type of the first group
had the tag of the first one. -/
theorem registered_late_iff (hraw : ∀ g ∈ gs, raw g = some (key g))
    (hlive : ∀ g ∈ gs, live g = some (.type (typeOf g)))
    (hkey : ∀ g ∈ gs, f (key g) = .type (typeOf g)) :
    let late := (gs.foldl (register raw) {}).retag live
    let early := gs.foldl (register live) {}
    late.byType.map OrderedMap.keys = early.byType.map OrderedMap.keys ∧
    (late.byType = early.byType ↔ ∀ t, (tagsFor raw typeOf gs t).eraseDups.getLast? =
      (tagsFor raw typeOf gs t).getLast?) ∧
    (late.primary = early.primary ↔ ∀ g ∈ gs.head?,
      (tagsFor raw typeOf gs (typeOf g)).getLast? = raw g) := by
  have hlive' : ∀ g ∈ gs, live g = some (f (key g)) := by
    intro g hg
    rw [hlive g hg, hkey g hg]
  refine ⟨keys_retag_registered hraw hlive', ?_, ?_⟩
  · rw [byType_retag_registered_iff hraw hlive']
    constructor
    · intro hall t
      rw [← tagsFor_eq hraw hkey]
      exact hall (.type t)
    · intro hall k
      cases k with
      | type t =>
        rw [tagsFor_eq hraw hkey]
        exact hall t
      | name n =>
        -- no tag becomes a name
        have hnil : (gs.map key).filter (fun l => f l = .name n) = [] := by
          rw [List.filter_eq_nil_iff, List.forall_mem_map]
          intro g hg
          simp [hkey g hg]
        rw [hnil]
        rfl
  · rw [primary_retag_registered_iff hraw hlive']
    have hhead : ∀ g ∈ gs.head?, (gs.map key).filter (fun l => f l = f (key g)) =
        tagsFor raw typeOf gs (typeOf g) := by
      intro g hg
      rw [hkey g (List.mem_of_head? hg), tagsFor_eq hraw hkey]
    constructor
    · intro hall g hg
      rw [← hhead g hg]
      exact hall g hg
    · intro hall g hg
      rw [hhead g hg]
      exact hall g hg

end Slot

/-- A tag once names are resolved. -/
def TypeTag.resolved (resolver : Resolver) : TypeTag → TypeTag
  | type t => type t
  | name n =>
    match resolver n with
    | .ok t => type t
    | .error _ => name n

namespace Heap

variable {h F : Heap} {resolver : Resolver} {i : ItemId} {g : GroupId} {side : Side}
  {t : ObjectType} {typeOf : GroupId → ObjectType} {gs : List GroupId}

/-! ### Resolving from an item -/

/-- A group is visited in the course of resolving the names below an item. -/
def VisitedFrom (h : Heap) (i : ItemId) (g : GroupId) : Prop :=
  ∃ z ∈ (h.item i).nested, h.Visited z g

/-- The groups that a task turns to are visited. -/
def ConcernsFrom (h : Heap) (i : ItemId) : ResolutionTask → Prop
  | .group g => h.VisitedFrom i g
  | .item j => ∀ z ∈ (h.item j).nested, h.VisitedFrom i z
  | .refile _ => True

theorem VisitedFrom.concerns (hg : h.VisitedFrom i g) {u : ResolutionTask}
    (hu : u ∈ h.resolutionTasks g) : h.ConcernsFrom i u := by
  obtain ⟨z, hz, hvisited⟩ := hg
  rcases mem_resolutionTasks.1 hu with ⟨s, hs, rfl⟩ | ⟨s, hs, rfl⟩ | ⟨j, hj, rfl⟩
  · exact ⟨z, hz, hvisited.tail (.above hs)⟩
  · exact ⟨z, hz, hvisited.tail (.below hs)⟩
  · intro y hy
    obtain ⟨side, hy⟩ := Item.mem_nested.1 hy
    exact ⟨z, hz, hvisited.tail (.nested ⟨side, hj, hy⟩)⟩

theorem ConcernsFrom.move {p p' : ResolutionPlan} {u : ResolutionTask} {new : List ResolutionTask}
    (hm : PlanMove h p u p' new) (hu : h.ConcernsFrom i u) : ∀ v ∈ new, h.ConcernsFrom i v := by
  cases hm with
  | skip hg =>
    intro v hv
    exact absurd hv List.not_mem_nil
  | visit hg =>
    intro v hv
    exact VisitedFrom.concerns hu hv
  | enter j =>
    refine List.forall_mem_append.2 ⟨?_, List.forall_mem_singleton.2 trivial⟩
    intro v hv
    obtain ⟨z, hz, rfl⟩ := List.mem_map.1 hv
    exact hu z hz
  | leave j =>
    intro v hv
    exact absurd hv List.not_mem_nil

/-- A plan in progress that has started from an item, and whose changes can be carried out. -/
structure ResolvingFrom (h : Heap) (resolver : Resolver) (i : ItemId) (p : ResolutionPlan)
    (todo : List ResolutionTask) : Prop where
  tasks : ∀ u ∈ todo, h.ConcernsFrom i u
  start : Handled h p todo (.item i)
  inOrder : InOrder h p.seen todo
  run : ∃ F, h.applyAll resolver p.changes.reverse = { heap := F, answer := .ok () } ∧
    CarriedOut h resolver (· ∈ p.seen) (.refile · ∈ p.changes) F

theorem resolvingFrom_start (h : Heap) (resolver : Resolver) (i : ItemId) :
    ResolvingFrom h resolver i {} [.item i] where
  tasks := by
    refine List.forall_mem_singleton.2 ?_
    intro z hz
    exact ⟨z, hz, .refl⟩
  start := .waiting List.mem_cons_self
  inOrder := trivial
  run := ⟨h, rfl, (CarriedOut.refl h resolver).congr (by simp) (by simp)⟩

theorem resolvingFrom_preserved
    (hresolvable : ∀ g, h.VisitedFrom i g → (h.group g).Resolvable resolver) :
    Preserved h.resolutionStep (ResolvingFrom h resolver i) := by
  intro p u rest hp
  have hm := resolutionStep_move h p u
  obtain ⟨hu, hrest⟩ := List.forall_mem_cons.1 hp.tasks
  obtain ⟨F, hrun, hF⟩ := hp.run
  refine ⟨List.forall_mem_append.2 ⟨hu.move hm, hrest⟩, hp.start.move hm, hp.inOrder.move hm,
    hF.move hm hp.inOrder ?_ hrun⟩
  intro g heq
  subst heq
  exact hresolvable g hu

/-- **Resolving the names below an item succeeds if every name that is met stands for a type**, and
the item files its groups under the tags that they get. -/
theorem resolveItemNames_carriedOut
    (hresolvable : ∀ g, h.VisitedFrom i g → (h.group g).Resolvable resolver) :
    ∃ F, h.resolveItemNames i resolver = { heap := F, answer := .ok () } ∧
      F.item i = (h.item i).retag (h.tagAfter resolver) := by
  obtain ⟨p, hp⟩ := exists_resolutionPlan h [.item i]
  have hend := (resolvingFrom_preserved hresolvable).explore _ _ _
    (resolvingFrom_start h resolver i) hp
  obtain ⟨F, hrun, hF⟩ := hend.run
  have hrefiled : .refile i ∈ p.changes := by
    cases hend.start with
    | waiting hi => exact absurd hi List.not_mem_nil
    | entered _ hrefile => exact hrefile.refiled
  refine ⟨F, ?_, hF.item i hrefiled⟩
  rw [resolveItemNames, resolutionPlan, hp]
  exact hrun

/-! ### Groups with the name of a type -/

/-- A group with the name of a type, which has the type already or none. -/
structure NamedFor (h : Heap) (resolver : Resolver) (t : ObjectType) (g : GroupId) : Prop where
  typeName : ∃ n, (h.group g).typeName = some n ∧ resolver n = .ok t
  type : (h.group g).type = none ∨ (h.group g).type = some t

namespace NamedFor

variable (hg : h.NamedFor resolver t g)

include hg

theorem hasGroup : h.HasGroup g := by
  by_contra hno
  obtain ⟨n, hn, -⟩ := hg.typeName
  rw [group_of_not_hasGroup hno] at hn
  cases hn

/-- The tag of the group becomes its type. -/
theorem exists_tag : ∃ k, h.tag? g = some k ∧ k.resolved resolver = .type t := by
  obtain ⟨n, hn, ht⟩ := hg.typeName
  rcases hg.type with hnone | hsome
  · refine ⟨.name n, ?_, ?_⟩
    · simp [tag?, Group.tag?, hnone, hn]
    · simp [TypeTag.resolved, ht]
  · exact ⟨.type t, by simp [tag?, Group.tag?, hsome], rfl⟩

theorem tagAfter_eq : h.tagAfter resolver g = some (.type t) := by
  obtain ⟨n, hn, ht⟩ := hg.typeName
  have htype : ((h.group g).resolved resolver).type = some t := by
    rw [Group.resolved_eq]
    rcases hg.type with hnone | hsome
    · simp [hnone, hn, ht, Except.toOption]
    · simp [hsome]
  rw [tagAfter, Group.tag?, htype]

theorem congr {h' : Heap} (htype : (h'.group g).type = (h.group g).type)
    (htypeName : (h'.group g).typeName = (h.group g).typeName) : h'.NamedFor resolver t g := by
  refine ⟨?_, ?_⟩
  · rw [htypeName]
    exact hg.typeName
  · rw [htype]
    exact hg.type

end NamedFor

/-- Registering groups changes what they are nested in, and nothing else about groups. -/
theorem group_registerAll_field {α : Type} (field : Group → α)
    (hf : ∀ x : Group, field { x with nestedIn := some i } = field x) (gs : List GroupId)
    (x : GroupId) : ∀ h : Heap,
    field ((h.registerAll side i gs).group x) = field (h.group x) := by
  induction gs with
  | nil =>
    intro h
    rfl
  | cons g gs ih =>
    intro h
    exact (ih (h.register side i g)).trans (group_alterGroup_field field hf g x)

/-- Give groups their types. -/
def setTypes (h : Heap) (typeOf : GroupId → ObjectType) (gs : List GroupId) : Heap :=
  gs.foldl (fun h g => h.setType g (some (typeOf g))) h

theorem item_setTypes (gs : List GroupId) : ∀ h : Heap, (h.setTypes typeOf gs).item = h.item := by
  induction gs with
  | nil =>
    intro h
    rfl
  | cons g gs ih =>
    intro h
    exact ih (h.setType g (some (typeOf g)))

theorem hasItem_setTypes (gs : List GroupId) : ∀ h : Heap,
    (h.setTypes typeOf gs).HasItem i ↔ h.HasItem i := by
  induction gs with
  | nil =>
    intro h
    exact Iff.rfl
  | cons g gs ih =>
    intro h
    exact (ih (h.setType g (some (typeOf g)))).trans hasItem_alterGroup

theorem type_setTypes (typeOf : GroupId → ObjectType) (gs : List GroupId) : ∀ {h : Heap},
    h.HasGroup g → g ∈ gs ∨ (h.group g).type = some (typeOf g) →
    ((h.setTypes typeOf gs).group g).type = some (typeOf g) := by
  induction gs with
  | nil =>
    intro h _ hg
    exact hg.resolve_left List.not_mem_nil
  | cons x gs ih =>
    intro h hin hg
    refine ih (h := h.setType x (some (typeOf x))) (hasGroup_alterGroup.2 hin) ?_
    by_cases hgx : g = x
    · subst hgx
      refine .inr ?_
      rw [setType, group_alterGroup_self hin]
    · rw [setType, group_alterGroup_of_ne hgx]
      exact hg.imp_left fun hmem => (List.mem_cons.1 hmem).resolve_left hgx

theorem tag?_setTypes_of_not_mem {x : GroupId} : ∀ {gs : List GroupId} {h : Heap}, x ∉ gs →
    (h.setTypes typeOf gs).tag? x = h.tag? x := by
  intro gs
  induction gs with
  | nil =>
    intro h _
    rfl
  | cons g gs ih =>
    intro h hx
    rw [List.mem_cons, not_or] at hx
    refine (ih (h := h.setType g (some (typeOf g))) hx.2).trans ?_
    rw [tag?, tag?, setType, group_alterGroup_of_ne hx.1]

/-! ### Types set after registering -/

/-- **Registering groups by name and resolving the names, and setting the types first.**  Where no
group has been filed before, the first one succeeds if every name that is met stands for a type, and
then the slot has the same types in the same order.  It has the same groups per type just if for
each type the last group registered for it had the tag that came up last, and the same primary group
just if the last group registered for the type of the first one had the tag of the first one. -/
theorem resolveItemNames_registered (hi : h.HasItem i)
    (hunfiled : ((h.item i).slot side).Unfiled h.tag?)
    (hnamed : ∀ g ∈ gs, h.NamedFor resolver (typeOf g) g)
    (hresolvable : ∀ g, (h.registerAll side i gs).VisitedFrom i g →
      ((h.registerAll side i gs).group g).Resolvable resolver) :
    ∃ F, (h.registerAll side i gs).resolveItemNames i resolver = { heap := F, answer := .ok () } ∧
      let late := (F.item i).slot side
      let early := (((h.setTypes typeOf gs).registerAll side i gs).item i).slot side
      late.byType.map OrderedMap.keys = early.byType.map OrderedMap.keys ∧
      (late.byType = early.byType ↔ ∀ t, (Slot.tagsFor h.tag? typeOf gs t).eraseDups.getLast? =
        (Slot.tagsFor h.tag? typeOf gs t).getLast?) ∧
      (late.primary = early.primary ↔ ∀ g ∈ gs.head?,
        (Slot.tagsFor h.tag? typeOf gs (typeOf g)).getLast? = h.tag? g) := by
  obtain ⟨F, hrun, hitem⟩ := resolveItemNames_carriedOut hresolvable
  have hraw : ∀ g ∈ gs, h.tag? g = some ((h.tag? g).getD (.name "")) := by
    intro g hg
    obtain ⟨k, hk, -⟩ := (hnamed g hg).exists_tag
    rw [hk]
    rfl
  have hkey : ∀ g ∈ gs, ((h.tag? g).getD (.name "")).resolved resolver = .type (typeOf g) := by
    intro g hg
    obtain ⟨k, hk, hresolved⟩ := (hnamed g hg).exists_tag
    rw [hk]
    exact hresolved
  have hlive : ∀ g ∈ gs, (h.setTypes typeOf gs).tag? g = some (.type (typeOf g)) := by
    intro g hg
    have htype := type_setTypes typeOf gs (hnamed g hg).hasGroup (.inl hg)
    rw [tag?, Group.tag?, htype]
  have hearly : (((h.setTypes typeOf gs).registerAll side i gs).item i).slot side =
      gs.foldl (Slot.register (h.setTypes typeOf gs).tag?) ((h.item i).slot side) := by
    obtain ⟨-, hregistered⟩ := item_registerAll side gs ((hasItem_setTypes gs h).2 hi)
    rw [hregistered, Item.slot_mapSlot, if_pos rfl, item_setTypes]
  have hlate : (F.item i).slot side = (gs.foldl (Slot.register h.tag?)
      ((h.item i).slot side)).retag (h.setTypes typeOf gs).tag? := by
    obtain ⟨-, hregistered⟩ := item_registerAll side gs hi
    rw [hitem, Item.slot_retag, hregistered, Item.slot_mapSlot, if_pos rfl]
    refine Slot.retag_congr ?_
    intro z hz
    have hgs : z ∈ gs := hunfiled.mem_of_typed hraw hz
    have hlater : (h.registerAll side i gs).NamedFor resolver (typeOf z) z :=
      (hnamed z hgs).congr (group_registerAll_field Group.type (fun _ => rfl) gs z h)
        (group_registerAll_field Group.typeName (fun _ => rfl) gs z h)
    rw [hlater.tagAfter_eq, hlive z hgs]
  have hstill : ((h.item i).slot side).Unfiled (h.setTypes typeOf gs).tag? := by
    refine ⟨hunfiled.byType, ?_⟩
    intro p hp
    have hnone : h.tag? p = none := hunfiled.primary p hp
    rw [tag?_setTypes_of_not_mem ?_, hnone]
    intro hgs
    rw [hraw p hgs] at hnone
    cases hnone
  refine ⟨F, hrun, ?_⟩
  rw [hlate, hearly]
  cases gs with
  | nil => simp [Slot.retag, Slot.tagsFor, hunfiled.byType]
  | cons first rest =>
    rw [hunfiled.foldl_register hraw, hstill.foldl_register hlive]
    exact Slot.registered_late_iff hraw hlive hkey

/-- A resolver for which every name is that of a root type. -/
def namesakes : Resolver := fun n => .ok (.root n n)

/-- A team that is to get members: a lead and an agent for whom the name of the type is known, and a
clerk with the type. -/
def vacancies : Heap :=
  { groups := #[
      { name := "team", items := .ofList [("members", ⟨0⟩)] },
      { name := "lead", typeName := some "Person" },
      { name := "clerk", typeName := some "Person", type := some (.root "Person" "Person") },
      { name := "agent", typeName := some "Person" }]
    items := #[{ name := "members", owner := ⟨0⟩ }]
    variants := #[.generic] }

theorem namedFor_vacancies : ∀ g ∈ [⟨1⟩, ⟨2⟩, ⟨3⟩],
    vacancies.NamedFor namesakes (.root "Person" "Person") g := by
  intro g hg
  simp only [List.mem_cons, List.not_mem_nil, or_false] at hg
  rcases hg with rfl | rfl | rfl
  · exact ⟨⟨_, rfl, rfl⟩, .inl rfl⟩
  · exact ⟨⟨_, rfl, rfl⟩, .inr rfl⟩
  · exact ⟨⟨_, rfl, rfl⟩, .inl rfl⟩

/-- A lead and then a clerk: the clerk is the one filed under the type, with and without delay, but
the delay makes the lead the primary group. -/
theorem resolveItemNames_registered_vacancies :
    let gs : List GroupId := [⟨1⟩, ⟨2⟩]
    ∃ F, (vacancies.registerAll .value ⟨0⟩ gs).resolveItemNames ⟨0⟩ namesakes =
        { heap := F, answer := .ok () } ∧
      let early := (vacancies.setTypes (fun _ => .root "Person" "Person") gs).registerAll .value
        ⟨0⟩ gs
      (F.item ⟨0⟩).value.byType = (early.item ⟨0⟩).value.byType ∧
      (F.item ⟨0⟩).value.primary ≠ (early.item ⟨0⟩).value.primary := by
  intro gs
  have hnamed : ∀ g ∈ gs, vacancies.NamedFor namesakes (.root "Person" "Person") g := by
    intro g hg
    exact namedFor_vacancies g (List.mem_of_mem_dropLast hg)
  have hitem : vacancies.HasItem ⟨0⟩ := by decide
  have hunfiled : ((vacancies.item ⟨0⟩).slot .value).Unfiled vacancies.tag? := by
    refine ⟨rfl, ?_⟩
    intro p hp
    cases hp
  obtain ⟨F, hrun, -, hmap, hprimary⟩ := resolveItemNames_registered hitem hunfiled hnamed
    fun g _ _ n _ => ⟨_, rfl⟩
  refine ⟨F, hrun, hmap.2 ?_, mt hprimary.1 (by decide)⟩
  intro t
  by_cases ht : ObjectType.root "Person" "Person" = t
  · subst ht
    decide
  · have hnil : Slot.tagsFor vacancies.tag? (fun _ => .root "Person" "Person") gs t = [] := by
      simp [Slot.tagsFor, ht]
    rw [hnil]
    rfl

/-- **It does make a difference whether types are set before or after registering.**  With the lead
and the clerk it is the primary group that differs, and with the agent after them it is the group
filed under the type. -/
theorem resolving_differs :
    let person := ObjectType.root "Person" "Person"
    let late := fun gs => (vacancies.registerAll .value ⟨0⟩ gs).resolveItemNames ⟨0⟩ namesakes
    let early := fun gs => (vacancies.setTypes (fun _ => person) gs).registerAll .value ⟨0⟩ gs
    (∀ g ∈ [⟨1⟩, ⟨2⟩, ⟨3⟩], vacancies.NamedFor namesakes person g) ∧
      (late [⟨1⟩, ⟨2⟩]).answer = .ok () ∧
      ((late [⟨1⟩, ⟨2⟩]).heap.item ⟨0⟩).value.primary = some ⟨1⟩ ∧
      ((early [⟨1⟩, ⟨2⟩]).item ⟨0⟩).value.primary = some ⟨2⟩ ∧
      (late [⟨1⟩, ⟨2⟩, ⟨3⟩]).answer = .ok () ∧
      ((late [⟨1⟩, ⟨2⟩, ⟨3⟩]).heap.item ⟨0⟩).value.find? (.type person) = some ⟨2⟩ ∧
      ((early [⟨1⟩, ⟨2⟩, ⟨3⟩]).item ⟨0⟩).value.find? (.type person) = some ⟨3⟩ := by
  intro person late early
  refine ⟨namedFor_vacancies, rfl, ?_, ?_, rfl, ?_, ?_⟩
  all_goals decide

end Heap

end AttributeGraph
