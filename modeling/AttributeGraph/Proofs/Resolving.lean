/-
What resolving type names does to a heap.

The changes are worked out on the heap as it is and carried out afterwards, but
they are best followed together: at any time `Resolving` describes the heap in
which the changes noted so far have been carried out.  The groups visited so far
have their types there, all others are as they were, and an item that has been
filed anew files its groups under the tags that they have in the end
(`CarriedOut`).

Filing an item anew reads the tags of the groups nested in it, so these must
have been visited before.  `InOrder` says so of the tasks on the stack, counting
a group as visited from where it stands on the stack.  The plan follows the links
as they are, so in the end exactly the groups that these lead to have been visited.

Groups that come to share a tag are merged.  If none do, the nested groups stay as
they are (`Resolved`).
-/
import AttributeGraph.Heap.Resolution
import AttributeGraph.Proofs.Exploration
import AttributeGraph.Proofs.Growth

namespace AttributeGraph

/-! ### What becomes of one group and one slot -/

/-- A group whose type name stands for a type, if it is needed. -/
def Group.Resolvable (resolver : Resolver) (x : Group) : Prop :=
  x.type = none → ∀ n, x.typeName = some n → ∃ t, resolver n = .ok t

/-- A group with the type that its type name stands for, unless it has one. -/
def Group.resolved (resolver : Resolver) (x : Group) : Group :=
  match x.type, x.typeName with
  | none, some n =>
    match resolver n with
    | .ok t => { x with type := some t }
    | .error _ => x
  | _, _ => x

/-- A type is given where there is none and the name stands for one, and nothing else changes. -/
theorem Group.resolved_eq (resolver : Resolver) (x : Group) :
    x.resolved resolver =
      { x with type := x.type.or (x.typeName.bind fun n => (resolver n).toOption) } := by
  obtain ⟨name, type, typeName, above, below, nestedIn, validated, variant, items⟩ := x
  cases type with
  | some t => rfl
  | none =>
    cases typeName with
    | none => rfl
    | some n => cases hn : resolver n <;> simp [Group.resolved, hn, Except.toOption]

theorem Group.core_resolved (resolver : Resolver) (x : Group) :
    (x.resolved resolver).core = x.core := by
  rw [Group.resolved_eq]
  rfl

theorem Group.links_resolved (resolver : Resolver) (x : Group) :
    (x.resolved resolver).above = x.above ∧ (x.resolved resolver).below = x.below := by
  rw [Group.resolved_eq]
  exact ⟨rfl, rfl⟩

theorem Group.Resolvable.resolved {resolver : Resolver} {x : Group} (hx : x.Resolvable resolver) :
    (x.resolved resolver).Resolvable resolver := by
  intro htype n hname
  unfold Group.resolved at htype hname
  cases hxtype : x.type with
  | some t => simp [hxtype] at htype
  | none =>
    cases hxname : x.typeName with
    | none => simp [hxtype, hxname] at hname
    | some m =>
      obtain ⟨t, ht⟩ := hx hxtype m hxname
      simp [hxtype, hxname, ht] at htype

theorem Group.resolved_resolved (resolver : Resolver) (x : Group) :
    (x.resolved resolver).resolved resolver = x.resolved resolver := by
  simp [Group.resolved_eq, Option.or_assoc]

/-- A slot that files its groups under given tags; one without a tag keeps its key. -/
def Slot.retag (tagOf : GroupId → Option TypeTag) (s : Slot) : Slot where
  primary := s.primary
  byType := s.byType.map fun m => .ofList (m.entries.map fun e => ((tagOf e.2).getD e.1, e.2))

/-- An item both slots of which file their groups under given tags. -/
def Item.retag (tagOf : GroupId → Option TypeTag) (x : Item) : Item :=
  { x with value := x.value.retag tagOf, key := x.key.retag tagOf }

section Retag

variable {tagOf tagOf' : GroupId → Option TypeTag} {s : Slot} {x : Item}

theorem Item.slot_retag (x : Item) (side : Side) :
    (x.retag tagOf).slot side = (x.slot side).retag tagOf := by
  cases side <;> rfl

theorem Slot.mem_typed_retag {z : GroupId} (hz : z ∈ (s.retag tagOf).typed) : z ∈ s.typed := by
  cases hm : s.byType with
  | none => simp [retag, typed, hm] at hz
  | some m =>
    simp only [retag, typed, hm, Option.map_some, Option.getD_some] at hz ⊢
    have hmap := OrderedMap.mem_values_ofList hz
    rw [List.map_map] at hmap
    exact hmap

theorem Item.mem_nested_retag {z : GroupId} (hz : z ∈ (x.retag tagOf).nested) : z ∈ x.nested := by
  obtain ⟨side, hz⟩ := Item.mem_nested.1 hz
  rw [slot_retag, Slot.mem_groups] at hz
  exact Item.mem_nested.2 ⟨side, Slot.mem_groups.2 (hz.imp_right Slot.mem_typed_retag)⟩

/-- Only the tags of the typed groups matter. -/
theorem Slot.retag_congr (htags : ∀ z ∈ s.typed, tagOf z = tagOf' z) :
    s.retag tagOf = s.retag tagOf' := by
  unfold retag
  cases hm : s.byType with
  | none => rfl
  | some m =>
    have hmap : (m.entries.map fun e => ((tagOf e.2).getD e.1, e.2)) =
        m.entries.map fun e => ((tagOf' e.2).getD e.1, e.2) := by
      refine List.map_congr_left fun e he => ?_
      rw [htags e.2 (by simpa [typed, hm, OrderedMap.values] using ⟨e.1, he⟩)]
    simp only [Option.map_some, hmap]

theorem Item.retag_congr (htags : ∀ z ∈ x.nested, tagOf z = tagOf' z) :
    x.retag tagOf = x.retag tagOf' := by
  have hslot : ∀ side, (x.slot side).retag tagOf = (x.slot side).retag tagOf' := fun side =>
    Slot.retag_congr fun z hz => htags z (Item.mem_nested.2 ⟨side, Slot.mem_groups.2 (.inr hz)⟩)
  have hvalue : x.value.retag tagOf = x.value.retag tagOf' := hslot .value
  have hkey : x.key.retag tagOf = x.key.retag tagOf' := hslot .key
  rw [retag, retag, hvalue, hkey]

/-- Groups that are filed under their tags stay where they are. -/
theorem Slot.retag_retag (s : Slot) : (s.retag tagOf).retag tagOf = s.retag tagOf := by
  cases hm : s.byType with
  | none => simp [retag, hm]
  | some m =>
    simp only [retag, hm, Option.map_some, Slot.mk.injEq, true_and, Option.some.injEq]
    generalize hl : (m.entries.map fun e => ((tagOf e.2).getD e.1, e.2)) = l
    have hkeys : ∀ e ∈ (OrderedMap.ofList l).entries, ((tagOf e.2).getD e.1, e.2) = e := by
      rintro ⟨k, z⟩ he
      have hmem := OrderedMap.mem_of_find?_ofList (OrderedMap.find?_eq_some_iff.2 he)
      rw [← hl] at hmem
      obtain ⟨e, -, heq⟩ := List.mem_map.1 hmem
      obtain ⟨rfl, rfl⟩ := Prod.mk.inj heq
      cases tagOf e.2 <;> simp
    rw [List.map_congr_left hkeys, List.map_id']
    exact OrderedMap.entries_injective (OrderedMap.entries_ofList (OrderedMap.nodup_keys _))

theorem Item.retag_retag (x : Item) : (x.retag tagOf).retag tagOf = x.retag tagOf := by
  simp only [retag, Slot.retag_retag]

/-- **Groups with different tags stay in their order**, under their tags. -/
theorem Slot.retag_filed (hs : s.Distinguishes tagOf) :
    Slot.Same (s.retag tagOf) s ∧ (s.retag tagOf).Filed tagOf := by
  cases hm : s.byType with
  | none =>
    refine ⟨⟨rfl, by simp [Slot.typed, retag, hm]⟩, fun k z hz => ?_⟩
    simp [Slot.find?, retag, hm] at hz
  | some m =>
    obtain ⟨htagged, hdistinct⟩ := hs
    have htyped : s.typed = m.values := by simp [Slot.typed, hm]
    rw [htyped] at htagged hdistinct
    have hretag : (s.retag tagOf).byType =
        some (.ofList (m.entries.map fun e => ((tagOf e.2).getD e.1, e.2))) := by
      simp [retag, hm]
    have hkeys : ((m.entries.map fun e => ((tagOf e.2).getD e.1, e.2)).map Prod.fst).map some =
        m.values.map tagOf := by
      unfold OrderedMap.values
      rw [List.map_map, List.map_map, List.map_map]
      refine List.map_congr_left fun e he => ?_
      obtain ⟨k, hk⟩ := Option.isSome_iff_exists.1 (htagged e.2 (List.mem_map_of_mem he))
      simp [hk]
    have hentries := OrderedMap.entries_ofList (List.Nodup.of_map some (hkeys ▸ hdistinct))
    refine ⟨⟨rfl, ?_⟩, fun k z hz => ?_⟩
    · rw [htyped, Slot.typed, hretag, Option.map_some, Option.getD_some, OrderedMap.values,
        hentries, List.map_map]
      rfl
    · rw [Slot.find?, hretag, Option.bind_some, OrderedMap.find?_eq_some_iff, hentries] at hz
      obtain ⟨e, he, hez⟩ := List.mem_map.1 hz
      obtain ⟨l, hl⟩ := Option.isSome_iff_exists.1 (htagged e.2 (List.mem_map_of_mem he))
      rw [hl, Prod.mk.injEq] at hez
      rw [← hez.2, ← hez.1, hl]
      rfl

end Retag

namespace Heap

variable {h F : Heap} {resolver : Resolver} {root : GroupId}

/-- A slot that files its groups under the tags that they have now. -/
def refile (h : Heap) (s : Slot) : Slot := { s with byType := s.byType.map h.refiled }

/-- An item both slots of which are filed anew. -/
def refileItem (h : Heap) (x : Item) : Item :=
  { x with value := h.refile x.value, key := h.refile x.key }

theorem slot_refileItem (h : Heap) (x : Item) (side : Side) :
    (h.refileItem x).slot side = h.refile (x.slot side) := by
  cases side <;> rfl

theorem refileItem_eq_retag (h : Heap) (x : Item) : h.refileItem x = x.retag h.tag? := rfl

/-- The tag of a group once its name has been resolved. -/
def tagAfter (h : Heap) (resolver : Resolver) (g : GroupId) : Option TypeTag :=
  ((h.group g).resolved resolver).tag?

/-! ### Changes -/

/-- Some groups have been resolved, the others are as they were, and nothing has been added. -/
structure TypesGiven (h : Heap) (resolver : Resolver) (G : GroupId → Prop) (F : Heap) : Prop where
  groups : F.groups.size = h.groups.size
  items : F.items.size = h.items.size
  variants : F.variants = h.variants
  group : ∀ g, G g → F.group g = (h.group g).resolved resolver
  otherGroup : ∀ g, ¬ G g → F.group g = h.group g

/-- Some groups have been resolved, and some items file their groups under the tags that these have
once they are resolved; what else the heap holds is as it was. -/
structure CarriedOut (h : Heap) (resolver : Resolver) (G : GroupId → Prop) (I : ItemId → Prop)
    (F : Heap) : Prop extends TypesGiven h resolver G F where
  copyRegistries : F.copyRegistries = h.copyRegistries
  item : ∀ i, I i → F.item i = (h.item i).retag (h.tagAfter resolver)
  otherItem : ∀ i, ¬ I i → F.item i = h.item i

namespace CarriedOut

variable {G G' : GroupId → Prop} {I I' : ItemId → Prop}

theorem refl (h : Heap) (resolver : Resolver) :
    CarriedOut h resolver (fun _ => False) (fun _ => False) h where
  groups := rfl
  items := rfl
  variants := rfl
  copyRegistries := rfl
  group _ hno := hno.elim
  otherGroup _ _ := rfl
  item _ hno := hno.elim
  otherItem _ _ := rfl

theorem congr (hF : CarriedOut h resolver G I F) (hG : ∀ g, G g ↔ G' g) (hI : ∀ i, I i ↔ I' i) :
    CarriedOut h resolver G' I' F := by
  obtain rfl : G = G' := funext fun g => propext (hG g)
  obtain rfl : I = I' := funext fun i => propext (hI i)
  exact hF

/-- Giving a group its type succeeds if its name stands for one. -/
theorem resolve (hF : CarriedOut h resolver G I F) {g : GroupId} (hg : ¬ G g)
    (hresolvable : (h.group g).Resolvable resolver) :
    ∃ F', F.apply resolver (.resolve g) = .ok F' ∧
      CarriedOut h resolver (fun x => x = g ∨ G x) I F' := by
  have hgroup := hF.otherGroup g hg
  have hkept : (h.group g).resolved resolver = h.group g →
      CarriedOut h resolver (fun x => x = g ∨ G x) I F := by
    intro hsame
    refine { hF with group := fun x hx => ?_, otherGroup := fun x hx => ?_ }
    · rcases hx with rfl | hx
      · rw [hgroup, hsame]
      · exact hF.group x hx
    · exact hF.otherGroup x fun hGx => hx (.inr hGx)
  cases htype : (h.group g).type with
  | some t =>
    refine ⟨F, ?_, hkept ?_⟩
    · simp only [apply, hgroup, htype]
    · simp only [Group.resolved, htype]
  | none =>
    cases hname : (h.group g).typeName with
    | none =>
      refine ⟨F, ?_, hkept ?_⟩
      · simp only [apply, hgroup, htype, hname]
      · simp only [Group.resolved, htype, hname]
    | some n =>
      obtain ⟨t, ht⟩ := hresolvable htype n hname
      have hin : F.HasGroup g := by
        by_contra hout
        rw [← hgroup, group_of_not_hasGroup hout] at hname
        cases hname
      refine ⟨F.setType g (some t), ?_, ?_⟩
      · simp only [apply, hgroup, htype, hname, ht]
      · refine { hF with groups := ?_, group := fun x hx => ?_, otherGroup := fun x hx => ?_ }
        · rw [← hF.groups]
          exact Array.size_modify
        · by_cases hxg : x = g
          · subst hxg
            show (F.alterGroup x _).group x = _
            rw [group_alterGroup_self hin, hgroup]
            simp only [Group.resolved, htype, hname, ht]
          · show (F.alterGroup g _).group x = _
            rw [group_alterGroup_of_ne hxg]
            exact hF.group x (hx.resolve_left hxg)
        · rw [not_or] at hx
          show (F.alterGroup g _).group x = _
          rw [group_alterGroup_of_ne hx.1]
          exact hF.otherGroup x hx.2

/-- Filing an item anew succeeds; once its groups have been resolved they are filed under the tags
that they have in the end. -/
theorem refile (hF : CarriedOut h resolver G I F) {i : ItemId}
    (hnested : ∀ z ∈ (h.item i).nested, G z) :
    ∃ F', F.apply resolver (.refile i) = .ok F' ∧
      CarriedOut h resolver G (fun j => j = i ∨ I j) F' := by
  have htags : ∀ z ∈ (h.item i).nested, F.tag? z = h.tagAfter resolver z := by
    intro z hz
    rw [tag?, hF.group z (hnested z hz), tagAfter]
  have hitem : F.refileItem (F.item i) = (h.item i).retag (h.tagAfter resolver) := by
    rw [refileItem_eq_retag]
    by_cases hi : I i
    · rw [hF.item i hi]
      rw [Item.retag_congr fun z hz => htags z (Item.mem_nested_retag hz), Item.retag_retag]
    · rw [hF.otherItem i hi, Item.retag_congr htags]
  refine ⟨F.alterItem i F.refileItem, rfl, ?_⟩
  refine { hF with items := ?_, item := fun j hj => ?_, otherItem := fun j hj => ?_ }
  · rw [← hF.items]
    exact Array.size_modify
  · by_cases hji : j = i
    · subst hji
      by_cases hin : F.HasItem j
      · rw [item_alterItem_self hin, hitem]
      · -- an item that the heap does not have files nothing
        have hout : ¬ h.HasItem j := by
          intro hin'
          exact hin (by rwa [HasItem, hF.items])
        rw [item_alterItem, if_neg fun hij => hin hij.2, item_of_not_hasItem hin,
          item_of_not_hasItem hout]
        rfl
    · rw [item_alterItem_of_ne hji]
      exact hF.item j (hj.resolve_left hji)
  · rw [not_or] at hj
    rw [item_alterItem_of_ne hj.1]
    exact hF.otherItem j hj.2

end CarriedOut

/-- Some groups have been resolved and some items filed anew without merging groups; what else the
heap holds is as it was. -/
structure Resolved (h : Heap) (resolver : Resolver) (G : GroupId → Prop) (I : ItemId → Prop)
    (F : Heap) : Prop extends TypesGiven h resolver G F where
  same : ∀ i, Item.Same (F.item i) (h.item i)
  filed : ∀ i, I i → ∀ side, ((F.item i).slot side).Filed fun z =>
    ((h.group z).resolved resolver).tag?
  otherItem : ∀ i, ¬ I i → F.item i = h.item i

/-- If the groups of no slot come to share a tag, none are merged. -/
theorem CarriedOut.resolved {G : GroupId → Prop} {I : ItemId → Prop}
    (hF : CarriedOut h resolver G I F)
    (hdistinct : ∀ i, I i → ∀ side, ((h.item i).slot side).Distinguishes fun z =>
      ((h.group z).resolved resolver).tag?) : Resolved h resolver G I F := by
  refine { hF with same := fun i => ?_, filed := fun i hi side => ?_ }
  · by_cases hi : I i
    · rw [hF.item i hi]
      refine ⟨rfl, fun side => ?_⟩
      rw [Item.slot_retag]
      exact (Slot.retag_filed (hdistinct i hi side)).1
    · rw [hF.otherItem i hi]
      exact .refl _
  · rw [hF.item i hi, Item.slot_retag]
    exact (Slot.retag_filed (hdistinct i hi side)).2

/-- A change gives a group a type, or files the groups of an item anew, or it does nothing. -/
theorem apply_eq_ok {change : Change} (hF : h.apply resolver change = .ok F) :
    F = h ∨ (∃ g t, F = h.setType g (some t)) ∨ ∃ i, F = h.alterItem i h.refileItem := by
  cases change with
  | resolve g =>
    unfold Heap.apply at hF
    cases htype : (h.group g).type with
    | some t =>
      simp only [htype] at hF
      exact .inl (Except.ok.inj hF).symm
    | none =>
      cases hname : (h.group g).typeName with
      | none =>
        simp only [htype, hname] at hF
        exact .inl (Except.ok.inj hF).symm
      | some n =>
        simp only [htype, hname] at hF
        cases ht : resolver n with
        | ok t =>
          rw [ht] at hF
          exact .inr (.inl ⟨g, t, (Except.ok.inj hF).symm⟩)
        | error e =>
          rw [ht] at hF
          cases hF
  | refile i => exact .inr (.inr ⟨i, (Except.ok.inj hF).symm⟩)

/-- What both kinds of writes keep is kept by a list of changes, also if one of them fails. -/
theorem keeps_applyAll {P : Heap → Prop} (htype : ∀ h g t, P h → P (h.setType g t))
    (hrefile : ∀ h i, P h → P (h.alterItem i h.refileItem)) (resolver : Resolver)
    (changes : List Change) : ∀ {h : Heap}, P h → P (h.applyAll resolver changes).heap := by
  induction changes with
  | nil => exact fun hP => hP
  | cons change rest ih =>
    intro h hP
    unfold Heap.applyAll
    cases hF : h.apply resolver change with
    | ok F =>
      refine ih ?_
      rcases apply_eq_ok hF with rfl | ⟨g, t, rfl⟩ | ⟨i, rfl⟩
      · exact hP
      · exact htype h g (some t) hP
      · exact hrefile h i hP
    | error e => exact hP

theorem applyAll_append {F F' : Heap} {c : Change} : ∀ {cs : List Change} {h : Heap},
    h.applyAll resolver cs = { heap := F, answer := .ok () } → F.apply resolver c = .ok F' →
    h.applyAll resolver (cs ++ [c]) = { heap := F', answer := .ok () } := by
  intro cs
  induction cs with
  | nil =>
    intro h hF hF'
    obtain rfl : h = F := congrArg Outcome.heap hF
    rw [List.nil_append, applyAll, hF']
    rfl
  | cons a cs ih =>
    intro h hF hF'
    rw [applyAll] at hF
    rw [List.cons_append, applyAll]
    cases ha : h.apply resolver a with
    | ok h₁ =>
      rw [ha] at hF
      exact ih hF hF'
    | error e =>
      rw [ha] at hF
      cases congrArg Outcome.answer hF

/-! ### The groups that are visited -/

/-- Visiting a group leads to another one. -/
inductive Leads (h : Heap) : GroupId → GroupId → Prop
  | above {g s : GroupId} (hs : (h.group g).above = some s) : Leads h g s
  | below {g s : GroupId} (hs : s ∈ (h.group g).subs) : Leads h g s
  | nested {g y : GroupId} (hy : h.Nests g y) : Leads h g y

/-- A group is visited in the course of visiting another one. -/
def Visited (h : Heap) : GroupId → GroupId → Prop := Relation.ReflTransGen h.Leads

/-- An item belongs to a group that is visited. -/
def VisitedItem (h : Heap) (root : GroupId) (i : ItemId) : Prop :=
  ∃ g, h.Visited root g ∧ i ∈ (h.group g).itemIds

/-- A task concerns a group or an item that is visited. -/
def Concerns (h : Heap) (root : GroupId) : ResolutionTask → Prop
  | .group g => h.Visited root g
  | .item i => h.VisitedItem root i
  | .refile i => h.VisitedItem root i

theorem mem_resolutionTasks {g : GroupId} {t : ResolutionTask} : t ∈ h.resolutionTasks g ↔
    (∃ s, (h.group g).above = some s ∧ .group s = t) ∨
      (∃ s ∈ (h.group g).subs, .group s = t) ∨ ∃ i ∈ (h.group g).itemIds, .item i = t := by
  simp [resolutionTasks]

theorem Visited.concerns {g : GroupId} (hg : h.Visited root g) {t : ResolutionTask}
    (ht : t ∈ h.resolutionTasks g) : h.Concerns root t := by
  rcases mem_resolutionTasks.1 ht with ⟨s, hs, rfl⟩ | ⟨s, hs, rfl⟩ | ⟨i, hi, rfl⟩
  · exact hg.tail (.above hs)
  · exact hg.tail (.below hs)
  · exact ⟨g, hg, hi⟩

theorem VisitedItem.visited {i : ItemId} (hi : h.VisitedItem root i) {z : GroupId}
    (hz : z ∈ (h.item i).nested) : h.Visited root z := by
  obtain ⟨g, hg, hi⟩ := hi
  obtain ⟨side, hz⟩ := Item.mem_nested.1 hz
  exact hg.tail (.nested ⟨side, hi, hz⟩)

/-! ### One step of the plan -/

/-- What one step of the plan can do. -/
inductive PlanMove (h : Heap) (p : ResolutionPlan) :
    ResolutionTask → ResolutionPlan → List ResolutionTask → Prop
  | skip {g : GroupId} (hg : g ∈ p.seen) : PlanMove h p (.group g) p []
  | visit {g : GroupId} (hg : g ∉ p.seen) :
      PlanMove h p (.group g) { seen := g :: p.seen, changes := .resolve g :: p.changes }
        (h.resolutionTasks g)
  | enter (i : ItemId) :
      PlanMove h p (.item i) p ((h.item i).nested.map .group ++ [.refile i])
  | leave (i : ItemId) : PlanMove h p (.refile i) { p with changes := .refile i :: p.changes } []

theorem resolutionStep_move (h : Heap) (p : ResolutionPlan) (t : ResolutionTask) :
    PlanMove h p t (h.resolutionStep p t).1 (h.resolutionStep p t).2 := by
  cases t with
  | group g =>
    by_cases hg : g ∈ p.seen
    · simpa only [resolutionStep, if_pos hg] using PlanMove.skip hg
    · simpa only [resolutionStep, if_neg hg] using PlanMove.visit hg
  | item i => exact .enter i
  | refile i => exact .leave i

/-- A task waits on the stack, or it has been taken together with all that it led to. -/
inductive Handled (h : Heap) (p : ResolutionPlan) (todo : List ResolutionTask) :
    ResolutionTask → Prop
  | waiting {t : ResolutionTask} (ht : t ∈ todo) : Handled h p todo t
  | visited {g : GroupId} (hg : g ∈ p.seen) : Handled h p todo (.group g)
  | left {i : ItemId} (hi : .refile i ∈ p.changes) : Handled h p todo (.refile i)
  | entered {i : ItemId} (hnested : ∀ z ∈ (h.item i).nested, Handled h p todo (.group z))
      (hrefile : Handled h p todo (.refile i)) : Handled h p todo (.item i)

section Move

variable {p p' : ResolutionPlan} {t u : ResolutionTask} {rest new : List ResolutionTask}

theorem PlanMove.seen_subset (hm : PlanMove h p t p' new) : p.seen ⊆ p'.seen := by
  cases hm with
  | visit hg => exact List.subset_cons_self _ _
  | _ => exact List.Subset.refl _

theorem PlanMove.changes_subset (hm : PlanMove h p t p' new) : p.changes ⊆ p'.changes := by
  cases hm with
  | visit hg => exact List.subset_cons_self _ _
  | leave i => exact List.subset_cons_self _ _
  | _ => exact List.Subset.refl _

theorem Handled.move (hm : PlanMove h p t p' new) (hu : Handled h p (t :: rest) u) :
    Handled h p' (new ++ rest) u := by
  induction hu with
  | waiting hu =>
    rcases List.mem_cons.1 hu with rfl | hu
    · cases hm with
      | skip hg => exact .visited hg
      | visit hg => exact .visited List.mem_cons_self
      | enter i =>
        refine .entered (fun z hz => .waiting ?_) (.waiting ?_)
        · exact List.mem_append_left _ (List.mem_append_left _ (List.mem_map_of_mem hz))
        · exact List.mem_append_left _ (List.mem_append_right _ List.mem_cons_self)
      | leave i => exact .left List.mem_cons_self
    · exact .waiting (List.mem_append_right _ hu)
  | visited hg => exact .visited (hm.seen_subset hg)
  | left hi => exact .left (hm.changes_subset hi)
  | entered _ _ ihNested ihRefile => exact .entered ihNested ihRefile

/-- Every item on the stack that is to be filed anew has its groups before it, on the stack or
among those visited. -/
def InOrder (h : Heap) : List GroupId → List ResolutionTask → Prop
  | _, [] => True
  | seen, .group g :: rest => InOrder h (g :: seen) rest
  | seen, .item _ :: rest => InOrder h seen rest
  | seen, .refile i :: rest => (∀ z ∈ (h.item i).nested, z ∈ seen) ∧ InOrder h seen rest

theorem InOrder.mono : ∀ {todo : List ResolutionTask} {seen seen' : List GroupId}, seen ⊆ seen' →
    InOrder h seen todo → InOrder h seen' todo := by
  intro todo
  induction todo with
  | nil => exact fun _ _ => trivial
  | cons t todo ih =>
    intro seen seen' hsub hord
    cases t with
    | group g => exact ih (List.cons_subset_cons g hsub) hord
    | item i => exact ih hsub hord
    | refile i => exact ⟨fun z hz => hsub (hord.1 z hz), ih hsub hord.2⟩

/-- Tasks that refile nothing can be put in front. -/
theorem InOrder.append {seen : List GroupId} : ∀ {new : List ResolutionTask},
    (∀ i, .refile i ∉ new) → InOrder h seen rest → InOrder h seen (new ++ rest) := by
  intro new
  induction new generalizing seen with
  | nil => exact fun _ hord => hord
  | cons t new ih =>
    intro hnew hord
    have hrest : ∀ i, .refile i ∉ new := fun i hi => hnew i (List.mem_cons_of_mem t hi)
    cases t with
    | group g => exact ih hrest (hord.mono (List.subset_cons_self g seen))
    | item i => exact ih hrest hord
    | refile i => exact absurd List.mem_cons_self (hnew i)

/-- Groups that are put in front count as visited from there on. -/
theorem InOrder.groups : ∀ {gs seen : List GroupId}, InOrder h (gs.reverse ++ seen) rest →
    InOrder h seen (gs.map .group ++ rest) := by
  intro gs
  induction gs with
  | nil => exact fun hord => hord
  | cons g gs ih =>
    intro seen hord
    rw [List.reverse_cons, List.append_assoc] at hord
    exact ih hord

theorem InOrder.move (hm : PlanMove h p t p' new) (hord : InOrder h p.seen (t :: rest)) :
    InOrder h p'.seen (new ++ rest) := by
  cases hm with
  | skip hg => exact hord.mono (List.cons_subset.2 ⟨hg, List.Subset.refl _⟩)
  | visit hg =>
    refine InOrder.append (fun i hi => ?_) hord
    rcases mem_resolutionTasks.1 hi with ⟨_, _, he⟩ | ⟨_, _, he⟩ | ⟨_, _, he⟩ <;> cases he
  | enter i =>
    rw [List.append_assoc]
    refine InOrder.groups ⟨fun z hz => ?_, hord.mono (List.subset_append_right _ _)⟩
    exact List.mem_append_left _ (List.mem_reverse.2 hz)
  | leave i => exact hord.2

theorem Concerns.move (hm : PlanMove h p t p' new) (ht : h.Concerns root t) :
    ∀ u ∈ new, h.Concerns root u := by
  cases hm with
  | skip hg => exact fun u hu => absurd hu List.not_mem_nil
  | visit hg => exact fun u hu => Visited.concerns ht hu
  | enter i =>
    refine List.forall_mem_append.2 ⟨fun u hu => ?_, List.forall_mem_singleton.2 ht⟩
    obtain ⟨z, hz, rfl⟩ := List.mem_map.1 hu
    exact VisitedItem.visited ht hz
  | leave i => exact fun u hu => absurd hu List.not_mem_nil

end Move

/-! ### The plan and its execution -/

/-- A plan in progress: its tasks concern what is visited, nothing that a visited group leads to
has been forgotten, and the nested groups of an item that is filed anew have been visited. -/
structure Planning (h : Heap) (root : GroupId) (p : ResolutionPlan) (todo : List ResolutionTask) :
    Prop where
  tasks : ∀ t ∈ todo, h.Concerns root t
  seen : ∀ g ∈ p.seen, h.Visited root g
  changed : ∀ i, .refile i ∈ p.changes → h.VisitedItem root i ∧ ∀ z ∈ (h.item i).nested, z ∈ p.seen
  start : Handled h p todo (.group root)
  closing : ∀ g ∈ p.seen, ∀ t ∈ h.resolutionTasks g, Handled h p todo t
  inOrder : InOrder h p.seen todo

theorem planning_start (h : Heap) (root : GroupId) : Planning h root {} [.group root] :=
  ⟨List.forall_mem_singleton.2 .refl, by simp, by simp, .waiting List.mem_cons_self, by simp,
    trivial⟩

theorem Planning.move {p p' : ResolutionPlan} {t : ResolutionTask}
    {rest new : List ResolutionTask} (hp : Planning h root p (t :: rest))
    (hm : PlanMove h p t p' new) : Planning h root p' (new ++ rest) := by
  obtain ⟨ht, hrest⟩ := List.forall_mem_cons.1 hp.tasks
  refine ⟨List.forall_mem_append.2 ⟨ht.move hm, hrest⟩, ?_, ?_, hp.start.move hm, ?_,
    hp.inOrder.move hm⟩
  · cases hm with
    | visit hg => exact List.forall_mem_cons.2 ⟨ht, hp.seen⟩
    | _ => exact hp.seen
  · cases hm with
    | visit hg =>
      intro i hi
      obtain ⟨hvisited, hnested⟩ := hp.changed i (List.mem_of_ne_of_mem (by simp) hi)
      exact ⟨hvisited, fun z hz => List.mem_cons_of_mem _ (hnested z hz)⟩
    | leave i =>
      intro j hj
      rcases List.mem_cons.1 hj with hj | hj
      · cases hj
        exact ⟨ht, hp.inOrder.1⟩
      · exact hp.changed j hj
    | _ => exact hp.changed
  · have hold : ∀ g ∈ p.seen, ∀ u ∈ h.resolutionTasks g, Handled h p' (new ++ rest) u :=
      fun g hg u hu => (hp.closing g hg u hu).move hm
    cases hm with
    | visit hg =>
      exact List.forall_mem_cons.2
        ⟨fun u hu => .waiting (List.mem_append_left _ hu), hold⟩
    | _ => exact hold

/-- A plan in progress the changes of which, so far, can be carried out. -/
structure Resolving (h : Heap) (resolver : Resolver) (root : GroupId) (p : ResolutionPlan)
    (todo : List ResolutionTask) : Prop extends Planning h root p todo where
  run : ∃ F, h.applyAll resolver p.changes.reverse = { heap := F, answer := .ok () } ∧
    CarriedOut h resolver (· ∈ p.seen) (.refile · ∈ p.changes) F

/-- The change that a step adds to the plan can be carried out. -/
theorem CarriedOut.move {p p' : ResolutionPlan} {t : ResolutionTask}
    {rest new : List ResolutionTask} (hm : PlanMove h p t p' new)
    (hord : InOrder h p.seen (t :: rest))
    (hresolvable : ∀ g, t = .group g → (h.group g).Resolvable resolver)
    (hrun : h.applyAll resolver p.changes.reverse = { heap := F, answer := .ok () })
    (hF : CarriedOut h resolver (· ∈ p.seen) (.refile · ∈ p.changes) F) :
    ∃ F', h.applyAll resolver p'.changes.reverse = { heap := F', answer := .ok () } ∧
      CarriedOut h resolver (· ∈ p'.seen) (.refile · ∈ p'.changes) F' := by
  cases hm with
  | skip hg => exact ⟨F, hrun, hF⟩
  | enter i => exact ⟨F, hrun, hF⟩
  | visit hg =>
    obtain ⟨F', hF', hnext⟩ := hF.resolve hg (hresolvable _ rfl)
    refine ⟨F', ?_, hnext.congr (fun x => List.mem_cons.symm) fun i => ?_⟩
    · rw [List.reverse_cons]
      exact applyAll_append hrun hF'
    · simp
  | leave i =>
    obtain ⟨F', hF', hnext⟩ := hF.refile hord.1
    refine ⟨F', ?_, hnext.congr (fun x => Iff.rfl) fun j => ?_⟩
    · rw [List.reverse_cons]
      exact applyAll_append hrun hF'
    · simp

/-- What is visited can be resolved, so every step of a plan in progress can be carried out. -/
theorem Planning.run_move (hresolvable : ∀ g, h.Visited root g → (h.group g).Resolvable resolver)
    {p p' : ResolutionPlan} {t : ResolutionTask} {rest new : List ResolutionTask}
    (hp : Planning h root p (t :: rest)) (hm : PlanMove h p t p' new)
    (hrun : h.applyAll resolver p.changes.reverse = { heap := F, answer := .ok () })
    (hF : CarriedOut h resolver (· ∈ p.seen) (.refile · ∈ p.changes) F) :
    ∃ F', h.applyAll resolver p'.changes.reverse = { heap := F', answer := .ok () } ∧
      CarriedOut h resolver (· ∈ p'.seen) (.refile · ∈ p'.changes) F' := by
  refine hF.move hm hp.inOrder ?_ hrun
  intro g heq
  subst heq
  exact hresolvable g (hp.tasks _ List.mem_cons_self)

theorem resolving_start (h : Heap) (resolver : Resolver) (root : GroupId) :
    Resolving h resolver root {} [.group root] where
  toPlanning := planning_start h root
  run := ⟨h, rfl, (CarriedOut.refl h resolver).congr (by simp) (by simp)⟩

theorem resolving_preserved
    (hresolvable : ∀ g, h.Visited root g → (h.group g).Resolvable resolver) :
    Preserved h.resolutionStep (Resolving h resolver root) := by
  intro p t rest hp
  have hm := resolutionStep_move h p t
  obtain ⟨F, hrun, hF⟩ := hp.run
  exact ⟨hp.toPlanning.move hm, hp.toPlanning.run_move hresolvable hm hrun hF⟩

/-- What visiting the groups that have not been visited may still cost. -/
def resolutionStore (h : Heap) (p : ResolutionPlan) : Nat :=
  unvisited (fun g => totalCost h.resolutionCost (h.resolutionTasks g)) h.groupIds p.seen

/-- Every step spends more than it puts back. -/
theorem resolutionStep_cost (h : Heap) (p : ResolutionPlan) (t : ResolutionTask) :
    h.resolutionStore (h.resolutionStep p t).1 +
      totalCost h.resolutionCost (h.resolutionStep p t).2 <
        h.resolutionStore p + h.resolutionCost t := by
  have hm := resolutionStep_move h p t
  generalize (h.resolutionStep p t).1 = p' at hm ⊢
  generalize (h.resolutionStep p t).2 = new at hm ⊢
  cases hm with
  | skip hg => simp [resolutionCost]
  | @visit g hg =>
    show unvisited _ h.groupIds (g :: p.seen) + totalCost _ (h.resolutionTasks g) < _ + 1
    by_cases hin : h.HasGroup g
    · exact Nat.lt_succ_of_le (unvisited_cons_lt _ (mem_groupIds.2 hin) hg)
    · -- a group that the heap does not have leads nowhere
      rw [show h.resolutionTasks g = [] by rw [resolutionTasks, group_of_not_hasGroup hin]; rfl]
      exact Nat.lt_succ_of_le (unvisited_cons_le _ h.groupIds p.seen g)
  | enter i =>
    have hnested : totalCost h.resolutionCost ((h.item i).nested.map .group) =
        (h.item i).nested.length := (totalCost_map _ _ _).trans (totalCost_one _)
    rw [totalCost_append, hnested]
    simp [resolutionCost]
  | leave i => simp [resolutionStore, resolutionCost]

/-- The plan is always worked out. -/
theorem exists_resolutionPlan (h : Heap) (todo : List ResolutionTask) :
    ∃ p, explore h.resolutionStep (h.resolutionBound + totalCost h.resolutionCost todo) {} todo =
      some p := by
  rw [← Option.isSome_iff_exists]
  refine explore_isSome (resolutionStep_cost h) _ _ _ ?_
  rw [resolutionStore, unvisited_nil]
  exact Nat.le_refl _

theorem Handled.seen {p : ResolutionPlan} {g : GroupId} (hg : Handled h p [] (.group g)) :
    g ∈ p.seen := by
  cases hg with
  | waiting hg => exact absurd hg List.not_mem_nil
  | visited hg => exact hg

theorem Handled.refiled {p : ResolutionPlan} {i : ItemId} (hi : Handled h p [] (.refile i)) :
    .refile i ∈ p.changes := by
  cases hi with
  | waiting hi => exact absurd hi List.not_mem_nil
  | left hi => exact hi

/-- When the stack is empty, all that is visited has been changed. -/
theorem Planning.finished {p : ResolutionPlan} (hp : Planning h root p []) :
    (∀ g, g ∈ p.seen ↔ h.Visited root g) ∧ ∀ i, .refile i ∈ p.changes ↔ h.VisitedItem root i := by
  have hentered : ∀ g ∈ p.seen, ∀ i ∈ (h.group g).itemIds,
      (∀ z ∈ (h.item i).nested, z ∈ p.seen) ∧ .refile i ∈ p.changes := by
    intro g hg i hi
    have hitem := hp.closing g hg (.item i) (mem_resolutionTasks.2 (.inr (.inr ⟨i, hi, rfl⟩)))
    cases hitem with
    | waiting hitem => exact absurd hitem List.not_mem_nil
    | entered hnested hrefile => exact ⟨fun z hz => (hnested z hz).seen, hrefile.refiled⟩
  have hall : ∀ g, h.Visited root g → g ∈ p.seen := by
    intro g hg
    induction hg with
    | refl => exact hp.start.seen
    | tail _ hstep ih =>
      cases hstep with
      | above hs => exact (hp.closing _ ih _ (mem_resolutionTasks.2 (.inl ⟨_, hs, rfl⟩))).seen
      | below hs =>
        exact (hp.closing _ ih _ (mem_resolutionTasks.2 (.inr (.inl ⟨_, hs, rfl⟩)))).seen
      | nested hy =>
        obtain ⟨side, hi, hy⟩ := hy
        exact (hentered _ ih _ hi).1 _ (Item.mem_nested.2 ⟨side, hy⟩)
  refine ⟨fun g => ⟨hp.seen g, hall g⟩, fun i => ⟨fun hi => (hp.changed i hi).1, ?_⟩⟩
  intro hi
  obtain ⟨g, hg, hi⟩ := hi
  exact (hentered g (hall g hg) i hi).2

/-- **Resolving names succeeds if every name that is needed stands for a type.** -/
theorem resolveNames_carriedOut
    (hresolvable : ∀ g, h.Visited root g → (h.group g).Resolvable resolver) :
    ∃ F, h.resolveNames root resolver = { heap := F, answer := .ok () } ∧
      CarriedOut h resolver (h.Visited root) (h.VisitedItem root) F := by
  obtain ⟨p, hp⟩ := exists_resolutionPlan h [.group root]
  have hend := (resolving_preserved hresolvable).explore _ _ _ (resolving_start h resolver root) hp
  obtain ⟨F, hrun, hF⟩ := hend.run
  obtain ⟨hgroups, hitems⟩ := hend.toPlanning.finished
  refine ⟨F, ?_, hF.congr hgroups hitems⟩
  unfold resolveNames resolutionPlan
  rw [hp]
  exact hrun

/-- No groups are merged if no two groups of a slot come to have the same tag. -/
theorem resolveNames_resolved
    (hresolvable : ∀ g, h.Visited root g → (h.group g).Resolvable resolver)
    (hdistinct : ∀ i, h.VisitedItem root i → ∀ side,
      ((h.item i).slot side).Distinguishes fun z => ((h.group z).resolved resolver).tag?) :
    ∃ F, h.resolveNames root resolver = { heap := F, answer := .ok () } ∧
      Resolved h resolver (h.Visited root) (h.VisitedItem root) F := by
  obtain ⟨F, hF, hcarried⟩ := resolveNames_carriedOut hresolvable
  exact ⟨F, hF, hcarried.resolved hdistinct⟩

/-! ### What is left alone -/

namespace TypesGiven

variable {G : GroupId → Prop}

theorem core (hF : TypesGiven h resolver G F) (g : GroupId) :
    (F.group g).core = (h.group g).core := by
  by_cases hg : G g
  · rw [hF.group g hg, Group.core_resolved]
  · rw [hF.otherGroup g hg]

theorem links (hF : TypesGiven h resolver G F) (g : GroupId) :
    (F.group g).above = (h.group g).above ∧ (F.group g).below = (h.group g).below := by
  by_cases hg : G g
  · rw [hF.group g hg]
    exact Group.links_resolved _ _
  · rw [hF.otherGroup g hg]
    exact ⟨rfl, rfl⟩

theorem itemIds (hF : TypesGiven h resolver G F) (g : GroupId) :
    (F.group g).itemIds = (h.group g).itemIds := by
  unfold Group.itemIds
  rw [(Group.of_core (hF.core g)).2.2.2.2]

end TypesGiven

namespace Resolved

variable {G : GroupId → Prop} {I : ItemId → Prop}

theorem grows (hF : Resolved h resolver G I F) : Grows G I h F where
  hasGroup g hg := by
    unfold HasGroup
    rw [hF.groups]
    exact hg
  hasItem i hi := by
    unfold HasItem
    rw [hF.items]
    exact hi
  hasVariant := Nat.le_of_eq (congrArg Array.size hF.variants.symm)
  group g _ hg := hF.otherGroup g hg
  item i _ hi := hF.otherItem i hi
  variant v _ := by
    unfold variant
    rw [hF.variants]

/-- Nothing but types and keys changes. -/
theorem retains (hF : Resolved h resolver G I F) : Retains 0 0 Nothing h F where
  hasGroup := hF.grows.hasGroup
  hasItem := hF.grows.hasItem
  hasVariant := hF.grows.hasVariant
  core g _ _ := hF.core g
  links g _ _ _ := hF.links g
  item i _ _ := hF.same i
  variant := hF.grows.variant

/-- The nested groups are the same. -/
theorem nests (hF : Resolved h resolver G I F) {x y : GroupId} (hxy : F.Nests x y) :
    h.Nests x y := by
  obtain ⟨side, hi, hy⟩ := hxy
  rw [hF.itemIds] at hi
  rw [((hF.same _).slot side).groups] at hy
  exact ⟨side, hi, hy⟩

end Resolved

end Heap

end AttributeGraph
