/-
The order in which names are resolved, and what is reached.

The plan follows the links depth first: a group is visited before what it leads
to, and that before whatever comes next, unless it has been met already.  `Tour`
says this of a list of groups without tasks and without a bound, and there is only
one tour from a group (`Tour.unique`).  The plan gives types in the order of the
tour (`exists_tour`), so the error, if there is one, is that of the first group of
the tour whose name is refused.

If no name is refused, then every group that was reached has its type, and every
item files its groups under the tags that they have now (`NamesResolved`).
-/
import AttributeGraph.Proofs.Ordered
import AttributeGraph.Proofs.Resolving

namespace AttributeGraph

/-- The name that a group needs and the resolver refuses, with the reason. -/
def Group.refusal? (resolver : Resolver) (x : Group) : Option (String × Cause) :=
  match x.type, x.typeName with
  | none, some n =>
    match resolver n with
    | .ok _ => none
    | .error cause => some (n, cause)
  | _, _ => none

theorem Group.refusal?_eq_none_iff {resolver : Resolver} {x : Group} :
    x.refusal? resolver = none ↔ x.Resolvable resolver := by
  cases htype : x.type with
  | some t => simp [Group.refusal?, Group.Resolvable, htype]
  | none =>
    cases hname : x.typeName with
    | none => simp [Group.refusal?, Group.Resolvable, htype, hname]
    | some n => cases hn : resolver n <;> simp [Group.refusal?, Group.Resolvable, htype, hname, hn]

theorem Group.Resolvable.type_resolved {x : Group} (hx : x.Resolvable resolver)
    (hname : x.typeName.isSome = true) : (x.resolved resolver).type.isSome = true := by
  obtain ⟨n, hn⟩ := Option.isSome_iff_exists.1 hname
  rw [Group.resolved_eq]
  cases htype : x.type with
  | some t => rfl
  | none =>
    obtain ⟨t, ht⟩ := hx htype n hn
    simp [hn, ht, Except.toOption]

/-- A slot files every group of another one under a key that is worked out for it.  Of groups that
come to share a key the last one stays, at the place of the first one. -/
structure Slot.Rekeyed (keyOf : TypeTag × GroupId → TypeTag) (s s' : Slot) : Prop where
  primary : s'.primary = s.primary
  byType : s'.byType.isSome = s.byType.isSome
  keys : (s'.byType.getD .empty).keys = ((s.byType.getD .empty).entries.map keyOf).eraseDups
  find? : ∀ k, s'.find? k =
    ((s.byType.getD .empty).entries.reverse.find? fun e => keyOf e = k).map Prod.snd

/-- Filing the groups of a slot under given tags. -/
theorem Slot.rekeyed_retag (tagOf : GroupId → Option TypeTag) (s : Slot) :
    s.Rekeyed (fun e => (tagOf e.2).getD e.1) (s.retag tagOf) := by
  cases hm : s.byType with
  | none => exact ⟨rfl, by simp [retag, hm], by simp [retag, hm, OrderedMap.keys, OrderedMap.empty],
      fun k => by simp [retag, find?, hm, OrderedMap.empty]⟩
  | some m =>
    refine ⟨rfl, by simp [retag, hm], ?_, fun k => ?_⟩
    · simp only [retag, hm, Option.map_some, Option.getD_some, OrderedMap.keys_ofList,
        List.map_map, Function.comp_def]
    · simp only [retag, find?, hm, Option.map_some, Option.getD_some, Option.bind_some,
        OrderedMap.find?_ofList_map]

namespace Heap

variable {h F : Heap} {resolver : Resolver} {root g : GroupId}

/-! ### Depth first through the links -/

/-- The groups that a group leads to, in the order in which they are turned to. -/
def linked (h : Heap) (g : GroupId) : List GroupId :=
  (h.group g).above.toList ++ (h.group g).subs ++
    (h.group g).itemIds.flatMap fun i => (h.item i).nested

/-- A tour visits groups in order, each one before the groups that it leads to, and these before the
next one.  Groups that have been seen are passed over, and the tour lists the others. -/
inductive Tour (h : Heap) : List GroupId → List GroupId → List GroupId → Prop
  | nil (seen : List GroupId) : Tour h seen [] []
  | skip {seen todo tour : List GroupId} {g : GroupId} (hg : g ∈ seen)
      (hlater : Tour h seen todo tour) : Tour h seen (g :: todo) tour
  | visit {seen todo below after : List GroupId} {g : GroupId} (hg : g ∉ seen)
      (hbelow : Tour h (g :: seen) (h.linked g) below)
      (hafter : Tour h ((g :: below).reverse ++ seen) todo after) :
      Tour h seen (g :: todo) (g :: below ++ after)

namespace Tour

variable {seen todo todo' tour tour' : List GroupId}

/-- There is only one tour. -/
theorem unique (ht : h.Tour seen todo tour) (ht' : h.Tour seen todo tour') : tour = tour' := by
  induction ht generalizing tour' with
  | nil seen =>
    cases ht'
    rfl
  | skip hg _ ih =>
    cases ht' with
    | skip _ hlater => exact ih hlater
    | visit hnew _ _ => exact absurd hg hnew
  | visit hg _ _ ihbelow ihafter =>
    cases ht' with
    | skip hseen _ => exact absurd hseen hg
    | visit _ hbelow hafter =>
      obtain rfl := ihbelow hbelow
      obtain rfl := ihafter hafter
      rfl

theorem append (ht : h.Tour seen todo tour) (ht' : h.Tour (tour.reverse ++ seen) todo' tour') :
    h.Tour seen (todo ++ todo') (tour ++ tour') := by
  induction ht with
  | nil seen => exact ht'
  | skip hg _ ih => exact .skip hg (ih ht')
  | visit hg hbelow _ _ ih =>
    rw [List.cons_append, List.append_assoc]
    refine .visit hg hbelow (ih ?_)
    rwa [List.reverse_append, List.append_assoc] at ht'

/-- A tour lists no group twice, and none that has been seen. -/
theorem nodup (ht : h.Tour seen todo tour) : tour.Nodup ∧ ∀ g ∈ tour, g ∉ seen := by
  induction ht with
  | nil seen => simp
  | skip _ _ ih => exact ih
  | @visit seen todo below after g hg _ _ ihbelow ihafter =>
    obtain ⟨hbelow, hnewBelow⟩ := ihbelow
    obtain ⟨hafter, hnewAfter⟩ := ihafter
    have hfirst : (g :: below).Nodup :=
      List.nodup_cons.2 ⟨fun hmem => hnewBelow g hmem List.mem_cons_self, hbelow⟩
    refine ⟨List.nodup_append.2 ⟨hfirst, hafter, ?_⟩, ?_⟩
    · intro x hx y hy hxy
      subst hxy
      exact hnewAfter x hy (List.mem_append_left seen (List.mem_reverse.2 hx))
    · intro x hx
      rcases List.mem_append.1 hx with hx | hx
      · rcases List.mem_cons.1 hx with rfl | hx
        · exact hg
        · exact fun hseen => hnewBelow x hx (List.mem_cons_of_mem g hseen)
      · exact fun hseen => hnewAfter x hx (List.mem_append_right _ hseen)

end Tour

/-! ### The order of the plan -/

/-- The groups that a task turns to. -/
def ResolutionTask.groups (h : Heap) : ResolutionTask → List GroupId
  | .group g => [g]
  | .item i => (h.item i).nested
  | .refile _ => []

/-- The group that a change gives a type. -/
def Change.group? : Change → Option GroupId
  | .resolve g => some g
  | .refile _ => none

theorem flatMap_resolutionTasks (h : Heap) (g : GroupId) :
    (h.resolutionTasks g).flatMap (ResolutionTask.groups h) = h.linked g := by
  simp [resolutionTasks, linked, ResolutionTask.groups, List.flatMap_append, List.flatMap_map]

/-- What tasks add to a plan gives types in the order of a tour. -/
structure Toured (h : Heap) (p : ResolutionPlan) (todo : List ResolutionTask)
    (out : ResolutionPlan) (l : List GroupId) : Prop where
  tour : h.Tour p.seen (todo.flatMap (ResolutionTask.groups h)) l
  seen : out.seen = l.reverse ++ p.seen
  changes : out.changes.reverse.filterMap Change.group? =
    p.changes.reverse.filterMap Change.group? ++ l

theorem Toured.nil {p out : ResolutionPlan} {l : List GroupId}
    (hout : h.Toured p [] out l) : l = [] := by
  cases hout.tour
  rfl

/-- What a task adds, and then what the tasks after it add. -/
theorem Toured.cons {p p' p₁ out : ResolutionPlan} {t : ResolutionTask}
    {new rest : List ResolutionTask} {below after : List GroupId}
    (hfirst : h.Toured p₁ new p' below) (hm : PlanMove h p t p₁ new)
    (hlater : h.Toured p' rest out after) : ∃ l, h.Toured p (t :: rest) out l := by
  obtain ⟨hafter, hseen, hchanges⟩ := hlater
  rw [hfirst.seen] at hafter hseen
  rw [hfirst.changes] at hchanges
  cases hm with
  | skip hg =>
    obtain rfl := hfirst.nil
    exact ⟨after, .skip hg hafter, hseen, by simpa using hchanges⟩
  | @visit g hg =>
    have hbelow := hfirst.tour
    rw [flatMap_resolutionTasks] at hbelow
    refine ⟨g :: below ++ after, .visit hg hbelow ?_, ?_, ?_⟩
    · rw [List.reverse_cons, List.append_assoc]
      exact hafter
    · simpa using hseen
    · simpa [Change.group?] using hchanges
  | enter i =>
    refine ⟨below ++ after, ?_, by simpa using hseen, by simpa using hchanges⟩
    have hnested := hfirst.tour
    rw [List.flatMap_append, List.flatMap_map] at hnested
    exact .append (by simpa [ResolutionTask.groups] using hnested) hafter
  | leave i =>
    obtain rfl := hfirst.nil
    exact ⟨after, hafter, hseen, by simpa [List.filterMap_cons, Change.group?] using hchanges⟩

theorem exists_toured {p out : ResolutionPlan} {todo : List ResolutionTask}
    (hout : Explores h.resolutionStep p todo out) : ∃ l, h.Toured p todo out l := by
  induction hout with
  | nil p => exact ⟨[], .nil p.seen, rfl, (List.append_nil _).symm⟩
  | cons _ _ ihfirst ihlater =>
    obtain ⟨below, hfirst⟩ := ihfirst
    obtain ⟨after, hlater⟩ := ihlater
    exact hfirst.cons (resolutionStep_move h _ _) hlater

/-- **The plan gives types in the order of a tour**, which lists the groups that are visited. -/
theorem exists_tour (h : Heap) (root : GroupId) :
    ∃ l, h.Tour [] [root] l ∧ (∀ g, g ∈ l ↔ h.Visited root g) ∧
      (h.resolutionPlan [.group root]).filterMap Change.group? = l := by
  obtain ⟨out, hout⟩ := exists_resolutionPlan h [.group root]
  obtain ⟨l, hl⟩ := exists_toured (explores_of_explore hout)
  have hplanning : Planning h root out [] := by
    have hpreserved : Preserved h.resolutionStep (Planning h root) :=
      fun p t rest hp => hp.move (resolutionStep_move h p t)
    exact hpreserved.explore _ _ _ (planning_start h root) hout
  refine ⟨l, hl.tour, fun g => ?_, ?_⟩
  · rw [← hplanning.finished.1, hl.seen, List.append_nil, List.mem_reverse]
  · rw [resolutionPlan, hout]
    exact hl.changes

/-! ### Carrying out the plan -/

theorem apply_resolve_of_refused {n : String} {cause : Cause}
    (hg : (h.group g).refusal? resolver = some (n, cause)) :
    h.apply resolver (.resolve g) = .error (.typeResolution n (some cause)) := by
  unfold Group.refusal? at hg
  unfold Heap.apply
  cases htype : (h.group g).type with
  | some t => simp [htype] at hg
  | none =>
    cases hname : (h.group g).typeName with
    | none => simp [htype, hname] at hg
    | some m =>
      cases hm : resolver m with
      | ok t => simp [htype, hname, hm] at hg
      | error e =>
        simp only [htype, hname, hm, Option.some.injEq, Prod.mk.injEq] at hg ⊢
        rw [hg.1, hg.2]

/-- A group whose name is not refused is given its type, and the others stay as they are. -/
theorem apply_resolve_of_resolvable (hg : (h.group g).refusal? resolver = none) :
    ∃ F, h.apply resolver (.resolve g) = .ok F ∧ ∀ x, x ≠ g → F.group x = h.group x := by
  obtain ⟨F, hrun, hF⟩ :=
    (CarriedOut.refl h resolver).resolve (fun hno => hno) (Group.refusal?_eq_none_iff.1 hg)
  exact ⟨F, hrun, fun x hx => hF.otherGroup x (by simpa using hx)⟩

/-- The answer, given the first name that is refused. -/
def resolutionAnswer : Option (String × Cause) → Except Error Unit
  | none => .ok ()
  | some (n, cause) => .error (.typeResolution n (some cause))

theorem findSome?_congr {α β : Type} {f f' : α → Option β} {l : List α}
    (hl : ∀ a ∈ l, f a = f' a) : l.findSome? f = l.findSome? f' := by
  rw [← Function.id_comp f, ← Function.id_comp f', ← List.findSome?_map, ← List.findSome?_map,
    List.map_congr_left hl]

/-- **The first name that is refused is the error**, if no group is given its type twice. -/
theorem answer_applyAll : ∀ {changes : List Change} {h : Heap},
    (changes.filterMap Change.group?).Nodup →
    (h.applyAll resolver changes).answer = resolutionAnswer
      ((changes.filterMap Change.group?).findSome? fun g => (h.group g).refusal? resolver) := by
  intro changes
  induction changes with
  | nil => exact fun _ => rfl
  | cons change rest ih =>
    intro h hnodup
    cases change with
    | refile i => exact ih (h := h.alterItem i h.refileItem) hnodup
    | resolve g =>
      have hcons : (Change.resolve g :: rest).filterMap Change.group? =
          g :: rest.filterMap Change.group? := rfl
      rw [hcons] at hnodup ⊢
      obtain ⟨hg, hrest⟩ := List.nodup_cons.1 hnodup
      rw [List.findSome?_cons]
      cases hr : (h.group g).refusal? resolver with
      | some r => rw [applyAll, apply_resolve_of_refused hr, resolutionAnswer]
      | none =>
        obtain ⟨F, hF, hothers⟩ := apply_resolve_of_resolvable hr
        rw [applyAll, hF]
        have hsame : ∀ x ∈ rest.filterMap Change.group?,
            (F.group x).refusal? resolver = (h.group x).refusal? resolver := by
          intro x hx
          rw [hothers x fun hxg => hg (hxg ▸ hx)]
        rw [← findSome?_congr hsame]
        exact ih hrest

/-! ### What is reached -/

/-- Every group that is visited has its type, every item of these files its groups under the tags
that they have now, and nothing else has changed. -/
structure NamesResolved (h : Heap) (resolver : Resolver) (root : GroupId) (F : Heap) : Prop where
  /-- A group keeps the type that it had, or its name stands for its type. -/
  group : ∀ g, h.Visited root g → F.group g = { h.group g with
    type := (h.group g).type.or ((h.group g).typeName.bind fun n => (resolver n).toOption) }
  typed : ∀ g, h.Visited root g → (h.group g).typeName.isSome = true →
    (F.group g).type.isSome = true
  /-- A group without a tag keeps its key. -/
  slot : ∀ i, h.VisitedItem root i → ∀ side,
    ((h.item i).slot side).Rekeyed (fun e => (F.tag? e.2).getD e.1) ((F.item i).slot side)
  item : ∀ i, F.item i =
    { h.item i with value := (F.item i).value, key := (F.item i).key }
  otherGroup : ∀ g, ¬ h.Visited root g → F.group g = h.group g
  otherItem : ∀ i, ¬ h.VisitedItem root i → F.item i = h.item i
  groups : F.groups.size = h.groups.size
  items : F.items.size = h.items.size
  variants : F.variants = h.variants
  copyRegistries : F.copyRegistries = h.copyRegistries

theorem CarriedOut.namesResolved
    (hresolvable : ∀ g, h.Visited root g → (h.group g).Resolvable resolver)
    (hF : CarriedOut h resolver (h.Visited root) (h.VisitedItem root) F) :
    NamesResolved h resolver root F where
  group g hg := (hF.group g hg).trans (Group.resolved_eq resolver _)
  typed g hg hname := by
    rw [hF.group g hg]
    exact (hresolvable g hg).type_resolved hname
  slot i hi side := by
    rw [hF.item i hi, Item.slot_retag]
    have htags : ∀ z ∈ ((h.item i).slot side).typed, h.tagAfter resolver z = F.tag? z := by
      intro z hz
      have hnested := Item.mem_nested.2 ⟨side, Slot.mem_groups.2 (.inr hz)⟩
      rw [tag?, hF.group z (hi.visited hnested), tagAfter]
    rw [Slot.retag_congr htags]
    exact Slot.rekeyed_retag F.tag? _
  item i := by
    by_cases hi : h.VisitedItem root i
    · rw [hF.item i hi]
      rfl
    · rw [hF.otherItem i hi]
  otherGroup := hF.otherGroup
  otherItem := hF.otherItem
  groups := hF.groups
  items := hF.items
  variants := hF.variants
  copyRegistries := hF.copyRegistries

/-- **Resolving names reaches every group once, depth first.**  There is one tour from the root, and
it lists the groups that the links lead to.  If the resolver refuses no name on the tour, all these
groups have their types in the end.  Otherwise the first name that it refuses is the error, with
the reason. -/
theorem resolveNames_reaches (h : Heap) (resolver : Resolver) (root : GroupId) :
    ∃ tour : List GroupId, (∀ l, h.Tour [] [root] l ↔ l = tour) ∧
      tour.Nodup ∧ (∀ g, g ∈ tour ↔ h.Visited root g) ∧
      (tour.findSome? (fun g => (h.group g).refusal? resolver) = none →
        ∃ F, h.resolveNames root resolver = { heap := F, answer := .ok () } ∧
          h.NamesResolved resolver root F) ∧
      ∀ n cause, tour.findSome? (fun g => (h.group g).refusal? resolver) = some (n, cause) →
        (h.resolveNames root resolver).answer = .error (.typeResolution n (some cause)) := by
  obtain ⟨tour, htour, hvisited, hplan⟩ := exists_tour h root
  refine ⟨tour, fun l => ⟨fun hl => hl.unique htour, fun hl => hl ▸ htour⟩, htour.nodup.1,
    hvisited, fun hnone => ?_, fun n cause hsome => ?_⟩
  · have hresolvable : ∀ g, h.Visited root g → (h.group g).Resolvable resolver := by
      intro g hg
      exact Group.refusal?_eq_none_iff.1 (List.findSome?_eq_none_iff.1 hnone g ((hvisited g).2 hg))
    obtain ⟨F, hrun, hF⟩ := resolveNames_carriedOut hresolvable
    exact ⟨F, hrun, hF.namesResolved hresolvable⟩
  · have hnodup : ((h.resolutionPlan [.group root]).filterMap Change.group?).Nodup := by
      rw [hplan]
      exact htour.nodup.1
    rw [resolveNames, answer_applyAll hnodup, hplan, hsome]
    rfl

end Heap

end AttributeGraph
