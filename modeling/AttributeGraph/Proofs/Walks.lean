/-
What a validation without failures says of the groups nested below its root.

A `Walk` goes from the root through nested groups, and every attribute on it should
be one of the type in force there.  A validation looks at each group once only,
though, the way it meets it first.  A `Way` is a way of meeting a group: besides
nested groups it leads through super groups and sub groups, which imply types of
their own.

A run without failures clears every group that it enters, the way it enters it
(`Checks.clears`): it has found its attributes, and has entered the groups nested in
it unless they lie too deep.  Ways that a run takes never meet a group twice.  So
all walks are covered (`attributesKnown_of_walk`) if each group is met as one type,
and if none that is met as deep as the validation descends is met further up as
well.  Neither condition can be left out, as two persons show (`walks_missed`).
-/
import AttributeGraph.Proofs.Describing
import AttributeGraph.Proofs.Revalidating

namespace AttributeGraph

open ValidationState

variable {h : Heap} {profileOf : ObjectType → Option TypeProfile} {maxDepth : Nat}
  {root g x y : GroupId} {i : ItemId} {implied implied' : Option ObjectType} {depth depth' n : Nat}
  {trail trail' : List GroupId} {d : TypeProfile}

/-! ### Walks and ways -/

namespace Heap

/-- The type implied for the groups nested in an item: the target of its attribute. -/
def impliedBelow (h : Heap) (profileOf : ObjectType → Option TypeProfile) (x : GroupId)
    (implied : Option ObjectType) (i : ItemId) (side : Side) : Option ObjectType :=
  (h.profileFor profileOf x implied).bind fun d =>
    (d.attribute? (h.item i).name).bind fun a => a.targetOn side

theorem impliedBelow_of_attribute? {a : AttributeInfo}
    (hprofile : h.profileFor profileOf x implied = some d)
    (ha : d.attribute? (h.item i).name = some a) (side : Side) :
    h.impliedBelow profileOf x implied i side = a.targetOn side := by
  rw [impliedBelow, hprofile, Option.bind_some, ha, Option.bind_some]

/-- The groups that a number of steps from nested group to nested group lead to, each with the type
that is implied for it. -/
inductive Walk (h : Heap) (profileOf : ObjectType → Option TypeProfile) (root : GroupId) :
    Nat → GroupId → Option ObjectType → Prop
  | start : Walk h profileOf root 0 root none
  | nested {n : Nat} {x y : GroupId} {implied : Option ObjectType} {i : ItemId}
      (hwalk : Walk h profileOf root n x implied) (side : Side) (hi : i ∈ (h.group x).itemIds)
      (hy : y ∈ ((h.item i).slot side).groups) :
      Walk h profileOf root (n + 1) y (h.impliedBelow profileOf x implied i side)

/-- The ways in which a validation may meet a group: the groups on the way, nearest first, the type
implied for the last one, and its depth. -/
inductive Way (h : Heap) (profileOf : ObjectType → Option TypeProfile) (maxDepth : Nat)
    (root : GroupId) : List GroupId → Option ObjectType → Nat → Prop
  | start : Way h profileOf maxDepth root [root] none 0
  | nested {x y : GroupId} {trail : List GroupId} {implied : Option ObjectType} {depth : Nat}
      {d : TypeProfile} {i : ItemId} {a : AttributeInfo}
      (hway : Way h profileOf maxDepth root (x :: trail) implied depth)
      (hprofile : h.profileFor profileOf x implied = some d) (hi : i ∈ (h.group x).itemIds)
      (ha : d.attribute? (h.item i).name = some a) (hdepth : depth + 1 ≤ maxDepth) (side : Side)
      (hy : y ∈ ((h.item i).slot side).groups) :
      Way h profileOf maxDepth root (y :: x :: trail) (a.targetOn side) (depth + 1)
  | toSuper {x s : GroupId} {trail : List GroupId} {implied : Option ObjectType} {depth : Nat}
      {d : TypeProfile} (hway : Way h profileOf maxDepth root (x :: trail) implied depth)
      (hprofile : h.profileFor profileOf x implied = some d) (hs : (h.group x).above = some s) :
      Way h profileOf maxDepth root (s :: x :: trail) (d.parent?.map TypeProfile.type) depth
  | toSub {x s : GroupId} {trail : List GroupId} {implied : Option ObjectType} {depth : Nat}
      {d : TypeProfile} (hway : Way h profileOf maxDepth root (x :: trail) implied depth)
      (hprofile : h.profileFor profileOf x implied = some d) (hs : s ∈ (h.group x).subs) :
      Way h profileOf maxDepth root (s :: x :: trail) none depth

/-- Whichever way a group is met, the same type is in force for it. -/
def MetAsOneType (h : Heap) (profileOf : ObjectType → Option TypeProfile) (maxDepth : Nat)
    (root : GroupId) : Prop :=
  ∀ x trail implied depth trail' implied' depth',
    h.Way profileOf maxDepth root (x :: trail) implied depth →
    h.Way profileOf maxDepth root (x :: trail') implied' depth' →
    (h.group x).type.or implied = (h.group x).type.or implied'

/-- A group that is met at the greatest depth, on a way without repetition, is met there only. -/
def MetAtOneLimit (h : Heap) (profileOf : ObjectType → Option TypeProfile) (maxDepth : Nat)
    (root : GroupId) : Prop :=
  ∀ x trail implied trail' implied' depth,
    h.Way profileOf maxDepth root (x :: trail) implied maxDepth → (x :: trail).Nodup →
    h.Way profileOf maxDepth root (x :: trail') implied' depth → depth = maxDepth

theorem Way.depth_le (hway : h.Way profileOf maxDepth root trail implied depth) :
    depth ≤ maxDepth := by
  induction hway with
  | start => exact Nat.zero_le _
  | nested _ _ _ _ hdepth => exact hdepth
  | toSuper _ _ _ ih => exact ih
  | toSub _ _ _ ih => exact ih

theorem Way.depth_lt_length (hway : h.Way profileOf maxDepth root trail implied depth) :
    depth < trail.length := by
  induction hway with
  | start => exact Nat.zero_lt_one
  | nested _ _ _ _ _ _ _ ih => exact Nat.succ_lt_succ ih
  | toSuper _ _ _ ih => exact Nat.lt_succ_of_lt ih
  | toSub _ _ _ ih => exact Nat.lt_succ_of_lt ih

section Closed

variable (hclosed : h.Closed) (hin : h.HasGroup root)

include hclosed hin

theorem Walk.hasGroup (hwalk : h.Walk profileOf root n x implied) : h.HasGroup x := by
  cases hwalk with
  | start => exact hin
  | nested _ side hi hy => exact hclosed.hasGroup_nested (.intro side hi hy)

theorem Way.hasGroup (hway : h.Way profileOf maxDepth root trail implied depth) :
    ∀ x ∈ trail, h.HasGroup x := by
  induction hway with
  | start => exact List.forall_mem_singleton.2 hin
  | nested _ _ hi _ _ side hy ih =>
    exact List.forall_mem_cons.2 ⟨hclosed.hasGroup_nested (.intro side hi hy), ih⟩
  | toSuper _ _ hs ih =>
    exact List.forall_mem_cons.2 ⟨hclosed.hasGroup_above (ih _ List.mem_cons_self) hs, ih⟩
  | toSub _ _ hs ih =>
    exact List.forall_mem_cons.2 ⟨(hclosed.group _ (ih _ List.mem_cons_self)).subs _ hs, ih⟩

/-- Groups with types of their own are met as one type. -/
theorem metAsOneType_of_typed (htyped : ∀ x, h.HasGroup x → (h.group x).type.isSome = true) :
    h.MetAsOneType profileOf maxDepth root := by
  intro x trail implied depth trail' implied' depth' hway _
  obtain ⟨type, htype⟩ := Option.isSome_iff_exists.1
    (htyped x (hway.hasGroup hclosed hin x List.mem_cons_self))
  rw [htype, Option.some_or, Option.some_or]

/-- No group is met too deep if there are no more groups than the depth allows. -/
theorem metAtOneLimit_of_size (hsize : h.groups.size ≤ maxDepth) :
    h.MetAtOneLimit profileOf maxDepth root := by
  intro x trail implied _ _ _ hway hnodup _
  have hlt := hway.depth_lt_length
  have hle := length_le_of_nodup hnodup (hway.hasGroup hclosed hin)
  omega

end Closed

end Heap

/-! ### Tasks on the way -/

/-- A task that a run comes to on a way without repetition, through groups entered before. -/
inductive OnWay (h : Heap) (profileOf : ObjectType → Option TypeProfile) (maxDepth : Nat)
    (root : GroupId) (entered : List GroupId) : CheckTask → Prop
  | group {g : GroupId} {trail : List GroupId} {implied : Option ObjectType} {depth : Nat}
      (hway : h.Way profileOf maxDepth root (g :: trail) implied depth) (hnodup : trail.Nodup)
      (hentered : trail ⊆ entered) :
      OnWay h profileOf maxDepth root entered (.group g implied depth)
  | item {g : GroupId} {trail : List GroupId} {implied : Option ObjectType} {depth : Nat}
      {d : TypeProfile} {i : ItemId}
      (hway : h.Way profileOf maxDepth root (g :: trail) implied depth)
      (hnodup : (g :: trail).Nodup) (hentered : g :: trail ⊆ entered)
      (hprofile : h.profileFor profileOf g implied = some d) (hi : i ∈ (h.group g).itemIds) :
      OnWay h profileOf maxDepth root entered (.item g i d depth)

/-- The type has the attribute of an item, and the groups nested in it have been entered unless they
lie too deep. -/
def Found (h : Heap) (maxDepth : Nat) (entered : List GroupId) (i : ItemId) (d : TypeProfile)
    (depth : Nat) : Prop :=
  (d.attribute? (h.item i).name).isSome = true ∧
    (depth + 1 ≤ maxDepth → ∀ side, ∀ y ∈ ((h.item i).slot side).groups, y ∈ entered)

/-- What is left of a task when it is done. -/
inductive Fulfilled (h : Heap) (maxDepth : Nat) (entered : List GroupId) : CheckTask → Prop
  | group {g : GroupId} {implied : Option ObjectType} {depth : Nat} (hg : g ∈ entered) :
      Fulfilled h maxDepth entered (.group g implied depth)
  | item {g : GroupId} {i : ItemId} {d : TypeProfile} {depth : Nat}
      (hi : Found h maxDepth entered i d depth) :
      Fulfilled h maxDepth entered (.item g i d depth)

/-- A group was entered on some way without repetition, and all of its items were found. -/
def Cleared (h : Heap) (profileOf : ObjectType → Option TypeProfile) (maxDepth : Nat)
    (root : GroupId) (entered : List GroupId) (x : GroupId) : Prop :=
  ∃ trail implied depth, h.Way profileOf maxDepth root (x :: trail) implied depth ∧
    (x :: trail).Nodup ∧ ∀ d, h.profileFor profileOf x implied = some d →
      ∀ i ∈ (h.group x).itemIds, Found h maxDepth entered i d depth

section Monotone

variable {entered entered' : List GroupId} (hsub : entered ⊆ entered')

include hsub

theorem OnWay.mono {t : CheckTask} (ht : OnWay h profileOf maxDepth root entered t) :
    OnWay h profileOf maxDepth root entered' t := by
  cases ht with
  | group hway hnodup hentered => exact .group hway hnodup (List.Subset.trans hentered hsub)
  | item hway hnodup hentered hprofile hi =>
    exact .item hway hnodup (List.Subset.trans hentered hsub) hprofile hi

theorem Found.mono (hi : Found h maxDepth entered i d depth) :
    Found h maxDepth entered' i d depth :=
  ⟨hi.1, fun hdepth side y hy => hsub (hi.2 hdepth side y hy)⟩

theorem Cleared.mono (hx : Cleared h profileOf maxDepth root entered x) :
    Cleared h profileOf maxDepth root entered' x := by
  obtain ⟨trail, implied, depth, hway, hnodup, hfound⟩ := hx
  exact ⟨trail, implied, depth, hway, hnodup, fun d hd i hi => (hfound d hd i hi).mono hsub⟩

end Monotone

/-! ### What a run without failures clears -/

/-- A stretch of a run clears every group that it enters. -/
def Clears (h : Heap) (profileOf : ObjectType → Option TypeProfile) (maxDepth : Nat)
    (root : GroupId) (r r' : ValidationState) : Prop :=
  ∀ x ∈ r'.visited, x ∉ r.visited → Cleared h profileOf maxDepth root r'.visited x

theorem Clears.trans {r r₁ r₂ : ValidationState} (h₁ : Clears h profileOf maxDepth root r r₁)
    (h₂ : Clears h profileOf maxDepth root r₁ r₂) (hext : r₁.Extends r₂) :
    Clears h profileOf maxDepth root r r₂ := by
  intro x hin hnew
  by_cases hx : x ∈ r₁.visited
  · exact (h₁ x hx hnew).mono hext.visited
  · exact h₂ x hin hx

theorem clears_settle {r r₁ : ValidationState} {count : Nat} :
    Clears h profileOf maxDepth root r (r₁.settle g count) ↔
      Clears h profileOf maxDepth root r r₁ := by
  rw [Clears, Clears, visited_settle]

/-- What is done after entering a group clears the group as well, if it has found its items. -/
theorem Clears.enter {r r' : ValidationState}
    (hclears : Clears h profileOf maxDepth root (r.enter g) r')
    (hg : Cleared h profileOf maxDepth root r'.visited g) :
    Clears h profileOf maxDepth root r r' := by
  intro x hin hnew
  by_cases hx : x = g
  · rw [hx]
    exact hg
  · exact hclears x hin (List.not_mem_cons_of_ne_of_not_mem hx hnew)

/-- The way on which a group is entered does not repeat a group, and all of them are entered
then. -/
theorem OnWay.enter {entered : List GroupId}
    (ht : OnWay h profileOf maxDepth root entered (.group g implied depth)) (hnew : g ∉ entered) :
    ∃ trail, h.Way profileOf maxDepth root (g :: trail) implied depth ∧ (g :: trail).Nodup ∧
      g :: trail ⊆ g :: entered := by
  cases ht with
  | @group _ trail _ _ hway hnodup hentered =>
    exact ⟨trail, hway, List.nodup_cons.2 ⟨fun hno => hnew (hentered hno), hnodup⟩,
      List.cons_subset_cons g hentered⟩

/-- Entering a group on a way leads to its items, and to the groups above and below it. -/
theorem onWay_enter {entered : List GroupId}
    (hway : h.Way profileOf maxDepth root (g :: trail) implied depth) (hnodup : (g :: trail).Nodup)
    (hentered : g :: trail ⊆ entered) (hprofile : h.profileFor profileOf g implied = some d) :
    (∀ t ∈ h.itemChecks g d depth, OnWay h profileOf maxDepth root entered t) ∧
      ∀ t ∈ h.linkChecks g d depth, OnWay h profileOf maxDepth root entered t := by
  constructor
  · intro t ht
    obtain ⟨i, hi, rfl⟩ := List.mem_map.1 ht
    exact .item hway hnodup hentered hprofile hi
  · intro t ht
    rcases List.mem_append.1 ht with ht | ht
    · obtain ⟨s, hs, rfl⟩ := List.mem_map.1 ht
      exact .group (.toSuper hway hprofile (Option.mem_toList.1 hs)) hnodup hentered
    · obtain ⟨s, hs, rfl⟩ := List.mem_map.1 ht
      exact .group (.toSub hway hprofile hs) hnodup hentered

theorem mem_nestedChecks {t : CheckTask} {a : AttributeInfo}
    (ht : t ∈ h.nestedChecks maxDepth i a depth) :
    depth + 1 ≤ maxDepth ∧ ∃ side, ∃ y ∈ ((h.item i).slot side).groups,
      t = .group y (a.targetOn side) (depth + 1) := by
  unfold Heap.nestedChecks at ht
  split_ifs at ht with hdepth
  · refine ⟨hdepth, ?_⟩
    rcases List.mem_append.1 ht with ht | ht
    · obtain ⟨y, hy, rfl⟩ := List.mem_map.1 ht
      exact ⟨.value, y, hy, rfl⟩
    · obtain ⟨y, hy, rfl⟩ := List.mem_map.1 ht
      exact ⟨.key, y, hy, rfl⟩
  · exact absurd ht List.not_mem_nil

theorem group_mem_nestedChecks {a : AttributeInfo} (hdepth : depth + 1 ≤ maxDepth) (side : Side)
    (hy : y ∈ ((h.item i).slot side).groups) :
    .group y (a.targetOn side) (depth + 1) ∈ h.nestedChecks maxDepth i a depth := by
  rw [Heap.nestedChecks, if_pos hdepth, List.mem_append]
  cases side with
  | value => exact .inl (List.mem_map_of_mem hy)
  | key => exact .inr (List.mem_map_of_mem hy)

/-- Before a state without failures there are none. -/
theorem failures_eq_nil_of_extends {r r' : ValidationState} (hext : r.Extends r')
    (hr' : r'.failures = []) : r.failures = [] :=
  List.prefix_nil.1 (hr' ▸ hext.failures)

/-- Groups that a run flags are groups that it enters. -/
theorem mem_visited_of_flagged {r r' : ValidationState} (hext : r.Extends r')
    (hflags : ∀ x, r.heap.Flagged x → x ∈ r.visited) (x : GroupId) (hx : r'.heap.Flagged x) :
    x ∈ r'.visited :=
  (hext.flagged x hx).elim (fun hx => hext.visited (hflags x hx)) And.left

/-- **A run without failures clears the groups that it enters**, if only entered groups are flagged
before. -/
theorem Checks.clears {ts : List CheckTask} {r r' : ValidationState}
    (hrun : Checks h profileOf maxDepth ts r r') (hnone : r'.failures = [])
    (hflags : ∀ x, r.heap.Flagged x → x ∈ r.visited)
    (hts : ∀ t ∈ ts, OnWay h profileOf maxDepth root r.visited t) :
    (∀ t ∈ ts, Fulfilled h maxDepth r'.visited t) ∧ Clears h profileOf maxDepth root r r' := by
  induction hrun with
  | nil r =>
    exact ⟨fun _ ht => absurd ht List.not_mem_nil, fun _ hin hnew => absurd hin hnew⟩
  | @skip g implied depth rest r r' hdone hrest ih =>
    obtain ⟨hfulfilled, hclears⟩ := ih hnone hflags fun t ht => hts t (List.mem_cons_of_mem _ ht)
    have hg : g ∈ r'.visited := hrest.extension.visited (hdone.elim (hflags g) id)
    exact ⟨List.forall_mem_cons.2 ⟨.group hg, hfulfilled⟩, hclears⟩
  | @unresolved g implied depth rest r r' _ hnew hprofile hrest ih =>
    rw [List.forall_mem_cons] at hts
    obtain ⟨trail, hway, hnodup, -⟩ := hts.1.enter fun hno => hnew (.inr hno)
    have hsub : r.visited ⊆ g :: r.visited := List.subset_cons_self g _
    obtain ⟨hfulfilled, hclears⟩ := ih hnone (fun x hx => hsub (hflags x hx))
      fun t ht => (hts.2 t ht).mono hsub
    have hin : g ∈ r'.visited := hrest.extension.visited List.mem_cons_self
    -- a group whose type is unknown has no items to be found
    have hg : Cleared h profileOf maxDepth root r'.visited g :=
      ⟨trail, implied, depth, hway, hnodup, fun d hd => by rw [hprofile] at hd; cases hd⟩
    exact ⟨List.forall_mem_cons.2 ⟨.group hin, hfulfilled⟩, hclears.enter hg⟩
  | @enter g implied depth rest d r r₁ r₂ r' _ hnew hprofile hitems hlinks hrest ihitems ihlinks
      ihrest =>
    rw [List.forall_mem_cons] at hts
    have hnew : g ∉ r.visited := fun hno => hnew (.inr hno)
    obtain ⟨trail, hway, hnodup, hentered⟩ := hts.1.enter hnew
    obtain ⟨hitemTasks, hlinkTasks⟩ := onWay_enter hway hnodup hentered hprofile
    have hext₁ := hitems.extension.settle hnew r.failures.length
    have hext₂ := hext₁.trans hlinks.extension
    have hnone₂ := failures_eq_nil_of_extends hrest.extension hnone
    have hnone₁ := failures_eq_nil_of_extends hlinks.extension hnone₂
    rw [failures_settle] at hnone₁
    -- the items, and with them the group itself
    obtain ⟨hfulfilled₁, hclears₁⟩ := ihitems hnone₁
      (fun x hx => List.mem_cons_of_mem g (hflags x hx)) hitemTasks
    have hg : Cleared h profileOf maxDepth root r₁.visited g := by
      refine ⟨trail, implied, depth, hway, hnodup, fun d' hd i hi => ?_⟩
      obtain rfl := Option.some.inj (hprofile.symm.trans hd)
      cases hfulfilled₁ _ (List.mem_map_of_mem hi) with
      | item hi => exact hi
    have hclears₁ : Clears h profileOf maxDepth root r (r₁.settle g r.failures.length) :=
      clears_settle.2 (hclears₁.enter hg)
    -- the groups above and below it
    obtain ⟨-, hclears₂⟩ := ihlinks hnone₂ (mem_visited_of_flagged hext₁ hflags) fun t ht => by
      rw [visited_settle]
      exact (hlinkTasks t ht).mono hitems.extension.visited
    -- what is left
    obtain ⟨hfulfilled₃, hclears₃⟩ := ihrest hnone (mem_visited_of_flagged hext₂ hflags)
      fun t ht => (hts.2 t ht).mono hext₂.visited
    have hin : g ∈ r'.visited := by
      refine (hlinks.extension.trans hrest.extension).visited ?_
      rw [visited_settle]
      exact hitems.extension.visited List.mem_cons_self
    exact ⟨List.forall_mem_cons.2 ⟨.group hin, hfulfilled₃⟩,
      (hclears₁.trans hclears₂ hlinks.extension).trans hclears₃ hrest.extension⟩
  | unknown _ hrest =>
    have hno := failures_eq_nil_of_extends hrest.extension hnone
    exact absurd hno (List.append_ne_nil_of_right_ne_nil _ (List.cons_ne_nil _ _))
  | @known g i d depth rest a r r₁ r' hsome hnested hrest ihnested ihrest =>
    rw [List.forall_mem_cons] at hts
    cases hts.1 with
    | item hway hnodup hentered hprofile hi =>
      have hnone₁ := failures_eq_nil_of_extends hrest.extension hnone
      obtain ⟨hfulfilled₁, hclears₁⟩ := ihnested hnone₁ hflags fun t ht => by
        obtain ⟨hdepth, side, y, hy, rfl⟩ := mem_nestedChecks ht
        exact .group (.nested hway hprofile hi hsome hdepth side hy) hnodup hentered
      obtain ⟨hfulfilled₂, hclears₂⟩ :=
        ihrest hnone (mem_visited_of_flagged hnested.extension hflags)
          fun t ht => (hts.2 t ht).mono hnested.extension.visited
      have hfound : Found h maxDepth r₁.visited i d depth := by
        refine ⟨by rw [hsome]; rfl, fun hdepth side y hy => ?_⟩
        cases hfulfilled₁ _ (group_mem_nestedChecks hdepth side hy) with
        | group hg => exact hg
      exact ⟨List.forall_mem_cons.2 ⟨.item (hfound.mono hrest.extension.visited), hfulfilled₂⟩,
        hclears₁.trans hclears₂ hrest.extension⟩

/-! ### Walks where every group is cleared -/

section Covered

variable {entered : List GroupId} (htypes : h.MetAsOneType profileOf maxDepth root)
  (hlimit : h.MetAtOneLimit profileOf maxDepth root)
  (hcleared : ∀ x ∈ entered, Cleared h profileOf maxDepth root entered x)

include htypes hlimit hcleared

/-- A cleared group is as good as cleared on any other way to it. -/
theorem found_of_way (hx : x ∈ entered)
    (hway : h.Way profileOf maxDepth root (x :: trail) implied n)
    (hd : h.profileFor profileOf x implied = some d) (hi : i ∈ (h.group x).itemIds) :
    Found h maxDepth entered i d n := by
  obtain ⟨trail', implied', depth, hway', hnodup, hitems⟩ := hcleared x hx
  have hd' : h.profileFor profileOf x implied' = some d := by
    rw [Heap.profileFor, ← htypes x _ _ _ _ _ _ hway hway']
    exact hd
  obtain ⟨hsome, hnested⟩ := hitems d hd' i hi
  refine ⟨hsome, fun hn => hnested (Nat.succ_le_of_lt ?_)⟩
  -- else the group is met at the greatest depth, and further up on the other way
  refine Nat.lt_of_le_of_ne hway'.depth_le fun hdepth => ?_
  rw [hdepth] at hway'
  rw [hlimit x _ _ _ _ _ hway' hnodup hway] at hn
  exact Nat.not_succ_le_self _ hn

/-- A walk enters cleared groups only, and is a way to each of them. -/
theorem way_of_walk (hroot : root ∈ entered)
    (hdescribed : ∀ n x implied, h.Walk profileOf root n x implied → n ≤ maxDepth →
      (h.profileFor profileOf x implied).isSome = true)
    (hwalk : h.Walk profileOf root n x implied) (hn : n ≤ maxDepth) :
    x ∈ entered ∧ ∃ trail, h.Way profileOf maxDepth root (x :: trail) implied n := by
  induction hwalk with
  | start => exact ⟨hroot, [], .start⟩
  | @nested n x y implied i hwalk side hi hy ih =>
    have hle := Nat.le_of_succ_le hn
    obtain ⟨hx, trail, hway⟩ := ih hle
    obtain ⟨d, hd⟩ := Option.isSome_iff_exists.1 (hdescribed n x implied hwalk hle)
    obtain ⟨hsome, hnested⟩ := found_of_way htypes hlimit hcleared hx hway hd hi
    obtain ⟨a, ha⟩ := Option.isSome_iff_exists.1 hsome
    refine ⟨hnested hn side y hy, x :: trail, ?_⟩
    rw [Heap.impliedBelow_of_attribute? hd ha]
    exact .nested hway hd hi ha hn side hy

end Covered

namespace Heap

/-- A validation of groups that have not been checked before finds no failure, and all groups on
walks have a type that can be described. -/
structure FoundValid (h : Heap) (profileOf : ObjectType → Option TypeProfile)
    (policy : ValidationPolicy) (root : GroupId) : Prop where
  closed : h.Closed
  inHeap : h.HasGroup root
  unflagged : ∀ x, ¬ h.Flagged x
  described : ∀ n x implied, h.Walk profileOf root n x implied → n ≤ policy.maxDepth →
    (h.profileFor profileOf x implied).isSome = true
  answer : (h.validate root profileOf policy).answer = .ok []

/-- The type in force for a group has every attribute that the group declares. -/
def AttributesKnown (h : Heap) (profileOf : ObjectType → Option TypeProfile) (x : GroupId)
    (implied : Option ObjectType) : Prop :=
  ∃ d, h.profileFor profileOf x implied = some d ∧
    ∀ i ∈ (h.group x).itemIds, (d.attribute? (h.item i).name).isSome = true

/-- The run of a validation that answers with no failures has none. -/
theorem failures_eq_nil_of_answer {policy : ValidationPolicy}
    (hanswer : (h.validate g profileOf policy).answer = .ok []) :
    (h.validationEnd g profileOf policy.maxDepth).failures = [] := by
  unfold validate at hanswer
  dsimp only at hanswer
  split at hanswer
  · assumption
  · exact Except.ok.inj hanswer
  · cases hanswer

/-- **A validation without failures has checked every walk**, if each group is met as one type, and
those met at the greatest depth are met there only: each group on a walk has only attributes of the
type in force for it. -/
theorem attributesKnown_of_walk {policy : ValidationPolicy}
    (hvalid : h.FoundValid profileOf policy root)
    (htypes : h.MetAsOneType profileOf policy.maxDepth root)
    (hlimit : h.MetAtOneLimit profileOf policy.maxDepth root) :
    ∀ n x implied, h.Walk profileOf root n x implied → n ≤ policy.maxDepth →
      h.AttributesKnown profileOf x implied := by
  have hrun := checks_validationEnd hvalid.closed hvalid.inHeap (.refl h) profileOf policy.maxDepth
  generalize hend : h.validationEnd root profileOf policy.maxDepth = r' at hrun
  have hnone : r'.failures = [] := hend ▸ failures_eq_nil_of_answer hvalid.answer
  obtain ⟨hfulfilled, hclears⟩ : (∀ t ∈ [CheckTask.group root none 0],
      Fulfilled h policy.maxDepth r'.visited t) ∧
        Clears h profileOf policy.maxDepth root { heap := h } r' :=
    hrun.clears hnone (fun x hx => absurd hx (hvalid.unflagged x)) fun t ht => by
      rw [List.mem_singleton.1 ht]
      exact .group .start List.nodup_nil (List.nil_subset _)
  have hroot : root ∈ r'.visited := by
    cases hfulfilled _ List.mem_cons_self with
    | group hg => exact hg
  have hcleared : ∀ x ∈ r'.visited, Cleared h profileOf policy.maxDepth root r'.visited x :=
    fun x hx => hclears x hx List.not_mem_nil
  intro n x implied hwalk hn
  obtain ⟨hx, trail, hway⟩ := way_of_walk htypes hlimit hcleared hroot hvalid.described hwalk hn
  obtain ⟨d, hd⟩ := Option.isSome_iff_exists.1 (hvalid.described n x implied hwalk hn)
  exact ⟨d, hd, fun i hi => (found_of_way htypes hlimit hcleared hx hway hd hi).1⟩

/-- A team whose lead may be an employee, in a group of its own below that of the lead. -/
def crew : Heap where
  groups := #[
    { name := "team", type := some (.root "Team" "Team"), items := .ofList [("lead", ⟨0⟩)] },
    { name := "lead", nestedIn := some ⟨0⟩, below := some (.ofList [⟨2⟩])
      items := .ofList [("name", ⟨1⟩)] },
    { name := "employee", type := some (.sub "Employee" "Employee" (.root "Person" "Person"))
      above := some ⟨1⟩, nestedIn := some ⟨0⟩, items := .ofList [("salary", ⟨2⟩)] }]
  items := #[
    { name := "lead", owner := ⟨0⟩
      value := ⟨some ⟨1⟩, some (.ofList
        [(.type (.sub "Employee" "Employee" (.root "Person" "Person")), ⟨2⟩)])⟩ },
    { name := "name", owner := ⟨1⟩ },
    { name := "salary", owner := ⟨2⟩ }]
  variants := #[.generic]

/-- Only the team nests the group of the lead, as a person. -/
theorem impliedBelow_crew {side : Side} (hi : i ∈ (crew.group x).itemIds)
    (hlead : ⟨1⟩ ∈ ((crew.item i).slot side).groups) :
    crew.impliedBelow staffTypes.profile? x implied i side = some (.root "Person" "Person") := by
  obtain ⟨k⟩ := x
  match k with
  | 0 =>
    obtain rfl : i = ⟨0⟩ := by simpa using (show i ∈ [(⟨0⟩ : ItemId)] from hi)
    cases side with
    | value => rfl
    | key => cases hlead
  | 1 =>
    obtain rfl : i = ⟨1⟩ := by simpa using (show i ∈ [(⟨1⟩ : ItemId)] from hi)
    cases side <;> cases hlead
  | 2 =>
    obtain rfl : i = ⟨2⟩ := by simpa using (show i ∈ [(⟨2⟩ : ItemId)] from hi)
    cases side <;> cases hlead
  | k + 3 => cases hi

/-- The lead is met as a person: in the team, and above the employee. -/
theorem implied_crew
    (hway : crew.Way staffTypes.profile? maxDepth ⟨0⟩ (⟨1⟩ :: trail) implied depth) :
    implied = some (.root "Person" "Person") := by
  cases hway with
  | nested _ hprofile hi ha _ side hy =>
    rw [← impliedBelow_of_attribute? hprofile ha]
    exact impliedBelow_crew hi hy
  | @toSuper x _ _ _ _ _ _ hprofile hs =>
    obtain ⟨k⟩ := x
    match k with
    | 0 | 1 | k + 3 => cases hs
    | 2 =>
      obtain rfl := Option.some.inj hprofile
      rfl
  | @toSub x _ _ _ _ _ _ _ hs =>
    obtain ⟨k⟩ := x
    match k with
    | 0 | 2 | k + 3 => cases hs
    | 1 => exact absurd hs (by decide)

theorem metAsOneType_crew : crew.MetAsOneType staffTypes.profile? maxDepth ⟨0⟩ := by
  intro x trail implied depth trail' implied' depth' hway hway'
  have hin := hway.hasGroup (by decide) (by decide) x List.mem_cons_self
  obtain ⟨k⟩ := x
  match k with
  | 0 | 2 => rfl
  | 1 => rw [implied_crew hway, implied_crew hway']
  | k + 3 => exact absurd hin (by simp [HasGroup, crew])

theorem foundValid_crew : crew.FoundValid staffTypes.profile? {} ⟨0⟩ := by
  refine ⟨by decide, by decide,
    forall_group (P := fun x => ¬ x.validated = true) (by decide) (by decide),
    fun n x implied hwalk _ => ?_, rfl⟩
  have hin := hwalk.hasGroup (by decide) (by decide)
  obtain ⟨k⟩ := x
  match k with
  | 0 | 2 => rfl
  | 1 =>
    cases hwalk with
    | nested _ side hi hy =>
      rw [impliedBelow_crew hi hy]
      rfl
  | k + 3 => exact absurd hin (by simp [HasGroup, crew])

theorem attributesKnown_of_walk_crew :
    crew.FoundValid staffTypes.profile? {} ⟨0⟩ ∧
      crew.AttributesKnown staffTypes.profile? ⟨1⟩ (some (.root "Person" "Person")) :=
  ⟨foundValid_crew,
    attributesKnown_of_walk foundValid_crew metAsOneType_crew
      (metAtOneLimit_of_size (by decide) (by decide) (by decide)) 1 ⟨1⟩ _
      (.nested .start .value (i := ⟨0⟩) (by decide) (by decide)) (by decide)⟩

/-! ### Walks that a validation misses -/

/-- Persons at home in a street, and with an office in a city. -/
def homeTypes : Registry :=
  let country := .root "Country" "Country"
  let city := .root "City" "City"
  let street := .root "Street" "Street"
  (((((default : Registry).register country none [⟨"code", none, none⟩]).register
    city none [⟨"country", some country, none⟩]).register
    street none [⟨"lane", none, none⟩, ⟨"city", some city, none⟩]).register
    (.root "Person" "Person") none [⟨"home", some street, none⟩, ⟨"office", some city, none⟩])

/-- A person with one place for home and office. -/
def lodger : Heap where
  groups := #[
    { name := "person", type := some (.root "Person" "Person")
      items := .ofList [("home", ⟨0⟩), ("office", ⟨1⟩)] },
    { name := "place", nestedIn := some ⟨1⟩, items := .ofList [("lane", ⟨2⟩)] }]
  items := #[
    { name := "home", owner := ⟨0⟩, value := { primary := some ⟨1⟩ } },
    { name := "office", owner := ⟨0⟩, value := { primary := some ⟨1⟩ } },
    { name := "lane", owner := ⟨1⟩ }]
  variants := #[.generic]

/-- A person whose home lies in the city of the office. -/
def settler : Heap where
  groups := #[
    { name := "country", type := some (.root "Country" "Country"), nestedIn := some ⟨1⟩
      items := .ofList [("anthem", ⟨0⟩)] },
    { name := "city", type := some (.root "City" "City"), nestedIn := some ⟨4⟩
      items := .ofList [("country", ⟨1⟩)] },
    { name := "street", type := some (.root "Street" "Street"), nestedIn := some ⟨3⟩
      items := .ofList [("city", ⟨2⟩)] },
    { name := "person", type := some (.root "Person" "Person")
      items := .ofList [("home", ⟨3⟩), ("office", ⟨4⟩)] }]
  items := #[
    { name := "anthem", owner := ⟨0⟩ },
    { name := "country", owner := ⟨1⟩, value := { primary := some ⟨0⟩ } },
    { name := "city", owner := ⟨2⟩, value := { primary := some ⟨1⟩ } },
    { name := "home", owner := ⟨3⟩, value := { primary := some ⟨2⟩ } },
    { name := "office", owner := ⟨3⟩, value := { primary := some ⟨1⟩ } }]
  variants := #[.generic]

theorem foundValid_lodger : lodger.FoundValid homeTypes.profile? {} ⟨0⟩ := by
  refine ⟨by decide, by decide,
    forall_group (P := fun x => ¬ x.validated = true) (by decide) (by decide),
    fun n y implied hwalk _ => ?_, rfl⟩
  cases hwalk with
  | start => rfl
  | @nested _ x _ _ i _ side hi hy =>
    obtain ⟨k⟩ := x
    match k with
    | 0 =>
      have hi : i = ⟨0⟩ ∨ i = ⟨1⟩ := by simpa using (show i ∈ [(⟨0⟩ : ItemId), ⟨1⟩] from hi)
      rcases hi with rfl | rfl
      all_goals
        cases side with
        | value =>
          obtain rfl : y = ⟨1⟩ := by simpa using (show y ∈ [(⟨1⟩ : GroupId)] from hy)
          rfl
        | key => cases hy
    | 1 =>
      obtain rfl : i = ⟨2⟩ := by simpa using (show i ∈ [(⟨2⟩ : ItemId)] from hi)
      cases side <;> cases hy
    | k + 2 => cases hi

theorem foundValid_settler :
    settler.FoundValid homeTypes.profile? { maxDepth := 2 } ⟨3⟩ := by
  refine ⟨by decide, by decide,
    forall_group (P := fun x => ¬ x.validated = true) (by decide) (by decide),
    fun n x implied hwalk _ => ?_, rfl⟩
  have hin := hwalk.hasGroup (by decide) (by decide)
  obtain ⟨k⟩ := x
  match k with
  | 0 | 1 | 2 | 3 => rfl
  | k + 4 => exact absurd hin (by simp [HasGroup, settler])

/-- **Both conditions are needed.**  The place is met as the street of the home, so nobody asks the
city of the office for its lane.  The city is met in the street, too deep to go on to the country,
and is not entered again as the city of the office. -/
theorem walks_missed :
    (lodger.FoundValid homeTypes.profile? {} ⟨0⟩ ∧
      lodger.MetAtOneLimit homeTypes.profile? 32 ⟨0⟩ ∧
      ∃ n x implied, lodger.Walk homeTypes.profile? ⟨0⟩ n x implied ∧ n ≤ 32 ∧
        ¬ lodger.AttributesKnown homeTypes.profile? x implied) ∧
    settler.FoundValid homeTypes.profile? { maxDepth := 2 } ⟨3⟩ ∧
      settler.MetAsOneType homeTypes.profile? 2 ⟨3⟩ ∧
      ∃ n x implied, settler.Walk homeTypes.profile? ⟨3⟩ n x implied ∧ n ≤ 2 ∧
        ¬ settler.AttributesKnown homeTypes.profile? x implied := by
  refine ⟨⟨foundValid_lodger, metAtOneLimit_of_size (by decide) (by decide) (by decide), ?_⟩,
    foundValid_settler, metAsOneType_of_typed (by decide) (by decide) ?_, ?_⟩
  · have hoffice : lodger.Walk homeTypes.profile? ⟨0⟩ 1 ⟨1⟩ (some (.root "City" "City")) :=
      .nested .start .value (i := ⟨1⟩) (by decide) (by decide)
    refine ⟨1, ⟨1⟩, _, hoffice, by decide, ?_⟩
    rintro ⟨d, hd, hall⟩
    obtain rfl := Option.some.inj hd
    exact absurd (hall ⟨2⟩ (by decide)) (by decide)
  · have htyped : ∀ x ∈ settler.groupIds, (settler.group x).type.isSome = true := by decide
    exact fun x hx => htyped x (mem_groupIds.2 hx)
  · have hoffice : settler.Walk homeTypes.profile? ⟨3⟩ 1 ⟨1⟩ (some (.root "City" "City")) :=
      .nested .start .value (i := ⟨4⟩) (by decide) (by decide)
    have hcountry : settler.Walk homeTypes.profile? ⟨3⟩ 2 ⟨0⟩ (some (.root "Country" "Country")) :=
      .nested hoffice .value (i := ⟨1⟩) (by decide) (by decide)
    refine ⟨2, ⟨0⟩, _, hcountry, by decide, ?_⟩
    rintro ⟨d, hd, hall⟩
    obtain rfl := Option.some.inj hd
    exact absurd (hall ⟨0⟩ (by decide)) (by decide)

end Heap

end AttributeGraph
