/-
What a validation of a tree finds.

A tree is met in one way only: every group of it is nested in one item, by one side,
and the item belongs to one group (`IsTree`).  Below different groups of an item, and
below different items of a group, lie different groups, so a validation never comes to
a group of the tree that it has entered before.

The faults of a tree are then what one reads off it from the root downwards
(`faults`): an item is at fault if the type of its group does not have the attribute,
and only items without fault lead on.  `Effect` says what a stretch of a run adds to
its state.  It is put together as the list of faults is, by one lemma for the tasks of
a list (`Effect.tasks`), and the main induction is on the levels of the tree that the
validation may still look at.
-/
import AttributeGraph.Proofs.Climbing
import AttributeGraph.Proofs.Revalidating
import Mathlib.Data.List.Induction

namespace AttributeGraph

open ValidationState

/-- An attribute that its type does not have: the names that lead to its group, the item, and what
it was looked up in. -/
structure Fault where
  names : List String
  item : ItemId
  profile : TypeProfile

namespace Heap

variable {h : Heap} {profileOf : ObjectType → Option TypeProfile} {maxDepth levels depth : Nat}
  {root x y z : GroupId} {i j : ItemId} {names names' : List String} {d : TypeProfile}
  {implied implied' : Option ObjectType} {r r₁ r₂ r' : ValidationState}

/-! ### Faults -/

/-- What is said of a fault. -/
def failureOf (h : Heap) (f : Fault) : Failure where
  path := Path.join (Path.format f.names) (h.item f.item).name
  message := s!"Attribute '{(h.item f.item).name}' is not defined on {f.profile.type.name}"
  typeName := some f.profile.type.name

/-- The groups nested in an item, each of a side once: first those of the value, then those of the
keys. -/
def nestedOn (h : Heap) (i : ItemId) : List (Side × GroupId) :=
  [Side.value, Side.key].flatMap fun side =>
    (OrderedSet.ofList ((h.item i).slot side).groups).toList.map (Prod.mk side)

/-- A group lies in the tree of one of the groups that are nested in an item. -/
def BelowItem (h : Heap) (i : ItemId) (z : GroupId) : Prop := ∃ n ∈ h.nestedOn i, h.Within n.2 z

/-- The fault of an item, or those of the groups nested in it. -/
def faultsAt (h : Heap) (below : List String → GroupId → Option ObjectType → List Fault)
    (names : List String) (d : TypeProfile) (i : ItemId) : List Fault :=
  match d.attribute? (h.item i).name with
  | none => [⟨names, i, d⟩]
  | some a => (h.nestedOn i).flatMap fun n =>
      below (names ++ [(h.item i).name]) n.2 (a.targetOn n.1)

/-- The faults of a group and of the groups below it, on a number of levels: item by item, and depth
first. -/
def faults (h : Heap) (profileOf : ObjectType → Option TypeProfile) :
    Nat → List String → GroupId → Option ObjectType → List Fault
  | 0, _, _, _ => []
  | levels + 1, names, x, implied =>
    match h.profileFor profileOf x implied with
    | none => []
    | some d => (h.group x).itemIds.flatMap (h.faultsAt (h.faults profileOf levels) names d)

/-- The attributes of types lead from a group, for which a type may be implied, past the named items
to another group and the type implied there. -/
inductive KnownWay (h : Heap) (profileOf : ObjectType → Option TypeProfile) :
    GroupId → Option ObjectType → List String → GroupId → Option ObjectType → Prop
  | here (x : GroupId) (implied : Option ObjectType) : KnownWay h profileOf x implied [] x implied
  | nested {x y z : GroupId} {implied implied' : Option ObjectType} {names : List String}
      {d : TypeProfile} {i : ItemId} {a : AttributeInfo}
      (hprofile : h.profileFor profileOf x implied = some d) (hi : i ∈ (h.group x).itemIds)
      (ha : d.attribute? (h.item i).name = some a) (side : Side)
      (hy : y ∈ ((h.item i).slot side).groups)
      (hway : KnownWay h profileOf y (a.targetOn side) names z implied') :
      KnownWay h profileOf x implied ((h.item i).name :: names) z implied'

/-- An item of a group on the first levels below another one has an attribute that the type in force
there does not have. -/
def FaultBelow (h : Heap) (profileOf : ObjectType → Option TypeProfile) (levels : Nat)
    (names : List String) (x : GroupId) (implied : Option ObjectType) (f : Fault) : Prop :=
  ∃ names' y implied', h.KnownWay profileOf x implied names' y implied' ∧ names'.length < levels ∧
    f.names = names ++ names' ∧ f.item ∈ (h.group y).itemIds ∧
    h.profileFor profileOf y implied' = some f.profile ∧
    f.profile.attribute? (h.item f.item).name = none

/-- Attributes lead to a group on one of the first levels, and there is no fault from there on. -/
def CleanBelow (h : Heap) (profileOf : ObjectType → Option TypeProfile) (levels : Nat)
    (names : List String) (x : GroupId) (implied : Option ObjectType) (z : GroupId) : Prop :=
  ∃ names' implied', h.KnownWay profileOf x implied names' z implied' ∧ names'.length < levels ∧
    h.faults profileOf (levels - names'.length) (names ++ names') z implied' = []

theorem mem_nestedOn {n : Side × GroupId} :
    n ∈ h.nestedOn i ↔ n.2 ∈ ((h.item i).slot n.1).groups := by
  obtain ⟨side, y⟩ := n
  cases side <;> simp [nestedOn]

theorem KnownWay.within (hway : h.KnownWay profileOf x implied names z implied') :
    h.Within x z := by
  induction hway with
  | here => exact .refl
  | nested _ hi _ side hy _ ih => exact .head (.intro side hi hy) ih

theorem faults_succ (hprofile : h.profileFor profileOf x implied = some d) :
    h.faults profileOf (levels + 1) names x implied =
      (h.group x).itemIds.flatMap (h.faultsAt (h.faults profileOf levels) names d) := by
  rw [faults, hprofile]

/-- At an item there is its fault, or those of the groups nested in it. -/
theorem mem_faultsAt {below : List String → GroupId → Option ObjectType → List Fault} {f : Fault} :
    f ∈ h.faultsAt below names d i ↔
      (d.attribute? (h.item i).name = none ∧ f = ⟨names, i, d⟩) ∨
      ∃ a, d.attribute? (h.item i).name = some a ∧ ∃ n ∈ h.nestedOn i,
        f ∈ below (names ++ [(h.item i).name]) n.2 (a.targetOn n.1) := by
  rw [faultsAt]
  cases d.attribute? (h.item i).name with
  | none => simp
  | some a => simp

/-- Without a profile there is no fault. -/
theorem not_faultBelow {f : Fault} (hprofile : h.profileFor profileOf x implied = none) :
    ¬ h.FaultBelow profileOf levels names x implied f := by
  rintro ⟨_, _, _, hway, -, -, -, hprofile', -⟩
  cases hway with
  | here =>
    rw [hprofile] at hprofile'
    cases hprofile'
  | nested hprofile' =>
    rw [hprofile] at hprofile'
    cases hprofile'

/-- A fault is that of an item of the group, or it lies below a group that is nested in an item. -/
theorem faultBelow_succ {f : Fault} (hprofile : h.profileFor profileOf x implied = some d) :
    h.FaultBelow profileOf (levels + 1) names x implied f ↔
      ∃ i ∈ (h.group x).itemIds,
        (d.attribute? (h.item i).name = none ∧ f = ⟨names, i, d⟩) ∨
        ∃ a, d.attribute? (h.item i).name = some a ∧ ∃ n ∈ h.nestedOn i,
          h.FaultBelow profileOf levels (names ++ [(h.item i).name]) n.2 (a.targetOn n.1) f := by
  constructor
  · rintro ⟨names', z, implied', hway, hlt, hnames, hitem, hprofile', hnone⟩
    cases hway with
    | here =>
      obtain ⟨fnames, i, e⟩ := f
      obtain rfl := Option.some.inj (hprofile.symm.trans hprofile')
      obtain rfl : fnames = names := hnames.trans (List.append_nil names)
      exact ⟨i, hitem, .inl ⟨hnone, rfl⟩⟩
    | @nested _ y _ _ _ names' d' i a hprofile'' hi ha side hy hway =>
      obtain rfl := Option.some.inj (hprofile.symm.trans hprofile'')
      refine ⟨i, hi, .inr ⟨a, ha, (side, y), mem_nestedOn.2 hy, names', z, implied', hway,
        Nat.lt_of_succ_lt_succ hlt, ?_, hitem, hprofile', hnone⟩⟩
      rw [hnames, List.append_assoc, List.singleton_append]
  · rintro ⟨i, hi, ⟨hnone, rfl⟩ | ⟨a, ha, n, hn, names', z, implied', hway, hlt, hnames, hrest⟩⟩
    · exact ⟨[], x, implied, .here x implied, Nat.succ_pos _, (List.append_nil _).symm, hi,
        hprofile, hnone⟩
    · refine ⟨(h.item i).name :: names', z, implied',
        .nested hprofile hi ha n.1 (mem_nestedOn.1 hn) hway, Nat.succ_lt_succ hlt, ?_, hrest⟩
      rw [hnames, List.append_assoc, List.singleton_append]

/-- **The list holds the faults below a group and no others.** -/
theorem mem_faults {f : Fault} : f ∈ h.faults profileOf levels names x implied ↔
    h.FaultBelow profileOf levels names x implied f := by
  induction levels generalizing names x implied with
  | zero =>
    refine iff_of_false List.not_mem_nil ?_
    rintro ⟨_, _, _, _, hno, -⟩
    exact Nat.not_lt_zero _ hno
  | succ levels ih =>
    cases hprofile : h.profileFor profileOf x implied with
    | none =>
      rw [faults, hprofile]
      exact iff_of_false List.not_mem_nil (not_faultBelow hprofile)
    | some d =>
      rw [faults_succ hprofile, List.mem_flatMap, faultBelow_succ hprofile]
      simp only [mem_faultsAt, ih]

/-- A group is clean on its own account, or it lies below one that is nested in an item. -/
theorem cleanBelow_succ (hprofile : h.profileFor profileOf x implied = some d) :
    h.CleanBelow profileOf (levels + 1) names x implied z ↔
      (z = x ∧ h.faults profileOf (levels + 1) names x implied = []) ∨
      ∃ i ∈ (h.group x).itemIds, ∃ a, d.attribute? (h.item i).name = some a ∧
        ∃ n ∈ h.nestedOn i, h.CleanBelow profileOf levels (names ++ [(h.item i).name]) n.2
          (a.targetOn n.1) z := by
  constructor
  · rintro ⟨names', implied', hway, hlt, hnone⟩
    cases hway with
    | here =>
      rw [List.append_nil] at hnone
      exact .inl ⟨rfl, hnone⟩
    | @nested _ y _ _ _ names' d' i a hprofile' hi ha side hy hway =>
      obtain rfl := Option.some.inj (hprofile.symm.trans hprofile')
      refine .inr ⟨i, hi, a, ha, (side, y), mem_nestedOn.2 hy, names', implied', hway,
        Nat.lt_of_succ_lt_succ hlt, ?_⟩
      rw [List.length_cons, Nat.succ_sub_succ] at hnone
      rwa [List.append_assoc, List.singleton_append]
  · rintro (⟨rfl, hnone⟩ | ⟨i, hi, a, ha, n, hn, names', implied', hway, hlt, hnone⟩)
    · exact ⟨[], implied, .here z implied, Nat.succ_pos _, by rwa [List.append_nil]⟩
    · refine ⟨(h.item i).name :: names', implied',
        .nested hprofile hi ha n.1 (mem_nestedOn.1 hn) hway, Nat.succ_lt_succ hlt, ?_⟩
      rw [List.append_assoc, List.singleton_append] at hnone
      rwa [List.length_cons, Nat.succ_sub_succ]

/-! ### Trees -/

/-- The groups nested below a root, at any depth, form a tree of groups that have no links to groups
above or below them and are not flagged. -/
structure IsTree (h : Heap) (root : GroupId) : Prop where
  /-- The root is nested nowhere. -/
  top : (h.group root).nestedIn = none
  owner : ∀ x, h.Within root x → ∀ i ∈ (h.group x).itemIds, (h.item i).owner = x
  /-- A group lists an item once. -/
  items : ∀ x, h.Within root x → (h.group x).itemIds.Nodup
  /-- A nested group is nested where it says, and so in one item only. -/
  nested : ∀ x, h.Within root x → ∀ i ∈ (h.group x).itemIds, ∀ side,
    ∀ y ∈ ((h.item i).slot side).groups, (h.group y).nestedIn = some i
  /-- It is on one side of the item. -/
  sides : ∀ x, h.Within root x → ∀ i ∈ (h.group x).itemIds,
    ∀ y ∈ ((h.item i).slot .value).groups, y ∉ ((h.item i).slot .key).groups
  unlinked : ∀ x, h.Within root x → (h.group x).above = none ∧ (h.group x).subs = []
  unflagged : ∀ x, h.Within root x → ¬ h.Flagged x

namespace IsTree

variable (htree : h.IsTree root)

include htree

/-- The names that lead down to a group lead up from it. -/
theorem climbs_nested (hx : h.Within root x) (hup : h.Climbs root names x)
    (hi : i ∈ (h.group x).itemIds) {side : Side} (hy : y ∈ ((h.item i).slot side).groups) :
    h.Climbs root (names ++ [(h.item i).name]) y := by
  rw [← htree.owner x hx i hi] at hup
  exact .step hup (htree.nested x hx i hi side y hy)

/-- Only one group nests a group. -/
theorem nests_unique (hx : h.Within root x) (hxz : h.Nests x z) (hy : h.Within root y)
    (hyz : h.Nests y z) : x = y := by
  obtain ⟨side, hi, hz⟩ := hxz
  obtain ⟨side', hj, hz'⟩ := hyz
  have hij := (htree.nested x hx _ hi side z hz).symm.trans (htree.nested y hy _ hj side' z hz')
  have hx' := htree.owner x hx _ hi
  rw [Option.some.inj hij, htree.owner y hy _ hj] at hx'
  exact hx'.symm

/-- Further down in the tree the way up is longer. -/
theorem exists_climbs (hx : h.Within root x) (hup : h.Climbs root names x) (hz : h.Within x z) :
    ∃ more, h.Climbs root (names ++ more) z ∧ (more = [] → z = x) := by
  induction hz with
  | refl => exact ⟨[], by rwa [List.append_nil], fun _ => rfl⟩
  | @tail y z hxy hyz ih =>
    obtain ⟨more, hup', -⟩ := ih
    obtain ⟨side, hi, hz⟩ := hyz
    have hup'' := htree.climbs_nested (Relation.ReflTransGen.trans hx hxy) hup' hi hz
    rw [List.append_assoc] at hup''
    exact ⟨_, hup'', fun hno => absurd hno (List.append_ne_nil_of_right_ne_nil _ (by simp))⟩

/-- No group lies below the groups that are nested in it. -/
theorem not_within_nested (hx : h.Within root x) (hup : h.Climbs root names x)
    (hxy : h.Nests x y) : ¬ h.Within y x := by
  intro hno
  obtain ⟨side, hi, hy⟩ := hxy
  obtain ⟨more, hup', -⟩ := htree.exists_climbs
    (Relation.ReflTransGen.tail hx (.intro side hi hy)) (htree.climbs_nested hx hup hi hy) hno
  have hlength := congrArg List.length (hup.unique hup').2
  simp only [List.length_append, List.length_singleton] at hlength
  omega

/-- **Below different groups with ways up of one length lie different groups.** -/
theorem eq_of_within (hx : h.Within root x) (hy : h.Within root y) (hup : h.Climbs root names x)
    (hup' : h.Climbs root names' y) (hlength : names.length = names'.length)
    (hxz : h.Within x z) (hyz : h.Within y z) : x = y := by
  induction hxz with
  | refl =>
    obtain ⟨more, hup₁, heq⟩ := htree.exists_climbs hy hup' hyz
    rw [(hup.unique hup₁).2, List.length_append] at hlength
    exact heq (List.length_eq_zero_iff.1 (by omega))
  | @tail u z hxu huz ih =>
    have hu : h.Within root u := Relation.ReflTransGen.trans hx hxu
    rcases Relation.ReflTransGen.cases_tail hyz with rfl | ⟨v, hyv, hvz⟩
    · -- the second group would have the longer way up
      obtain ⟨more, hup₁, -⟩ := htree.exists_climbs hx hup hxu
      obtain ⟨side, hi, hz⟩ := huz
      rw [(hup'.unique (htree.climbs_nested hu hup₁ hi hz)).2] at hlength
      simp only [List.length_append, List.length_singleton] at hlength
      omega
    · have hv : h.Within root v := Relation.ReflTransGen.trans hy hyv
      obtain rfl := htree.nests_unique hu huz hv hvz
      exact ih hyv

/-- Different groups nested in one group have no group below in common. -/
theorem not_within_both (hx : h.Within root x) (hup : h.Climbs root names x) (hxy : h.Nests x y)
    (hxz : h.Nests x z) (hne : y ≠ z) {w : GroupId} (hyw : h.Within y w) : ¬ h.Within z w := by
  intro hzw
  obtain ⟨side, hi, hy⟩ := hxy
  obtain ⟨side', hj, hz⟩ := hxz
  refine hne (htree.eq_of_within (Relation.ReflTransGen.tail hx (.intro side hi hy))
    (Relation.ReflTransGen.tail hx (.intro side' hj hz)) (htree.climbs_nested hx hup hi hy)
    (htree.climbs_nested hx hup hj hz) ?_ hyw hzw)
  rw [List.length_append, List.length_append, List.length_singleton, List.length_singleton]

theorem pairwise_nestedOn (hx : h.Within root x) (hi : i ∈ (h.group x).itemIds) :
    (h.nestedOn i).Pairwise fun m n => m.2 ≠ n.2 := by
  rw [nestedOn, List.flatMap_cons, List.flatMap_singleton, List.pairwise_append, List.pairwise_map,
    List.pairwise_map]
  refine ⟨(OrderedSet.ofList _).nodup, (OrderedSet.ofList _).nodup, ?_⟩
  intro m hm n hn
  obtain ⟨y, hy, rfl⟩ := List.mem_map.1 hm
  obtain ⟨z, hz, rfl⟩ := List.mem_map.1 hn
  rintro rfl
  exact htree.sides x hx i hi _ (OrderedSet.mem_ofList.1 hy) (OrderedSet.mem_ofList.1 hz)

/-- Below different items of a group lie different groups. -/
theorem apart_items (hx : h.Within root x) (hup : h.Climbs root names x)
    (hi : i ∈ (h.group x).itemIds) (hj : j ∈ (h.group x).itemIds) (hne : i ≠ j)
    (hz : h.BelowItem i z) : ¬ h.BelowItem j z := by
  rintro ⟨n, hn, hz'⟩
  obtain ⟨m, hm, hz⟩ := hz
  have hm := mem_nestedOn.1 hm
  have hn := mem_nestedOn.1 hn
  refine htree.not_within_both hx hup (.intro _ hi hm) (.intro _ hj hn) ?_ hz hz'
  intro heq
  have hnested := htree.nested x hx i hi m.1 m.2 hm
  rw [heq, htree.nested x hx j hj n.1 n.2 hn] at hnested
  exact hne (Option.some.inj hnested).symm

/-- Below the items of a group lie groups other than the group itself. -/
theorem ne_of_belowItem (hx : h.Within root x) (hup : h.Climbs root names x)
    (hi : i ∈ (h.group x).itemIds) (hz : h.BelowItem i z) : z ≠ x := by
  obtain ⟨n, hn, hz⟩ := hz
  rintro rfl
  exact htree.not_within_nested hx hup (.intro _ hi (mem_nestedOn.1 hn)) hz

end IsTree

theorem within_of_belowItem (hi : i ∈ (h.group x).itemIds) (hz : h.BelowItem i z) :
    h.Within x z := by
  obtain ⟨n, hn, hz⟩ := hz
  exact .head (.intro _ hi (mem_nestedOn.1 hn)) hz

/-! ### What a stretch of a run does -/

/-- What a stretch of a run adds to the state: failures, groups that it enters at most, and groups
that it flags. -/
structure Effect (h : Heap) (fs : List Fault) (entered flagged : GroupId → Prop)
    (r r' : ValidationState) : Prop where
  failures : r'.failures = r.failures ++ fs.map h.failureOf
  diagnostics : r'.diagnostics = r.diagnostics
  visited : ∀ x ∈ r'.visited, x ∈ r.visited ∨ entered x
  flags : ∀ x, r'.heap.Flagged x ↔ r.heap.Flagged x ∨ flagged x

/-- A run has not come to any of some groups. -/
structure Fresh (h : Heap) (p : GroupId → Prop) (r : ValidationState) : Prop where
  heap : h.Flagging r.heap
  new : ∀ x, p x → ¬ r.Done x

section Effect

variable {fs fs' : List Fault} {entered entered' flagged flagged' p : GroupId → Prop}

theorem Effect.refl (h : Heap) (r : ValidationState) :
    h.Effect [] (fun _ => False) (fun _ => False) r r :=
  ⟨(List.append_nil _).symm, rfl, fun _ => .inl, fun _ => (or_false _).symm ▸ Iff.rfl⟩

theorem Effect.trans (h₁ : h.Effect fs entered flagged r r₁)
    (h₂ : h.Effect fs' entered' flagged' r₁ r₂) :
    h.Effect (fs ++ fs') (fun x => entered x ∨ entered' x) (fun x => flagged x ∨ flagged' x)
      r r₂ := by
  refine ⟨?_, h₂.diagnostics.trans h₁.diagnostics, fun x hx => ?_, fun x => ?_⟩
  · rw [h₂.failures, h₁.failures, List.map_append, List.append_assoc]
  · rcases h₂.visited x hx with hx | hx
    · exact (h₁.visited x hx).imp_right .inl
    · exact .inr (.inr hx)
  · rw [h₂.flags, h₁.flags, or_assoc]

theorem Effect.congr (he : h.Effect fs entered flagged r r')
    (hentered : ∀ x, entered x → entered' x) (hflagged : ∀ x, flagged x ↔ flagged' x) :
    h.Effect fs entered' flagged' r r' :=
  ⟨he.failures, he.diagnostics, fun x hx => (he.visited x hx).imp_right (hentered x),
    fun x => (he.flags x).trans (or_congr_right (hflagged x))⟩

/-- Settling the group that was entered before flags it if there are no faults. -/
theorem Effect.settle (he : h.Effect fs entered flagged (r.enter x) r₁) (hin : r₁.heap.HasGroup x) :
    h.Effect fs (fun z => z = x ∨ entered z) (fun z => flagged z ∨ z = x ∧ fs = []) r
      (r₁.settle x r.failures.length) := by
  have hlength : r₁.failures.length = r.failures.length ↔ fs = [] := by
    rw [he.failures, List.length_append, List.length_map]
    simp [ValidationState.enter]
  refine ⟨?_, ?_, fun z hz => ?_, fun z => ?_⟩
  · rw [failures_settle]
    exact he.failures
  · rw [diagnostics_settle]
    exact he.diagnostics
  · rw [visited_settle] at hz
    rcases he.visited z hz with hz | hz
    · exact (List.mem_cons.1 hz).symm.imp_right .inl
    · exact .inr (.inr hz)
  · rw [flagged_settle, he.flags, hlength, or_assoc]
    refine or_congr_right (or_congr_right (and_congr_right fun hzx => ?_))
    exact and_iff_left hin

theorem Fresh.mono {q : GroupId → Prop} (hfresh : h.Fresh p r) (hq : ∀ x, q x → p x) :
    h.Fresh q r :=
  ⟨hfresh.heap, fun x hx => hfresh.new x (hq x hx)⟩

/-- A stretch of a run comes to no group that it does not enter. -/
theorem Fresh.after (hfresh : h.Fresh p r) (hext : r.Extends r₁)
    (he : h.Effect fs entered flagged r r₁) (hapart : ∀ x, entered x → ¬ p x) : h.Fresh p r₁ := by
  refine ⟨hfresh.heap.trans hext.heap, fun x hx hdone => ?_⟩
  have hvisited : x ∉ r₁.visited := fun hno =>
    (he.visited x hno).elim (fun hno => hfresh.new x hx (.inr hno)) fun hno => hapart x hno hx
  rcases hdone with hflag | hno
  · exact (hext.flagged x hflag).elim (fun hno => hfresh.new x hx (.inl hno))
      fun hno => hvisited hno.1
  · exact hvisited hno

/-- **The effects of tasks that enter different groups are put together.** -/
theorem Effect.tasks {α : Type} {task : α → CheckTask} {fs : α → List Fault}
    {entered flagged : α → GroupId → Prop} {l : List α}
    (hone : ∀ a ∈ l, ∀ r r', h.Fresh (entered a) r → Checks h profileOf maxDepth [task a] r r' →
      h.Effect (fs a) (entered a) (flagged a) r r')
    (hapart : l.Pairwise fun a b => ∀ x, entered a x → ¬ entered b x)
    (hfresh : ∀ a ∈ l, h.Fresh (entered a) r)
    (hrun : Checks h profileOf maxDepth (l.map task) r r') :
    h.Effect (l.flatMap fs) (fun x => ∃ a ∈ l, entered a x) (fun x => ∃ a ∈ l, flagged a x)
      r r' := by
  induction l generalizing r with
  | nil =>
    cases hrun
    exact (Effect.refl h r').congr (fun _ => False.elim) fun x => by simp
  | cons a l ih =>
    obtain ⟨hhead, htail⟩ := List.pairwise_cons.1 hapart
    obtain ⟨r₁, hfirst, hrest⟩ := hrun.exists_of_cons
    have he₁ := hone a List.mem_cons_self r r₁ (hfresh a List.mem_cons_self) hfirst
    have he₂ := ih (fun b hb => hone b (List.mem_cons_of_mem a hb)) htail
      (fun b hb => (hfresh b (List.mem_cons_of_mem a hb)).after hfirst.extension he₁ (hhead b hb))
      hrest
    exact (he₁.trans he₂).congr (fun x hx => by simpa using hx) fun x => by simp

end Effect

/-! ### The groups nested in an item -/

/-- A group that is entered a second time is passed over. -/
theorem checks_ofList {l : List GroupId}
    (hrun : Checks h profileOf maxDepth (l.map fun y => .group y implied depth) r r') :
    Checks h profileOf maxDepth ((OrderedSet.ofList l).toList.map fun y => .group y implied depth)
      r r' := by
  induction l using List.reverseRecOn generalizing r' with
  | nil => exact hrun
  | append_singleton l y ih =>
    rw [List.map_append] at hrun
    obtain ⟨r₁, hfirst, hlast⟩ := hrun.exists_of_append
    rw [OrderedSet.ofList, List.foldl_append, List.foldl_cons, List.foldl_nil,
      OrderedSet.toList_insert]
    split_ifs with hy
    · have hmem : y ∈ l := OrderedSet.mem_ofList.1 hy
      have hdone := hfirst.done_of_mem (List.mem_map.2 ⟨y, hmem, rfl⟩)
      rw [Checks.unique hlast (.skip hdone (.nil r₁))]
      exact ih hfirst
    · rw [List.map_append]
      exact (ih hfirst).append hlast

theorem checks_nestedOn {a : AttributeInfo} (hdepth : depth + 1 ≤ maxDepth)
    (hrun : Checks h profileOf maxDepth (h.nestedChecks maxDepth i a depth) r r') :
    Checks h profileOf maxDepth
      ((h.nestedOn i).map fun n => .group n.2 (a.targetOn n.1) (depth + 1)) r r' := by
  rw [nestedChecks, if_pos hdepth] at hrun
  obtain ⟨r₁, hvalues, hkeys⟩ := hrun.exists_of_append
  rw [nestedOn, List.flatMap_cons, List.flatMap_singleton, List.map_append, List.map_map,
    List.map_map]
  exact (checks_ofList hvalues).append (checks_ofList hkeys)

/-! ### The faults are found -/

/-- The type in force is described for every group on the first levels that attributes lead to. -/
def Describable (h : Heap) (profileOf : ObjectType → Option TypeProfile) (levels : Nat)
    (x : GroupId) (implied : Option ObjectType) : Prop :=
  ∀ names y implied', h.KnownWay profileOf x implied names y implied' → names.length < levels →
    (h.profileFor profileOf y implied').isSome = true

theorem Describable.nested {a : AttributeInfo}
    (hdescribed : h.Describable profileOf (levels + 1) x implied)
    (hprofile : h.profileFor profileOf x implied = some d) (hi : i ∈ (h.group x).itemIds)
    (ha : d.attribute? (h.item i).name = some a) {side : Side}
    (hy : y ∈ ((h.item i).slot side).groups) :
    h.Describable profileOf levels y (a.targetOn side) := fun _ z implied' hway hlt =>
  hdescribed _ z implied' (.nested hprofile hi ha side hy hway) (Nat.succ_lt_succ hlt)

/-- Entering a group of a tree, with a number of levels left, finds the faults on these levels. -/
def FindsFaults (h : Heap) (profileOf : ObjectType → Option TypeProfile) (maxDepth : Nat)
    (root : GroupId) (levels : Nat) : Prop :=
  ∀ ⦃names x implied depth r r'⦄, h.Within root x → h.Climbs root names x →
    depth + levels = maxDepth + 1 → depth ≤ maxDepth →
    h.Describable profileOf levels x implied → h.Fresh (h.Within x) r →
    Checks h profileOf maxDepth [.group x implied depth] r r' →
    h.Effect (h.faults profileOf levels names x implied) (h.Within x)
      (h.CleanBelow profileOf levels names x implied) r r'

/-- Entering the groups nested in an item finds the faults there, or there are no levels left. -/
theorem IsTree.effect_nested (htree : h.IsTree root)
    (hbelow : h.FindsFaults profileOf maxDepth root levels) (hx : h.Within root x)
    (hup : h.Climbs root names x) (hdepth : depth + levels = maxDepth)
    (hprofile : h.profileFor profileOf x implied = some d)
    (hdescribed : h.Describable profileOf (levels + 1) x implied) (hi : i ∈ (h.group x).itemIds)
    {a : AttributeInfo} (ha : d.attribute? (h.item i).name = some a)
    (hfresh : h.Fresh (h.BelowItem i) r)
    (hrun : Checks h profileOf maxDepth (h.nestedChecks maxDepth i a depth) r r') :
    h.Effect ((h.nestedOn i).flatMap fun n =>
        h.faults profileOf levels (names ++ [(h.item i).name]) n.2 (a.targetOn n.1))
      (h.BelowItem i) (fun z => ∃ n ∈ h.nestedOn i,
        h.CleanBelow profileOf levels (names ++ [(h.item i).name]) n.2 (a.targetOn n.1) z)
      r r' := by
  by_cases hlevels : depth + 1 ≤ maxDepth
  · have hone : ∀ n ∈ h.nestedOn i, ∀ r r', h.Fresh (h.Within n.2) r →
        Checks h profileOf maxDepth [.group n.2 (a.targetOn n.1) (depth + 1)] r r' →
        h.Effect (h.faults profileOf levels (names ++ [(h.item i).name]) n.2 (a.targetOn n.1))
          (h.Within n.2)
          (h.CleanBelow profileOf levels (names ++ [(h.item i).name]) n.2 (a.targetOn n.1))
          r r' := by
      intro n hn r r' hfresh hrun
      have hy := mem_nestedOn.1 hn
      exact hbelow (Relation.ReflTransGen.tail hx (.intro n.1 hi hy))
        (htree.climbs_nested hx hup hi hy) (by omega) hlevels
        (hdescribed.nested hprofile hi ha hy) hfresh hrun
    refine Effect.tasks hone ((htree.pairwise_nestedOn hx hi).imp_of_mem ?_) ?_
      (checks_nestedOn hlevels hrun)
    · intro m n hm hn hne z hz
      exact htree.not_within_both hx hup (.intro _ hi (mem_nestedOn.1 hm))
        (.intro _ hi (mem_nestedOn.1 hn)) hne hz
    · exact fun n hn => hfresh.mono fun z hz => ⟨n, hn, hz⟩
  · obtain rfl : levels = 0 := by omega
    rw [nestedChecks, if_neg hlevels] at hrun
    cases hrun
    have hnil : ((h.nestedOn i).flatMap fun n =>
        h.faults profileOf 0 (names ++ [(h.item i).name]) n.2 (a.targetOn n.1)) = [] :=
      List.flatMap_eq_nil_iff.2 fun _ _ => rfl
    rw [hnil]
    refine (Effect.refl h _).congr (fun _ => False.elim) fun z => ⟨False.elim, ?_⟩
    rintro ⟨_, _, _, _, _, hno, -⟩
    exact absurd hno (Nat.not_lt_zero _)

/-- Looking up an item finds its fault, or those of the groups nested in it. -/
theorem IsTree.effect_item (htree : h.IsTree root)
    (hbelow : h.FindsFaults profileOf maxDepth root levels) (hx : h.Within root x)
    (hup : h.Climbs root names x) (hdepth : depth + levels = maxDepth)
    (hprofile : h.profileFor profileOf x implied = some d)
    (hdescribed : h.Describable profileOf (levels + 1) x implied) (hi : i ∈ (h.group x).itemIds)
    (hfresh : h.Fresh (h.BelowItem i) r)
    (hrun : Checks h profileOf maxDepth [.item x i d depth] r r') :
    h.Effect (h.faultsAt (h.faults profileOf levels) names d i) (h.BelowItem i)
      (fun z => ∃ a, d.attribute? (h.item i).name = some a ∧ ∃ n ∈ h.nestedOn i,
        h.CleanBelow profileOf levels (names ++ [(h.item i).name]) n.2 (a.targetOn n.1) z)
      r r' := by
  rw [faultsAt]
  cases hrun with
  | unknown hnone hrest =>
    cases hrest
    rw [hnone]
    refine ⟨?_, rfl, fun _ => .inl, fun z => ?_⟩
    · rw [List.map_singleton, failureOf, ← hup.pathTo_eq]
      rfl
    · simp [ValidationState.fail]
  | known hsome hnested hrest =>
    cases hrest
    rw [hsome]
    have heffect := htree.effect_nested hbelow hx hup hdepth hprofile hdescribed hi hsome hfresh
      hnested
    exact heffect.congr (fun _ hz => hz) fun z => by simp

/-- **Entering a group of a tree finds the faults there, and flags the groups without any.** -/
theorem IsTree.findsFaults (htree : h.IsTree root) (profileOf : ObjectType → Option TypeProfile)
    (maxDepth levels : Nat) : h.FindsFaults profileOf maxDepth root levels := by
  induction levels with
  | zero =>
    intro names x implied depth r r' _ _ hdepth hle
    omega
  | succ levels ih =>
    intro names x implied depth r r' hx hup hdepth hle hdescribed hfresh hrun
    obtain ⟨d, hprofile⟩ := Option.isSome_iff_exists.1
      (hdescribed [] x implied (.here x implied) (Nat.succ_pos _))
    obtain ⟨r₁, r₂, hin, hitems, hlinks, hrest⟩ :=
      hrun.exists_of_enter (hfresh.new x .refl) hprofile
    cases hrest
    -- the group has no links, so its items are all there is
    obtain ⟨habove, hsubs⟩ := htree.unlinked x hx
    rw [linkChecks, habove, hsubs] at hlinks
    cases hlinks
    have hfresh₀ : ∀ i ∈ (h.group x).itemIds, h.Fresh (h.BelowItem i) (r.enter x) := by
      refine fun i hi => ⟨hfresh.heap, fun z hz hdone => ?_⟩
      refine hfresh.new z (within_of_belowItem hi hz) (hdone.imp_right fun hno => ?_)
      exact (List.mem_cons.1 hno).resolve_left (htree.ne_of_belowItem hx hup hi hz)
    have heffect := Effect.tasks
      (fun i hi r r' hfresh hrun => htree.effect_item ih hx hup (by omega) hprofile hdescribed hi
        hfresh hrun)
      ((htree.items x hx).imp_of_mem fun hi hj hij _ hz => htree.apart_items hx hup hi hj hij hz)
      hfresh₀ hitems
    rw [← faults_succ hprofile] at heffect
    have hin₁ := ((hfresh.heap.trans hitems.extension.heap).hasGroup x).2 hin
    refine (heffect.settle hin₁).congr ?_ fun z => or_comm.trans (cleanBelow_succ hprofile).symm
    rintro z (rfl | ⟨i, hi, hz⟩)
    · exact .refl
    · exact within_of_belowItem hi hz

/-- The items at fault below a group belong to groups below it. -/
theorem IsTree.within_of_mem_faults (htree : h.IsTree root) (hx : h.Within root x)
    (hi : i ∈ (h.faults profileOf levels names x implied).map Fault.item) :
    h.Within x (h.item i).owner := by
  obtain ⟨f, hf, rfl⟩ := List.mem_map.1 hi
  obtain ⟨_, z, _, hway, -, -, hitem, -⟩ := mem_faults.1 hf
  rw [htree.owner z (Relation.ReflTransGen.trans hx hway.within) _ hitem]
  exact hway.within

/-- At an item the item itself is at fault, or items of groups below it are. -/
theorem IsTree.belowItem_of_mem_faultsAt (htree : h.IsTree root) (hx : h.Within root x)
    (hi : i ∈ (h.group x).itemIds)
    (hj : j ∈ (h.faultsAt (h.faults profileOf levels) names d i).map Fault.item) :
    j = i ∨ h.BelowItem i (h.item j).owner := by
  obtain ⟨f, hf, rfl⟩ := List.mem_map.1 hj
  rcases mem_faultsAt.1 hf with ⟨-, rfl⟩ | ⟨a, -, n, hn, hf⟩
  · exact .inl rfl
  · have hy : h.Within root n.2 := Relation.ReflTransGen.tail hx (.intro _ hi (mem_nestedOn.1 hn))
    exact .inr ⟨n, hn, htree.within_of_mem_faults hy (List.mem_map_of_mem hf)⟩

/-- **No item of a tree is at fault twice.** -/
theorem IsTree.nodup_faults (htree : h.IsTree root) (hx : h.Within root x)
    (hup : h.Climbs root names x) :
    ((h.faults profileOf levels names x implied).map Fault.item).Nodup := by
  induction levels generalizing names x implied with
  | zero => exact List.nodup_nil
  | succ levels ih =>
    cases hprofile : h.profileFor profileOf x implied with
    | none =>
      rw [faults, hprofile]
      exact List.nodup_nil
    | some d =>
      rw [faults_succ hprofile, List.map_flatMap, List.nodup_flatMap]
      refine ⟨fun i hi => ?_, (htree.items x hx).imp_of_mem fun {i j} hi hj hij => ?_⟩
      · rw [faultsAt]
        cases ha : d.attribute? (h.item i).name with
        | none => exact List.nodup_singleton _
        | some a =>
          dsimp only
          have hnests : ∀ n ∈ h.nestedOn i, h.Nests x n.2 := fun n hn =>
            .intro _ hi (mem_nestedOn.1 hn)
          have hbelow : ∀ n ∈ h.nestedOn i, h.Within root n.2 := fun n hn =>
            Relation.ReflTransGen.tail hx (hnests n hn)
          rw [List.map_flatMap, List.nodup_flatMap]
          refine ⟨fun n hn => ih (hbelow n hn) (htree.climbs_nested hx hup hi (mem_nestedOn.1 hn)),
            (htree.pairwise_nestedOn hx hi).imp_of_mem fun {m n} hm hn hne => ?_⟩
          exact List.disjoint_left.2 fun k hk hk' =>
            htree.not_within_both hx hup (hnests m hm) (hnests n hn) hne
              (htree.within_of_mem_faults (hbelow m hm) hk)
              (htree.within_of_mem_faults (hbelow n hn) hk')
      · refine List.disjoint_left.2 fun k hk hk' => ?_
        rcases htree.belowItem_of_mem_faultsAt hx hi hk with rfl | hki
        · rcases htree.belowItem_of_mem_faultsAt hx hj hk' with heq | hkj
          · exact hij heq
          · exact htree.ne_of_belowItem hx hup hj hkj (htree.owner x hx k hi)
        · rcases htree.belowItem_of_mem_faultsAt hx hj hk' with rfl | hkj
          · exact htree.ne_of_belowItem hx hup hi hki (htree.owner x hx k hj)
          · exact htree.apart_items hx hup hi hj hij hki hkj

/-! ### Validating a tree -/

section Outcome

variable {policy : ValidationPolicy} {failures : List Failure}
  (hfailures : (h.validationEnd root profileOf policy.maxDepth).failures = failures)
  (hdiagnostics : (h.validationEnd root profileOf policy.maxDepth).diagnostics = [])

include hfailures hdiagnostics

theorem validate_warn (hwarn : policy.reaction = .warn) :
    (h.validate root profileOf policy).answer = .ok failures ∧
      (h.validate root profileOf policy).diagnostics =
        failures.map Diagnostic.unknownAttribute := by
  unfold validate
  dsimp only
  rw [hfailures, hdiagnostics, hwarn]
  cases failures <;> exact ⟨rfl, rfl⟩

theorem validate_error (herror : policy.reaction = .error) :
    let paths := ", ".intercalate (failures.map Failure.path)
    (h.validate root profileOf policy).diagnostics = [] ∧
      (h.validate root profileOf policy).answer =
        if failures = [] then .ok [] else
          .error (.validation { message := s!"Unknown attributes: {paths}" } failures) := by
  unfold validate
  dsimp only
  rw [hfailures, hdiagnostics, herror]
  cases failures <;> exact ⟨rfl, rfl⟩

end Outcome

/-- **A validation of a tree answers its faults and flags what is clean.**  The faults are those on
the levels that are looked at, listed depth first and each once.  They are answered, with a
diagnostic each, or make the operation fail.  The groups that are flagged are the same both times:
those that attributes lead to and that have no fault at or below them. -/
theorem validate_tree (hclosed : h.Closed) (hin : h.HasGroup root) (htree : h.IsTree root)
    (policy : ValidationPolicy)
    (hdescribed : h.Describable profileOf (policy.maxDepth + 1) root none) :
    let faults := h.faults profileOf (policy.maxDepth + 1) [] root none
    let failures := faults.map h.failureOf
    let paths := ", ".intercalate (failures.map Failure.path)
    let outcome := h.validate root profileOf policy
    (∀ f, f ∈ faults ↔ h.FaultBelow profileOf (policy.maxDepth + 1) [] root none f) ∧
    (faults.map Fault.item).Nodup ∧
    (policy.reaction = .warn → outcome.answer = .ok failures ∧
      outcome.diagnostics = failures.map Diagnostic.unknownAttribute) ∧
    (policy.reaction = .error → outcome.diagnostics = [] ∧ outcome.answer =
      if failures = [] then .ok [] else
        .error (.validation { message := s!"Unknown attributes: {paths}" } failures)) ∧
    h.Flagging outcome.heap ∧
    ∀ x, outcome.heap.Flagged x ↔
      h.Flagged x ∨ h.CleanBelow profileOf (policy.maxDepth + 1) [] root none x := by
  have hrun := checks_validationEnd hclosed hin (.refl h) profileOf policy.maxDepth
  have hup : h.Climbs root [] root := .root hin htree.top
  obtain ⟨hfailures, hdiagnostics, -, hflags⟩ := htree.findsFaults profileOf policy.maxDepth
    (policy.maxDepth + 1) .refl hup (Nat.zero_add _) (Nat.zero_le _) hdescribed
    ⟨.refl h, fun x hx => by simpa [Done] using htree.unflagged x hx⟩ hrun
  rw [List.nil_append] at hfailures
  refine ⟨fun f => mem_faults, htree.nodup_faults .refl hup, validate_warn hfailures hdiagnostics,
    validate_error hfailures hdiagnostics, ?_, fun x => ?_⟩
  · rw [heap_validate]
    exact hrun.extension.heap
  · rw [heap_validate]
    exact hflags x

/-- A team that shares nothing: it has no budget, its lead no salary, and the room of the lead is
too deep to be looked at. -/
def bureau : Heap where
  groups := #[
    { name := "team", type := some (.root "Team" "Team")
      items := .ofList [("budget", ⟨0⟩), ("lead", ⟨1⟩), ("room", ⟨2⟩)] },
    { name := "lead", nestedIn := some ⟨1⟩
      items := .ofList [("room", ⟨3⟩), ("salary", ⟨4⟩)] },
    { name := "room", type := some (.root "Room" "Room"), nestedIn := some ⟨2⟩
      items := .ofList [("number", ⟨5⟩)] },
    { name := "room", nestedIn := some ⟨3⟩, items := .ofList [("window", ⟨6⟩)] }]
  items := #[
    { name := "budget", owner := ⟨0⟩ },
    { name := "lead", owner := ⟨0⟩, value := { primary := some ⟨1⟩ } },
    { name := "room", owner := ⟨0⟩
      value := ⟨some ⟨2⟩, some (.ofList [(.type (.root "Room" "Room"), ⟨2⟩)])⟩ },
    { name := "room", owner := ⟨1⟩, value := { primary := some ⟨3⟩ } },
    { name := "salary", owner := ⟨1⟩ },
    { name := "number", owner := ⟨2⟩ },
    { name := "window", owner := ⟨3⟩ }]
  variants := #[.generic]

/-- What holds of every group holds of the groups below one of them. -/
theorem forall_within (hclosed : h.Closed) (hin : h.HasGroup root) {P : GroupId → Prop}
    (hall : ∀ x ∈ h.groupIds, P x) (x : GroupId) (hx : h.Within root x) : P x :=
  hall x (mem_groupIds.2 (hclosed.hasGroup_within hin x hx))

theorem isTree_bureau : bureau.IsTree ⟨0⟩ where
  top := rfl
  owner := forall_within (by decide) (by decide) (by decide)
  items := forall_within (by decide) (by decide) (by decide)
  nested x hx i hi side y hy :=
    forall_within (P := fun x => ∀ i ∈ (bureau.group x).itemIds, ∀ n ∈ bureau.nestedOn i,
      (bureau.group n.2).nestedIn = some i) (by decide) (by decide) (by decide) x hx i hi (side, y)
      (mem_nestedOn.2 hy)
  sides := forall_within (by decide) (by decide) (by decide)
  unlinked := forall_within (by decide) (by decide) (by decide)
  unflagged := forall_within (by decide) (by decide) (by decide)

/-- The team, its lead and its room have types; the room of the lead is not reached. -/
theorem describable_bureau : bureau.Describable staffTypes.profile? 2 ⟨0⟩ none := by
  intro names y implied' hway hlt
  cases hway with
  | here => rfl
  | @nested _ y _ _ _ names d i a hprofile hi ha side hy hway =>
    have hend : (bureau.profileFor staffTypes.profile? y (a.targetOn side)).isSome = true := by
      obtain rfl := Option.some.inj hprofile
      have hi : i = ⟨0⟩ ∨ i = ⟨1⟩ ∨ i = ⟨2⟩ := by
        simpa using (show i ∈ [(⟨0⟩ : ItemId), ⟨1⟩, ⟨2⟩] from hi)
      rcases hi with rfl | rfl | rfl
      · cases ha
      · obtain rfl := Option.some.inj ha
        cases side with
        | value =>
          obtain rfl : y = ⟨1⟩ := by simpa using (show y ∈ [(⟨1⟩ : GroupId)] from hy)
          rfl
        | key => cases hy
      · obtain rfl := Option.some.inj ha
        cases side with
        | value =>
          obtain rfl : y = ⟨2⟩ := by simpa using (show y ∈ [(⟨2⟩ : GroupId), ⟨2⟩] from hy)
          rfl
        | key => cases hy
    cases hway with
    | here => exact hend
    | nested => exact absurd hlt (by simp)

/-- The levels of the team and of the groups nested in it are looked at. -/
theorem validate_tree_bureau :
    let unknown (path name typeName : String) : Failure :=
      ⟨path, s!"Attribute '{name}' is not defined on {typeName}", some typeName⟩
    let outcome := bureau.validate ⟨0⟩ staffTypes.profile? { reaction := .warn, maxDepth := 1 }
    (bureau.Closed ∧ bureau.IsTree ⟨0⟩ ∧ bureau.Describable staffTypes.profile? 2 ⟨0⟩ none) ∧
      outcome.answer =
        .ok [unknown "budget" "budget" "Team", unknown "lead.salary" "salary" "Person"] ∧
      outcome.heap.Flagged ⟨2⟩ ∧ ¬ outcome.heap.Flagged ⟨1⟩ := by
  intro unknown outcome
  obtain ⟨-, -, hwarn, -, -, hflags⟩ := validate_tree (by decide) (by decide) isTree_bureau
    { reaction := .warn, maxDepth := 1 } describable_bureau
  refine ⟨⟨by decide, isTree_bureau, describable_bureau⟩, (hwarn rfl).1, ?_, by decide⟩
  exact (hflags ⟨2⟩).2 (.inr ⟨["room"], _, .nested (i := ⟨2⟩) rfl (by decide) rfl .value (by decide)
    (.here ⟨2⟩ _), by decide, rfl⟩)

end Heap

end AttributeGraph
