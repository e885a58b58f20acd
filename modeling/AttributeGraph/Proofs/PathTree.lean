/-
The tree of groups that grows when attributes are added by path.

Names lead from a group to the groups nested for the values of its attributes
(`follow`).  A group is the root of a `PathTree` if every group that they lead to
has no super group and every item links back: to the group that declares it, and
from its nested group to itself.  The links back make the way to a group unique
(`PathTree.follow_inj`), so writing to one group changes one place of the tree.

A tree declares paths (`Declares`).  The three writes that adding and removing
consist of are looked at one by one: what each does to where names lead, and
with that what it does to the paths that are declared.
-/
import AttributeGraph.Heap.Edit
import AttributeGraph.Proofs.Building
import AttributeGraph.Proofs.Climbing
import Mathlib.Data.List.Induction

namespace AttributeGraph.Heap

/-! ### Where names lead -/

/-- The group nested for the value of an attribute. -/
def primaryAt (h : Heap) (x : GroupId) (n : String) : Option GroupId :=
  ((h.group x).items.find? n).bind fun i => (h.item i).value.primary

/-- The group that names lead to, from nested group to nested group. -/
def follow (h : Heap) (x : GroupId) : List String → Option GroupId
  | [] => some x
  | n :: q => (h.primaryAt x n).bind fun y => h.follow y q

/-- The item of a name in the group that other names lead to. -/
def itemBelow (h : Heap) (x : GroupId) (q : List String) (n : String) : Option ItemId :=
  (h.follow x q).bind fun y => (h.group y).items.find? n

/-- A path leads to an item. -/
def Declares (h : Heap) (x : GroupId) (p : List String) : Prop :=
  ∃ q n, p = q ++ [n] ∧ (h.itemBelow x q n).isSome = true

variable {h h' : Heap} {g x y z : GroupId} {p q r : List String} {m n : String} {i j : ItemId}

theorem follow_concat (h : Heap) (x : GroupId) (q : List String) (n : String) :
    h.follow x (q ++ [n]) = (h.follow x q).bind fun y => h.primaryAt y n := by
  induction q generalizing x with
  | nil => simp [follow]
  | cons m q ih => simp only [List.cons_append, follow, ih, Option.bind_assoc]

theorem concat_ne_of_none (hx : h.follow g q = some x) (hp : h.follow g p = none) :
    p ++ [m] ≠ q ++ [n] := by
  intro heq
  rw [(List.append_inj' heq rfl).1, hx] at hp
  cases hp

theorem primaryAt_eq_some_iff :
    h.primaryAt x n = some y ↔
      ∃ i, (h.group x).items.find? n = some i ∧ (h.item i).value.primary = some y :=
  Option.bind_eq_some_iff

theorem itemBelow_eq_some_iff :
    h.itemBelow g q n = some i ↔
      ∃ x, h.follow g q = some x ∧ (h.group x).items.find? n = some i :=
  Option.bind_eq_some_iff

theorem declares_concat_iff :
    h.Declares g (q ++ [n]) ↔ (h.itemBelow g q n).isSome = true := by
  constructor
  · rintro ⟨q', n', heq, hi⟩
    obtain ⟨rfl, hlast⟩ := List.append_inj' heq rfl
    obtain rfl := List.head_eq_of_cons_eq hlast
    exact hi
  · exact fun hi => ⟨q, n, rfl, hi⟩

theorem not_declares_nil : ¬ h.Declares g [] := by
  rintro ⟨q, n, heq, -⟩
  exact List.append_ne_nil_of_right_ne_nil q (List.cons_ne_nil n []) heq.symm

/-- What leads to a declared path is declared. -/
theorem Declares.of_isPrefix (hp : h.Declares g p) (hr : r <+: p) (hne : r ≠ []) :
    h.Declares g r := by
  induction p using List.reverseRecOn with
  | nil => exact absurd (List.prefix_nil.1 hr) hne
  | append_singleton p m ih =>
    rcases List.prefix_concat_iff.1 hr with rfl | hr
    · exact hp
    · obtain ⟨i, hi⟩ := Option.isSome_iff_exists.1 (declares_concat_iff.1 hp)
      obtain ⟨x, hx, -⟩ := itemBelow_eq_some_iff.1 hi
      refine ih ?_ hr
      rcases List.eq_nil_or_concat' p with rfl | ⟨p, n, rfl⟩
      · exact absurd (List.prefix_nil.1 hr) hne
      · rw [follow_concat] at hx
        obtain ⟨y, hy, hlead⟩ := Option.bind_eq_some_iff.1 hx
        obtain ⟨j, hj, -⟩ := primaryAt_eq_some_iff.1 hlead
        rw [declares_concat_iff, itemBelow_eq_some_iff.2 ⟨y, hy, hj⟩]
        rfl

/-- Whether a path is declared is asked behind its last name. -/
theorem declares_iff_of_concat {P : List String → Prop} (hnil : ¬ P [])
    (hall : ∀ p m, h.Declares g (p ++ [m]) ↔ P (p ++ [m])) (p : List String) :
    h.Declares g p ↔ P p := by
  rcases List.eq_nil_or_concat' p with rfl | ⟨p, m, rfl⟩
  · exact ⟨fun hno => absurd hno not_declares_nil, fun hno => absurd hno hnil⟩
  · exact hall p m

/-! ### Trees -/

/-- An item filed under a name in a group of the tree. -/
structure TreeItem (h : Heap) (x : GroupId) (n : String) (i : ItemId) : Prop where
  inHeap : h.HasItem i
  name : (h.item i).name = n
  owner : (h.item i).owner = x
  untyped : (h.item i).value.typed = []
  segment : IsSegment n
  nested : ∀ y, (h.item i).value.primary = some y → (h.group y).nestedIn = some i

/-- A group of the tree. -/
structure TreeGroup (h : Heap) (x : GroupId) : Prop where
  inHeap : h.HasGroup x
  above : (h.group x).above = none
  items : ∀ n i, (h.group x).items.find? n = some i → h.TreeItem x n i

/-- A group that is nested in none, with the groups that names lead to. -/
structure PathTree (h : Heap) (g : GroupId) : Prop where
  root : (h.group g).nestedIn = none
  group : ∀ q x, h.follow g q = some x → h.TreeGroup x

namespace PathTree

variable (ht : h.PathTree g)

include ht

/-- A group below the root is nested in the item of its last name. -/
theorem exists_parent (hx : h.follow g (q ++ [n]) = some x) :
    ∃ y i, h.follow g q = some y ∧ (h.group y).items.find? n = some i ∧
      h.TreeItem y n i ∧ (h.group x).nestedIn = some i := by
  rw [follow_concat] at hx
  obtain ⟨y, hy, hx⟩ := Option.bind_eq_some_iff.1 hx
  obtain ⟨i, hi, hx⟩ := primaryAt_eq_some_iff.1 hx
  have hitem := (ht.group q y hy).items n i hi
  exact ⟨y, i, hy, hi, hitem, hitem.nested x hx⟩

/-- The way to a group is the way up from it. -/
theorem climbs (hx : h.follow g q = some x) : h.Climbs g q x := by
  induction q using List.reverseRecOn generalizing x with
  | nil =>
    obtain rfl := Option.some.inj hx
    exact .root (ht.group [] g rfl).inHeap ht.root
  | append_singleton q n ih =>
    obtain ⟨y, i, hy, -, hitem, hi⟩ := ht.exists_parent hx
    rw [← hitem.name]
    exact .step (hitem.owner.symm ▸ ih hy) hi

/-- **Different paths lead to different groups.** -/
theorem follow_inj (hq : h.follow g q = some x) (hr : h.follow g r = some x) : q = r :=
  ((ht.climbs hq).unique (ht.climbs hr)).2

/-- One path is another one with a last name exactly if it is so group by group. -/
theorem concat_eq_iff (hz : h.follow g p = some z) (hx : h.follow g q = some x) :
    p ++ [m] = q ++ [n] ↔ z = x ∧ m = n := by
  constructor
  · intro heq
    obtain ⟨rfl, hlast⟩ := List.append_inj' heq rfl
    exact ⟨Option.some.inj (hz.symm.trans hx), List.head_eq_of_cons_eq hlast⟩
  · rintro ⟨rfl, rfl⟩
    rw [ht.follow_inj hz hx]

/-- **Different paths lead to different items.** -/
theorem itemBelow_inj (hq : h.itemBelow g q n = some i) (hr : h.itemBelow g r m = some i) :
    q = r ∧ n = m := by
  obtain ⟨x, hx, hi⟩ := itemBelow_eq_some_iff.1 hq
  obtain ⟨y, hy, hj⟩ := itemBelow_eq_some_iff.1 hr
  have hitem := (ht.group q x hx).items n i hi
  have hitem' := (ht.group r y hy).items m i hj
  obtain rfl : x = y := hitem.owner.symm.trans hitem'.owner
  exact ⟨ht.follow_inj hx hy, hitem.name.symm.trans hitem'.name⟩

end PathTree

/-! ### What a write leaves alone -/

/-- Names lead to the same groups if they do so from every group of the tree. -/
theorem PathTree.follow_congr (ht : h.PathTree g)
    (hall : ∀ x, h.TreeGroup x → ∀ n, h'.primaryAt x n = h.primaryAt x n) (q : List String) :
    h'.follow g q = h.follow g q := by
  induction q using List.reverseRecOn with
  | nil => rfl
  | append_singleton q n ih =>
    rw [follow_concat, follow_concat, ih]
    cases hx : h.follow g q with
    | none => rfl
    | some x => exact hall x (ht.group q x hx) n

theorem TreeItem.hasGroup_nested (hi : h.TreeItem x n i) (hy : (h.item i).value.primary = some y) :
    h.HasGroup y := by
  by_contra hno
  have hback := hi.nested y hy
  rw [group_of_not_hasGroup hno] at hback
  cases hback

/-- An item that is not written stays in the tree if no group loses the link back. -/
theorem TreeItem.grows {G : GroupId → Prop} {I : ItemId → Prop} (hi : h.TreeItem x n i)
    (hgrows : Grows G I h h') (hI : ¬ I i)
    (hback : ∀ y, G y → (h'.group y).nestedIn = (h.group y).nestedIn) : h'.TreeItem x n i := by
  have hitem := hgrows.item i hi.inHeap hI
  refine ⟨hgrows.hasItem i hi.inHeap, by rw [hitem, hi.name], by rw [hitem, hi.owner],
    by rw [hitem, hi.untyped], hi.segment, fun y hy => ?_⟩
  rw [hitem] at hy
  by_cases hG : G y
  · rw [hback y hG, hi.nested y hy]
  · rw [hgrows.group y (hi.hasGroup_nested hy) hG, hi.nested y hy]

/-! ### Adding an item -/

/-- An item without nested groups is added to a group. -/
structure ItemAdded (h h' : Heap) (x : GroupId) (n : String) : Prop where
  grows : Grows (· = x) Nothing h h'
  fresh : (h.group x).items.find? n = none
  added : ∃ i, h'.HasItem i ∧ h'.item i = { name := n, owner := x } ∧
    h'.group x = { h.group x with items := (h.group x).items.insert n i }

theorem ensureItem_added (hx : h.HasGroup x) (hn : (h.group x).items.find? n = none) :
    h.ItemAdded (h.ensureItem x n).2 x n := by
  obtain ⟨-, hitem, hin, hgroup⟩ := ensureItem_of_new hx hn
  exact ⟨Grows.ensureItem h x n, hn, _, hin, hitem, hgroup⟩

namespace ItemAdded

variable (hadd : h.ItemAdded h' x n)

include hadd

theorem find? (m : String) :
    ∃ i, h'.HasItem i ∧ h'.item i = { name := n, owner := x } ∧
      (h'.group x).items.find? m = if m = n then some i else (h.group x).items.find? m := by
  obtain ⟨i, hin, hitem, hgroup⟩ := hadd.added
  refine ⟨i, hin, hitem, ?_⟩
  rw [hgroup]
  exact OrderedMap.find?_insert _ n m i

theorem treeGroup (hz : h.TreeGroup z) (hn : IsSegment n) : h'.TreeGroup z := by
  have hback : ∀ y, y = x → (h'.group y).nestedIn = (h.group y).nestedIn := by
    rintro _ rfl
    obtain ⟨i, -, -, hgroup⟩ := hadd.added
    rw [hgroup]
  have hkept : ∀ m i, (h.group z).items.find? m = some i → h'.TreeItem z m i := fun m i hi =>
    (hz.items m i hi).grows hadd.grows (fun hno => hno) hback
  by_cases hzx : z = x
  · subst hzx
    refine ⟨hadd.grows.hasGroup z hz.inHeap, ?_, fun m j hj => ?_⟩
    · obtain ⟨i, -, -, hgroup⟩ := hadd.added
      rw [hgroup]
      exact hz.above
    · obtain ⟨i, hin, hitem, hfind⟩ := hadd.find? m
      rw [hfind] at hj
      by_cases hm : m = n
      · rw [if_pos hm] at hj
        obtain rfl := Option.some.inj hj
        subst hm
        refine ⟨hin, by rw [hitem], by rw [hitem], by rw [hitem]; rfl, hn, fun y hy => ?_⟩
        rw [hitem] at hy
        cases hy
      · rw [if_neg hm] at hj
        exact hkept m j hj
  · have hgroup := hadd.grows.group z hz.inHeap hzx
    refine ⟨hadd.grows.hasGroup z hz.inHeap, by rw [hgroup, hz.above], fun m j hj => ?_⟩
    rw [hgroup] at hj
    exact hkept m j hj

theorem primaryAt_eq (hz : h.TreeGroup z) (m : String) : h'.primaryAt z m = h.primaryAt z m := by
  have hkept : ∀ j, (h.group z).items.find? m = some j → h'.item j = h.item j := fun j hj =>
    hadd.grows.item j (hz.items m j hj).inHeap fun hno => hno
  unfold primaryAt
  by_cases hzx : z = x
  · subst hzx
    obtain ⟨i, -, hitem, hfind⟩ := hadd.find? m
    rw [hfind]
    by_cases hm : m = n
    · rw [if_pos hm, hm, hadd.fresh, Option.bind_some, hitem]
      rfl
    · rw [if_neg hm]
      exact Option.bind_congr fun j hj => by rw [hkept j hj]
  · rw [hadd.grows.group z hz.inHeap hzx]
    exact Option.bind_congr fun j hj => by rw [hkept j hj]

variable (ht : h.PathTree g)

include ht

theorem follow_eq (p : List String) : h'.follow g p = h.follow g p :=
  ht.follow_congr (fun _ hz => hadd.primaryAt_eq hz) p

theorem pathTree (hn : IsSegment n) : h'.PathTree g := by
  refine ⟨?_, fun p z hz => ?_⟩
  · by_cases hgx : g = x
    · obtain ⟨i, -, -, hgroup⟩ := hadd.added
      rw [hgx, hgroup, ← hgx]
      exact ht.root
    · rw [hadd.grows.group g (ht.group [] g rfl).inHeap hgx, ht.root]
  · rw [hadd.follow_eq ht] at hz
    exact hadd.treeGroup (ht.group p z hz) hn

/-- **Adding an item declares one more path.** -/
theorem declares_iff (hx : h.follow g q = some x) (p : List String) :
    h'.Declares g p ↔ h.Declares g p ∨ p = q ++ [n] := by
  refine declares_iff_of_concat (P := fun p => h.Declares g p ∨ p = q ++ [n]) ?_ (fun p m => ?_) p
  · rintro (hno | hno)
    · exact not_declares_nil hno
    · exact List.append_ne_nil_of_right_ne_nil q (List.cons_ne_nil n []) hno.symm
  · rw [declares_concat_iff, declares_concat_iff, itemBelow, itemBelow, hadd.follow_eq ht]
    cases hz : h.follow g p with
    | none =>
      simp [concat_ne_of_none hx hz]
    | some z =>
      rw [ht.concat_eq_iff hz hx, Option.bind_some, Option.bind_some]
      by_cases hzx : z = x
      · subst hzx
        obtain ⟨i, -, -, hfind⟩ := hadd.find? m
        rw [hfind]
        by_cases hm : m = n
        · simp [hm]
        · simp [hm]
      · rw [hadd.grows.group z (ht.group p z hz).inHeap hzx]
        simp [hzx]

end ItemAdded

/-! ### Nesting a group -/

/-- A new group without items is nested for the value of an item that had none. -/
structure GroupNested (h h' : Heap) (i : ItemId) (y : GroupId) : Prop where
  grows : Grows Nothing (· = i) h h'
  bare : (h.item i).value.primary = none
  item : h'.item i = (h.item i).mapSlot .value fun s => { s with primary := some y }
  inHeap : h'.HasGroup y
  nestedIn : (h'.group y).nestedIn = some i
  above : (h'.group y).above = none
  items : (h'.group y).items = .empty

/-- An item that nests no group gets a new one. -/
theorem ensureNested_of_bare (hbare : (h.item i).value.primary = none) (x : GroupId) (n : String) :
    h.ensureNested x i n = (⟨h.groups.size⟩,
      (h.allocGroup { name := n } (h.variantOf x)).2.setRoot .value i ⟨h.groups.size⟩) := by
  unfold ensureNested
  rw [hbare]
  rfl

/-- The group that an item gets is empty, and nested in the item. -/
theorem group_ensureNested (hbare : (h.item i).value.primary = none) (x : GroupId) (n : String) :
    (h.ensureNested x i n).2.group (h.ensureNested x i n).1 =
      { name := n, variant := ⟨h.variants.size⟩, nestedIn := some i } := by
  let h₁ := (h.allocGroup { name := n } (h.variantOf x)).2
  have hin : h₁.HasGroup ⟨h.groups.size⟩ := hasGroup_allocGroup.2 (.inr rfl)
  rw [ensureNested_of_bare hbare]
  show (h₁.alterGroup ⟨h.groups.size⟩ _).group ⟨h.groups.size⟩ = _
  rw [group_alterGroup_self hin]
  exact congrArg (fun w : Group => { w with nestedIn := some i }) (group_allocGroup_self _ _)

theorem ensureNested_nested (hi : h.HasItem i) (hbare : (h.item i).value.primary = none)
    (x : GroupId) (n : String) :
    h.GroupNested (h.ensureNested x i n).2 i (h.ensureNested x i n).1 := by
  have hgroup := group_ensureNested hbare x n
  have hin : (h.allocGroup { name := n } (h.variantOf x)).2.HasGroup ⟨h.groups.size⟩ :=
    hasGroup_allocGroup.2 (.inr rfl)
  rw [ensureNested_of_bare hbare] at hgroup ⊢
  refine ⟨?_, hbare, ?_, ?_, ?_, ?_, ?_⟩
  · refine Grows.setRoot ((Grows.refl h).allocGroup _ _) ?_ fun _ => rfl
    exact fun hno => Nat.lt_irrefl _ hno
  · exact item_setRoot hi
  · exact hasGroup_alterGroup.2 hin
  · rw [hgroup]
  · rw [hgroup]
  · rw [hgroup]

namespace GroupNested

variable (hnest : h.GroupNested h' i y)

include hnest

theorem treeGroup_new : h'.TreeGroup y := by
  refine ⟨hnest.inHeap, hnest.above, fun m j hj => ?_⟩
  rw [hnest.items] at hj
  cases hj

theorem treeGroup (hz : h.TreeGroup z) : h'.TreeGroup z := by
  have hgroup := hnest.grows.group z hz.inHeap fun hno => hno
  refine ⟨hnest.grows.hasGroup z hz.inHeap, by rw [hgroup, hz.above], fun m j hj => ?_⟩
  rw [hgroup] at hj
  have hj := hz.items m j hj
  by_cases hji : j = i
  · subst hji
    refine ⟨hnest.grows.hasItem j hj.inHeap, ?_, ?_, ?_, hj.segment, fun w hw => ?_⟩
    all_goals rw [hnest.item] at *
    · exact hj.name
    · exact hj.owner
    · exact hj.untyped
    · obtain rfl := Option.some.inj (show some y = some w from hw)
      exact hnest.nestedIn
  · exact hj.grows hnest.grows hji fun _ hno => hno.elim

theorem primaryAt_new (m : String) : h'.primaryAt y m = none := by
  rw [primaryAt, hnest.items]
  rfl

/-- The group is nested under the name of the item, in the group that declares it. -/
theorem primaryAt_eq (hx : h.TreeGroup x) (hi : (h.group x).items.find? n = some i)
    (hz : h.TreeGroup z) (m : String) :
    h'.primaryAt z m = if z = x ∧ m = n then some y else h.primaryAt z m := by
  have hitem := hx.items n i hi
  rw [primaryAt, hnest.grows.group z hz.inHeap fun hno => hno]
  by_cases hxn : z = x ∧ m = n
  · rw [if_pos hxn, hxn.1, hxn.2, hi, Option.bind_some, hnest.item]
    rfl
  · rw [if_neg hxn]
    refine Option.bind_congr fun j hj => ?_
    have hj := hz.items m j hj
    have hji : j ≠ i := by
      rintro rfl
      exact hxn ⟨hj.owner.symm.trans hitem.owner, hj.name.symm.trans hitem.name⟩
    rw [hnest.grows.item j hj.inHeap hji]

variable (ht : h.PathTree g) (hx : h.follow g q = some x)
  (hi : (h.group x).items.find? n = some i)

include ht hx hi

theorem follow_eq (p : List String) :
    h'.follow g p = if p = q ++ [n] then some y else h.follow g p := by
  have hbare : h.follow g (q ++ [n]) = none := by
    rw [follow_concat, hx, Option.bind_some, primaryAt, hi, Option.bind_some, hnest.bare]
  induction p using List.reverseRecOn with
  | nil =>
    rw [if_neg fun heq => List.append_ne_nil_of_right_ne_nil q (List.cons_ne_nil n []) heq.symm]
    rfl
  | append_singleton p m ih =>
    rw [follow_concat, ih]
    by_cases hp : p = q ++ [n]
    · have hne : p ++ [m] ≠ q ++ [n] := by
        intro heq
        rw [← hp] at heq
        exact List.cons_ne_nil m [] (List.append_right_eq_self.1 heq)
      rw [if_pos hp, if_neg hne, Option.bind_some, hnest.primaryAt_new, follow_concat, hp, hbare]
      rfl
    · rw [if_neg hp, follow_concat]
      cases hz : h.follow g p with
      | none =>
        rw [if_neg (concat_ne_of_none hx hz)]
        rfl
      | some z =>
        rw [Option.bind_some, Option.bind_some,
          hnest.primaryAt_eq (ht.group q x hx) hi (ht.group p z hz) m]
        simp only [ht.concat_eq_iff hz hx]

theorem pathTree : h'.PathTree g := by
  refine ⟨?_, fun p z hz => ?_⟩
  · rw [hnest.grows.group g (ht.group [] g rfl).inHeap fun hno => hno, ht.root]
  · rw [hnest.follow_eq ht hx hi] at hz
    by_cases hp : p = q ++ [n]
    · rw [if_pos hp] at hz
      obtain rfl := Option.some.inj hz
      exact hnest.treeGroup_new
    · rw [if_neg hp] at hz
      exact hnest.treeGroup (ht.group p z hz)

/-- **Nesting a group without items declares no path.** -/
theorem declares_iff (p : List String) : h'.Declares g p ↔ h.Declares g p := by
  refine declares_iff_of_concat not_declares_nil (fun p m => ?_) p
  rw [declares_concat_iff, declares_concat_iff, itemBelow, itemBelow,
    hnest.follow_eq ht hx hi]
  by_cases hp : p = q ++ [n]
  · have hbare : h.follow g p = none := by
      rw [hp, follow_concat, hx, Option.bind_some, primaryAt, hi, Option.bind_some, hnest.bare]
    rw [if_pos hp, hbare, Option.bind_some, hnest.items]
    rfl
  · rw [if_neg hp]
    cases hz : h.follow g p with
    | none => rfl
    | some z =>
      rw [Option.bind_some, Option.bind_some,
        hnest.grows.group z (ht.group p z hz).inHeap fun hno => hno]

end GroupNested

/-! ### Erasing an item -/

/-- An item is erased from a group. -/
structure ItemErased (h h' : Heap) (x : GroupId) (n : String) : Prop where
  grows : Grows (· = x) Nothing h h'
  erased : h'.group x = { h.group x with items := (h.group x).items.erase n }

theorem eraseItem_erased (hx : h.HasGroup x) (n : String) :
    h.ItemErased (h.alterGroup x fun w => { w with items := w.items.erase n }) x n := by
  refine ⟨(Grows.refl h).alterGroup ?_ _, group_alterGroup_self hx _⟩
  exact fun _ => rfl

namespace ItemErased

variable (herase : h.ItemErased h' x n)

include herase

theorem find? (hz : h.HasGroup z) (m : String) :
    (h'.group z).items.find? m = if z = x ∧ m = n then none else (h.group z).items.find? m := by
  by_cases hzx : z = x
  · subst hzx
    rw [herase.erased]
    simp only [true_and]
    exact OrderedMap.find?_erase _ n m
  · rw [herase.grows.group z hz hzx, if_neg fun hno => hzx hno.1]

theorem treeGroup (hz : h.TreeGroup z) : h'.TreeGroup z := by
  refine ⟨herase.grows.hasGroup z hz.inHeap, ?_, fun m j hj => ?_⟩
  · by_cases hzx : z = x
    · subst hzx
      rw [herase.erased]
      exact hz.above
    · rw [herase.grows.group z hz.inHeap hzx, hz.above]
  · rw [herase.find? hz.inHeap] at hj
    split_ifs at hj
    refine (hz.items m j hj).grows herase.grows (fun hno => hno) ?_
    rintro _ rfl
    rw [herase.erased]

theorem primaryAt_eq (hz : h.TreeGroup z) (m : String) :
    h'.primaryAt z m = if z = x ∧ m = n then none else h.primaryAt z m := by
  rw [primaryAt, herase.find? hz.inHeap]
  by_cases hxn : z = x ∧ m = n
  · rw [if_pos hxn, if_pos hxn]
    rfl
  · rw [if_neg hxn, if_neg hxn]
    refine Option.bind_congr fun j hj => ?_
    rw [herase.grows.item j (hz.items m j hj).inHeap fun hno => hno]

variable (ht : h.PathTree g) (hx : h.follow g q = some x)

include ht hx

theorem follow_eq (p : List String) :
    h'.follow g p = if q ++ [n] <+: p then none else h.follow g p := by
  induction p using List.reverseRecOn with
  | nil =>
    rw [if_neg fun hno => List.append_ne_nil_of_right_ne_nil q (List.cons_ne_nil n [])
      (List.prefix_nil.1 hno)]
    rfl
  | append_singleton p m ih =>
    simp only [follow_concat h', follow_concat h, ih, List.prefix_concat_iff]
    by_cases hp : q ++ [n] <+: p
    · simp only [hp, or_true, if_true, Option.bind_none]
    · simp only [hp, or_false, if_false]
      cases hz : h.follow g p with
      | none =>
        rw [if_neg fun heq => concat_ne_of_none hx hz heq.symm]
        rfl
      | some z =>
        simp only [eq_comm (a := q ++ [n]), ht.concat_eq_iff hz hx, Option.bind_some]
        exact herase.primaryAt_eq (ht.group p z hz) m

theorem pathTree : h'.PathTree g := by
  refine ⟨?_, fun p z hz => ?_⟩
  · by_cases hgx : g = x
    · rw [hgx, herase.erased, ← hgx]
      exact ht.root
    · rw [herase.grows.group g (ht.group [] g rfl).inHeap hgx, ht.root]
  · rw [herase.follow_eq ht hx] at hz
    split_ifs at hz
    exact herase.treeGroup (ht.group p z hz)

/-- **Erasing an item takes back its path and all that go on from it.** -/
theorem declares_iff (p : List String) :
    h'.Declares g p ↔ h.Declares g p ∧ ¬ q ++ [n] <+: p := by
  refine declares_iff_of_concat (P := fun p => h.Declares g p ∧ ¬ q ++ [n] <+: p)
    (fun hno => not_declares_nil hno.1) (fun p m => ?_) p
  rw [declares_concat_iff, declares_concat_iff, itemBelow, itemBelow, herase.follow_eq ht hx,
    List.prefix_concat_iff]
  by_cases hp : q ++ [n] <+: p
  · simp [hp]
  · simp only [hp, or_false, if_false]
    cases hz : h.follow g p with
    | none => simp
    | some z =>
      rw [Option.bind_some, Option.bind_some, herase.find? (ht.group p z hz).inHeap,
        eq_comm (a := q ++ [n]), ht.concat_eq_iff hz hx]
      by_cases hxn : z = x ∧ m = n
      · simp [hxn]
      · simp [hxn]

end ItemErased

/-! ### Adding and removing a path -/

theorem ensureItem_of_find? (hi : (h.group x).items.find? n = some i) :
    h.ensureItem x n = (i, h) := by
  rw [ensureItem, hi]

theorem ensureNested_of_primary (hy : (h.item i).value.primary = some y) (x : GroupId)
    (n : String) : h.ensureNested x i n = (y, h) := by
  rw [ensureNested, hy]

namespace PathTree

variable (ht : h.PathTree g)

include ht

theorem ensureItem (hx : h.follow g q = some x) (hn : IsSegment n) :
    (h.ensureItem x n).2.PathTree g ∧ (h.ensureItem x n).2.follow g q = some x ∧
      ((h.ensureItem x n).2.group x).items.find? n = some (h.ensureItem x n).1 ∧
      ∀ p, (h.ensureItem x n).2.Declares g p ↔ h.Declares g p ∨ p = q ++ [n] := by
  cases hi : (h.group x).items.find? n with
  | some i =>
    rw [ensureItem_of_find? hi]
    refine ⟨ht, hx, hi, fun p => ⟨.inl, fun hp => ?_⟩⟩
    rcases hp with hp | rfl
    · exact hp
    · rw [declares_concat_iff, itemBelow_eq_some_iff.2 ⟨x, hx, hi⟩]
      rfl
  | none =>
    have hin := (ht.group q x hx).inHeap
    have hadd := ensureItem_added hin hi
    refine ⟨hadd.pathTree ht hn, (hadd.follow_eq ht q).trans hx, ?_, hadd.declares_iff ht hx⟩
    rw [(ensureItem_of_new hin hi).2.2.2]
    exact (OrderedMap.find?_insert _ n n _).trans (if_pos rfl)

theorem ensureNested (hx : h.follow g q = some x) (hi : (h.group x).items.find? n = some i) :
    (h.ensureNested x i n).2.PathTree g ∧
      (h.ensureNested x i n).2.follow g (q ++ [n]) = some (h.ensureNested x i n).1 ∧
      ∀ p, (h.ensureNested x i n).2.Declares g p ↔ h.Declares g p := by
  cases hy : (h.item i).value.primary with
  | some y =>
    rw [ensureNested_of_primary hy]
    refine ⟨ht, ?_, fun p => .rfl⟩
    rw [follow_concat, hx, Option.bind_some]
    exact primaryAt_eq_some_iff.2 ⟨i, hi, hy⟩
  | none =>
    have hnest := ensureNested_nested ((ht.group q x hx).items n i hi).inHeap hy x n
    refine ⟨hnest.pathTree ht hx hi, ?_, hnest.declares_iff ht hx hi⟩
    rw [hnest.follow_eq ht hx hi, if_pos rfl]

end PathTree

/-- The ways along a list of names: its first name, and the ways behind that. -/
theorem exists_prefix_cons_iff {l : List String} :
    (∃ r, r ≠ [] ∧ r <+: n :: l ∧ p = q ++ r) ↔
      p = q ++ [n] ∨ ∃ r, r ≠ [] ∧ r <+: l ∧ p = q ++ [n] ++ r := by
  constructor
  · rintro ⟨r, hne, hr, rfl⟩
    obtain ⟨t, rfl, ht⟩ := (List.prefix_cons_iff.1 hr).resolve_left hne
    cases t with
    | nil => exact .inl rfl
    | cons m t => exact .inr ⟨m :: t, List.cons_ne_nil m t, ht, by simp⟩
  · rintro (rfl | ⟨r, -, hr, rfl⟩)
    · exact ⟨[n], List.cons_ne_nil n [], List.prefix_cons_iff.2 (.inr ⟨[], rfl, List.nil_prefix⟩),
        rfl⟩
    · exact ⟨n :: r, List.cons_ne_nil n r, List.prefix_cons_iff.2 (.inr ⟨r, rfl, hr⟩), by simp⟩

/-- **Adding a path declares it and every path that leads to it**, behind the way to the group that
it is added to. -/
theorem PathTree.ensurePath (rest : List String) : ∀ {h : Heap} {x : GroupId} {q : List String}
    {head : String}, h.PathTree g → h.follow g q = some x → (∀ s ∈ head :: rest, IsSegment s) →
    (h.ensurePath x head rest).2.PathTree g ∧ ∀ p, (h.ensurePath x head rest).2.Declares g p ↔
      h.Declares g p ∨ ∃ r, r ≠ [] ∧ r <+: head :: rest ∧ p = q ++ r := by
  induction rest with
  | nil =>
    intro h x q head ht hx hvalid
    obtain ⟨ht', -, -, hdeclares⟩ := ht.ensureItem hx (hvalid head List.mem_cons_self)
    refine ⟨ht', fun p => (hdeclares p).trans (or_congr_right ?_)⟩
    rw [exists_prefix_cons_iff]
    exact ⟨.inl, fun hp => hp.resolve_right fun ⟨r, hne, hr, _⟩ => hne (List.prefix_nil.1 hr)⟩
  | cons next rest ih =>
    intro h x q head ht hx hvalid
    rw [List.forall_mem_cons] at hvalid
    obtain ⟨ht₁, hx₁, hi₁, hdeclares₁⟩ := ht.ensureItem hx hvalid.1
    obtain ⟨ht₂, hx₂, hdeclares₂⟩ := ht₁.ensureNested hx₁ hi₁
    obtain ⟨ht₃, hdeclares₃⟩ := ih ht₂ hx₂ hvalid.2
    refine ⟨ht₃, fun p => ?_⟩
    rw [exists_prefix_cons_iff, ← or_assoc, ← hdeclares₁, ← hdeclares₂]
    exact hdeclares₃ p

/-- **Removing a path takes it back with all that go on from it**: its item is erased from the group
that owns it. -/
theorem PathTree.eraseItem (ht : h.PathTree g) (hi : h.itemBelow g q n = some i) :
    (h.alterGroup (h.item i).owner fun x =>
        { x with items := x.items.erase (h.item i).name }).PathTree g ∧
      ∀ p, (h.alterGroup (h.item i).owner fun x =>
          { x with items := x.items.erase (h.item i).name }).Declares g p ↔
        h.Declares g p ∧ ¬ q ++ [n] <+: p := by
  obtain ⟨x, hx, hi⟩ := itemBelow_eq_some_iff.1 hi
  have hgroup := ht.group q x hx
  have hitem := hgroup.items n i hi
  rw [hitem.owner, hitem.name]
  have herase := eraseItem_erased hgroup.inHeap n
  exact ⟨herase.pathTree ht hx, herase.declares_iff ht hx⟩

/-! ### Groups without attributes -/

/-- A group of the heap without items, super group and owning item. -/
structure Blank (h : Heap) (g : GroupId) : Prop where
  inHeap : h.HasGroup g
  above : (h.group g).above = none
  nestedIn : (h.group g).nestedIn = none
  items : (h.group g).items = .empty

/-- **A blank group is the root of a tree without paths.** -/
theorem Blank.pathTree (hblank : h.Blank g) : h.PathTree g ∧ ∀ p, ¬ h.Declares g p := by
  have hnone : ∀ n, (h.group g).items.find? n = none := by
    intro n
    rw [hblank.items]
    rfl
  have hroot : ∀ q x, h.follow g q = some x → x = g := by
    intro q x hx
    cases q with
    | nil => exact (Option.some.inj hx).symm
    | cons n q =>
      rw [follow, primaryAt, hnone] at hx
      cases hx
  refine ⟨⟨hblank.nestedIn, fun q x hx => ?_⟩, fun p hp => ?_⟩
  · obtain rfl := hroot q x hx
    refine ⟨hblank.inHeap, hblank.above, fun n i hi => ?_⟩
    rw [hnone] at hi
    cases hi
  · obtain ⟨q, n, rfl, hi⟩ := hp
    obtain ⟨i, hi⟩ := Option.isSome_iff_exists.1 hi
    obtain ⟨x, hx, hfound⟩ := itemBelow_eq_some_iff.1 hi
    rw [hroot q x hx, hnone] at hfound
    cases hfound

theorem blank_createGroup (h : Heap) (name : String) (type : Option ObjectType)
    (typeName : Option String) (validated : Bool) (v : Variant) :
    (h.createGroup name type typeName validated v).2.Blank
      (h.createGroup name type typeName validated v).1 := by
  have hgroup : (h.createGroup name type typeName validated v).2.group
      (h.createGroup name type typeName validated v).1 =
        { name := name, type := type, typeName := typeName.or (type.map ObjectType.name)
          validated := validated, variant := ⟨h.variants.size⟩ } := group_allocGroup_self _ _
  refine ⟨hasGroup_allocGroup.2 (.inr rfl), ?_, ?_, ?_⟩
  · rw [hgroup]
  · rw [hgroup]
  · rw [hgroup]

/-- A new group is the root of a tree without paths. -/
theorem pathTree_createGroup (h : Heap) (name : String) (type : Option ObjectType)
    (typeName : Option String) (validated : Bool) (v : Variant) :
    (h.createGroup name type typeName validated v).2.PathTree
        (h.createGroup name type typeName validated v).1 ∧
      ∀ p, ¬ (h.createGroup name type typeName validated v).2.Declares
        (h.createGroup name type typeName validated v).1 p :=
  (blank_createGroup h name type typeName validated v).pathTree

end AttributeGraph.Heap
