/-
The order in which paths are added does not matter.

A tree that has grown by adding paths only is plain: it has neither typed nor key
groups, and every nested group has attributes (`PlainTree`).  Such a tree is given
by the set of its paths up to equality: equal groups declare the same paths
(`declares_iff_of_bisimulation`), and in two plain trees of the same set the groups
at the same place form a bisimulation of one shape (`Paired`).

Adding to one tree leaves every other one alone, since no group lies in two trees
(`PathTree.root_unique`), so two groups can be grown one after the other in the
same heap: `groupsAgree_iff_prefixes`.
-/
import AttributeGraph.Heap.Coverage
import AttributeGraph.Proofs.EqualCoverage
import AttributeGraph.Proofs.PathEdits

namespace AttributeGraph

/-- No groups are filed per type, and none are nested for keys. -/
structure Item.Plain (i : Item) : Prop where
  byType : i.value.byType = none
  key : i.key = {}

/-- The non-empty prefixes of the paths of some inputs. -/
def prefixesOf (inputs : List PathInput) : Finset (List String) :=
  inputs.toFinset.biUnion PathInput.prefixes

theorem prefixesOf_cons (input : PathInput) (inputs : List PathInput) :
    prefixesOf (input :: inputs) = input.prefixes ∪ prefixesOf inputs := by
  rw [prefixesOf, List.toFinset_cons, Finset.biUnion_insert, prefixesOf]

namespace Heap

variable {h h' h'' : Heap} {a b g x y z : GroupId} {p q r path : List String} {m n : String}
  {i j : ItemId} {S : Finset (List String)}

/-! ### Adding to one of two trees -/

/-- **No group lies in two trees.** -/
theorem PathTree.root_unique (ha : h.PathTree a) (hb : h.PathTree b) (hx : h.follow a q = some x)
    (hy : h.follow b r = some x) : a = b :=
  ((ha.climbs hx).unique (hb.climbs hy)).1

/-- The groups and items of a tree stay as they are. -/
def KeepsTree (h h' : Heap) (g : GroupId) : Prop :=
  ∀ q x, h.follow g q = some x → h'.HasGroup x ∧ h'.group x = h.group x ∧
    ∀ n i, (h.group x).items.find? n = some i → h'.HasItem i ∧ h'.item i = h.item i

namespace KeepsTree

theorem refl (ht : h.PathTree g) : KeepsTree h h g := fun q x hx =>
  ⟨(ht.group q x hx).inHeap, rfl, fun n i hi => ⟨((ht.group q x hx).items n i hi).inHeap, rfl⟩⟩

variable (hkeep : KeepsTree h h' g)

include hkeep

theorem follow_eq (q : List String) : h'.follow g q = h.follow g q := by
  induction q using List.reverseRecOn with
  | nil => rfl
  | append_singleton q n ih =>
    rw [follow_concat, follow_concat, ih]
    cases hx : h.follow g q with
    | none => rfl
    | some x =>
      obtain ⟨-, hgroup, hitems⟩ := hkeep q x hx
      rw [Option.bind_some, Option.bind_some, primaryAt, primaryAt, hgroup]
      exact Option.bind_congr fun i hi => by rw [(hitems n i hi).2]

theorem itemBelow_eq (q : List String) (n : String) : h'.itemBelow g q n = h.itemBelow g q n := by
  rw [itemBelow, itemBelow, hkeep.follow_eq]
  exact Option.bind_congr fun x hx => by rw [(hkeep q x hx).2.1]

theorem declares_iff : h'.Declares g p ↔ h.Declares g p := by
  unfold Declares
  simp only [hkeep.itemBelow_eq]

theorem trans (hnext : KeepsTree h' h'' g) : KeepsTree h h'' g := by
  intro q x hx
  obtain ⟨-, hgroup, hitems⟩ := hkeep q x hx
  obtain ⟨hin, hgroup', hitems'⟩ := hnext q x ((hkeep.follow_eq q).trans hx)
  refine ⟨hin, hgroup'.trans hgroup, fun n i hi => ?_⟩
  obtain ⟨hitem, heq⟩ := hitems' n i (by rw [hgroup, hi])
  exact ⟨hitem, heq.trans (hitems n i hi).2⟩

theorem pathTree (ht : h.PathTree g) : h'.PathTree g := by
  refine ⟨?_, fun q x hx => ?_⟩
  · rw [(hkeep [] g rfl).2.1, ht.root]
  rw [hkeep.follow_eq] at hx
  obtain ⟨hin, hgroup, hitems⟩ := hkeep q x hx
  have htree := ht.group q x hx
  refine ⟨hin, by rw [hgroup, htree.above], fun n i hi => ?_⟩
  rw [hgroup] at hi
  obtain ⟨hiin, hitem⟩ := hitems n i hi
  have hold := htree.items n i hi
  refine ⟨hiin, by rw [hitem, hold.name], by rw [hitem, hold.owner], by rw [hitem, hold.untyped],
    hold.segment, fun y hy => ?_⟩
  rw [hitem] at hy
  have hfollow : h.follow g (q ++ [n]) = some y := by
    rw [follow_concat, hx, Option.bind_some]
    exact primaryAt_eq_some_iff.2 ⟨i, hi, hy⟩
  rw [(hkeep _ y hfollow).2.1, hold.nested y hy]

end KeepsTree

theorem ItemAdded.keepsTree (hadd : h.ItemAdded h' x n) (ha : h.PathTree a) (hg : h.PathTree g)
    (hx : h.follow g q = some x) (hne : a ≠ g) : KeepsTree h h' a := by
  intro r z hz
  have htree := ha.group r z hz
  have hzx : z ≠ x := fun heq => hne (ha.root_unique hg (heq ▸ hz) hx)
  refine ⟨hadd.grows.hasGroup z htree.inHeap, hadd.grows.group z htree.inHeap hzx,
    fun n i hi => ?_⟩
  have hin := (htree.items n i hi).inHeap
  exact ⟨hadd.grows.hasItem i hin, hadd.grows.item i hin id⟩

theorem GroupNested.keepsTree (hnest : h.GroupNested h' i y) (ha : h.PathTree a)
    (hg : h.PathTree g) (hx : h.follow g q = some x) (hi : (h.group x).items.find? n = some i)
    (hne : a ≠ g) : KeepsTree h h' a := by
  intro r z hz
  have htree := ha.group r z hz
  refine ⟨hnest.grows.hasGroup z htree.inHeap, hnest.grows.group z htree.inHeap id,
    fun m j hj => ?_⟩
  have hitem := htree.items m j hj
  refine ⟨hnest.grows.hasItem j hitem.inHeap, hnest.grows.item j hitem.inHeap fun heq => ?_⟩
  -- the item would belong to groups of both trees
  subst heq
  have howner : z = x := hitem.owner.symm.trans ((hg.group q x hx).items n j hi).owner
  exact hne (ha.root_unique hg (howner ▸ hz) hx)

/-! ### Adding a path, write by write -/

/-- **What every write of adding a path keeps is kept.**  Groups are nested on the way of the path
only, where it goes on. -/
theorem PathTree.ensurePath_keeps {P : Heap → Prop} {l : List String}
    (hadd : ∀ {h h' : Heap} {q : List String} {x : GroupId} {n : String}, h.PathTree g →
      h.follow g q = some x → h.ItemAdded h' x n → P h → P h')
    (hnest : ∀ {h h' : Heap} {q : List String} {x y : GroupId} {n m : String} {i : ItemId},
      h.PathTree g → h.follow g q = some x → (h.group x).items.find? n = some i →
      q ++ [n, m] <+: l → h.GroupNested h' i y → P h → P h') (rest : List String) :
    ∀ {h : Heap} {x : GroupId} {q : List String} {head : String}, h.PathTree g →
      h.follow g q = some x → (∀ s ∈ head :: rest, IsSegment s) → q ++ head :: rest = l → P h →
      P (h.ensurePath x head rest).2 := by
  have hitem : ∀ {h : Heap} {x : GroupId} {q : List String} (n : String), h.PathTree g →
      h.follow g q = some x → P h → P (h.ensureItem x n).2 := by
    intro h x q n ht hx hP
    cases hi : (h.group x).items.find? n with
    | some i => rwa [ensureItem_of_find? hi]
    | none => exact hadd ht hx (ensureItem_added (ht.group q x hx).inHeap hi) hP
  have hgroup : ∀ {h : Heap} {x : GroupId} {q : List String} {n m : String} {i : ItemId},
      h.PathTree g → h.follow g q = some x → (h.group x).items.find? n = some i →
      q ++ [n, m] <+: l → P h → P (h.ensureNested x i n).2 := by
    intro h x q n m i ht hx hi hpath hP
    cases hy : (h.item i).value.primary with
    | some y => rwa [ensureNested_of_primary hy]
    | none =>
      have hin := ((ht.group q x hx).items n i hi).inHeap
      exact hnest ht hx hi hpath (ensureNested_nested hin hy x n) hP
  induction rest with
  | nil =>
    intro h x q head ht hx _ _ hP
    exact hitem head ht hx hP
  | cons next rest ih =>
    intro h x q head ht hx hvalid hpath hP
    rw [List.forall_mem_cons] at hvalid
    obtain ⟨ht₁, hx₁, hi₁, -⟩ := ht.ensureItem hx hvalid.1
    obtain ⟨ht₂, hx₂, -⟩ := ht₁.ensureNested hx₁ hi₁
    have hway : q ++ [head, next] <+: l := ⟨rest, by rw [← hpath]; simp⟩
    exact ih ht₂ hx₂ hvalid.2 (by rw [← hpath]; simp)
      (hgroup ht₁ hx₁ hi₁ hway (hitem head ht hx hP))

/-! ### Plain trees -/

/-- A tree that declares the paths of a set, without typed and key groups, in which every nested
group has an attribute. -/
structure PlainTree (h : Heap) (g : GroupId) (S : Finset (List String)) : Prop where
  declared : h.DeclaresSet g S
  plain : ∀ q n i, h.itemBelow g q n = some i → (h.item i).Plain
  inner : ∀ q n x, h.follow g (q ++ [n]) = some x → ∃ m, h.Declares g (q ++ [n, m])

theorem Blank.plainTree (hblank : h.Blank g) : h.PlainTree g ∅ := by
  obtain ⟨ht, hnone⟩ := hblank.pathTree
  refine ⟨⟨ht, fun p => iff_of_false (hnone p) (Finset.notMem_empty p)⟩, fun q n i hi => ?_,
    fun q n x hx => ?_⟩
  · exact absurd (declares_concat_iff.2 (Option.isSome_iff_exists.2 ⟨i, hi⟩)) (hnone (q ++ [n]))
  · obtain ⟨y, i, hy, hi, -, -⟩ := ht.exists_parent hx
    exact absurd (declares_concat_iff.2 (Option.isSome_iff_exists.2
      ⟨i, itemBelow_eq_some_iff.2 ⟨y, hy, hi⟩⟩)) (hnone (q ++ [n]))

theorem KeepsTree.plainTree (hkeep : KeepsTree h h' g) (hp : h.PlainTree g S) :
    h'.PlainTree g S := by
  have hdeclares (p : List String) := hkeep.declares_iff.trans (hp.declared.declares p)
  refine ⟨⟨hkeep.pathTree hp.declared.tree, hdeclares⟩, fun q n i hi => ?_, fun q n x hx => ?_⟩
  · rw [hkeep.itemBelow_eq] at hi
    obtain ⟨x, hx, hfound⟩ := itemBelow_eq_some_iff.1 hi
    rw [((hkeep q x hx).2.2 n i hfound).2]
    exact hp.plain q n i hi
  · rw [hkeep.follow_eq] at hx
    simp only [hkeep.declares_iff]
    exact hp.inner q n x hx

/-- The items of the tree are plain. -/
def PlainItems (h : Heap) (g : GroupId) : Prop :=
  ∀ q n i, h.itemBelow g q n = some i → (h.item i).Plain

theorem ItemAdded.plainItems (hadd : h.ItemAdded h' x n) (ht : h.PathTree g)
    (hp : h.PlainItems g) : h'.PlainItems g := by
  intro q m j hj
  obtain ⟨z, hz, hj⟩ := itemBelow_eq_some_iff.1 hj
  rw [hadd.follow_eq ht] at hz
  have htree := ht.group q z hz
  have hkept : (h.group z).items.find? m = some j → (h'.item j).Plain := by
    intro hj
    rw [hadd.grows.item j (htree.items m j hj).inHeap id]
    exact hp q m j (itemBelow_eq_some_iff.2 ⟨z, hz, hj⟩)
  by_cases hzx : z = x
  · subst hzx
    obtain ⟨i, -, hitem, hfind⟩ := hadd.find? m
    rw [hfind] at hj
    by_cases hm : m = n
    · rw [if_pos hm] at hj
      obtain rfl := Option.some.inj hj
      rw [hitem]
      exact ⟨rfl, rfl⟩
    · rw [if_neg hm] at hj
      exact hkept hj
  · rw [hadd.grows.group z htree.inHeap hzx] at hj
    exact hkept hj

theorem GroupNested.plainItems (hnest : h.GroupNested h' i y) (ht : h.PathTree g)
    (hx : h.follow g q = some x) (hi : (h.group x).items.find? n = some i) (hp : h.PlainItems g) :
    h'.PlainItems g := by
  intro r m j hj
  obtain ⟨z, hz, hj⟩ := itemBelow_eq_some_iff.1 hj
  rw [hnest.follow_eq ht hx hi] at hz
  by_cases hr : r = q ++ [n]
  · rw [if_pos hr] at hz
    obtain rfl := Option.some.inj hz
    rw [hnest.items] at hj
    cases hj
  · rw [if_neg hr] at hz
    have htree := ht.group r z hz
    rw [hnest.grows.group z htree.inHeap id] at hj
    have hold := hp r m j (itemBelow_eq_some_iff.2 ⟨z, hz, hj⟩)
    by_cases hji : j = i
    · rw [hji, hnest.item, ← hji]
      exact ⟨hold.byType, hold.key⟩
    · rw [hnest.grows.item j (htree.items m j hj).inHeap hji]
      exact hold

/-- Every nested group has an attribute, or it lies on the way of a path that goes on. -/
def InnerUpTo (h : Heap) (g : GroupId) (path : List String) : Prop :=
  ∀ q n x, h.follow g (q ++ [n]) = some x →
    ∃ m, h.Declares g (q ++ [n, m]) ∨ q ++ [n, m] <+: path

theorem ItemAdded.innerUpTo (hadd : h.ItemAdded h' x n) (ht : h.PathTree g)
    (hx : h.follow g q = some x) (hinner : h.InnerUpTo g path) : h'.InnerUpTo g path := by
  intro r m z hz
  rw [hadd.follow_eq ht] at hz
  obtain ⟨l, hl⟩ := hinner r m z hz
  exact ⟨l, hl.imp_left fun hl => (hadd.declares_iff ht hx _).2 (.inl hl)⟩

theorem GroupNested.innerUpTo (hnest : h.GroupNested h' i y) (ht : h.PathTree g)
    (hx : h.follow g q = some x) (hi : (h.group x).items.find? n = some i)
    (hway : q ++ [n, m] <+: path) (hinner : h.InnerUpTo g path) : h'.InnerUpTo g path := by
  intro r l z hz
  rw [hnest.follow_eq ht hx hi] at hz
  by_cases hr : r ++ [l] = q ++ [n]
  · obtain ⟨rfl, hlast⟩ := List.append_inj' hr rfl
    obtain rfl := List.head_eq_of_cons_eq hlast
    exact ⟨m, .inr hway⟩
  · rw [if_neg hr] at hz
    obtain ⟨k, hk⟩ := hinner r l z hz
    exact ⟨k, hk.imp_left (hnest.declares_iff ht hx hi _).2⟩

/-- **Adding a path keeps a tree plain.** -/
theorem PlainTree.addPath (hp : h.PlainTree g S) (p : Path) :
    (h.ensurePath g p.head p.tail).2.PlainTree g (S ∪ p.prefixes) := by
  have ht := hp.declared.tree
  have hdeclared := hp.declared.addPath p
  refine ⟨hdeclared, ?_, fun q n x hx => ?_⟩
  · exact ht.ensurePath_keeps (P := fun h => h.PlainItems g) (l := p.segments)
      (fun ht _ hadd hP => hadd.plainItems ht hP)
      (fun ht hx hi _ hnest hP => hnest.plainItems ht hx hi hP) p.tail (q := []) rfl p.valid rfl
      hp.plain
  · have hinner : (h.ensurePath g p.head p.tail).2.InnerUpTo g p.segments :=
      ht.ensurePath_keeps (P := fun h => h.InnerUpTo g p.segments) (l := p.segments)
        (fun ht hx hadd hP => hadd.innerUpTo ht hx hP)
        (fun ht hx hi hway hnest hP => hnest.innerUpTo ht hx hi hway hP) p.tail (q := []) rfl
        p.valid rfl fun q n x hx => (hp.inner q n x hx).imp fun _ => .inl
    obtain ⟨m, hm⟩ := hinner q n x hx
    refine ⟨m, hm.elim id fun hway => (hdeclared.declares _).2 ?_⟩
    exact Finset.mem_union_right _ (mem_prefixes.2 ⟨by simp, hway⟩)

theorem PathTree.keepsTree_ensurePath (ha : h.PathTree a) (hg : h.PathTree g) (hne : a ≠ g)
    (p : Path) : KeepsTree h (h.ensurePath g p.head p.tail).2 a :=
  hg.ensurePath_keeps (P := fun h' => KeepsTree h h' a) (l := p.segments)
    (fun hg hx hadd hP => hP.trans (hadd.keepsTree (hP.pathTree ha) hg hx hne))
    (fun hg hx hi _ hnest hP => hP.trans (hnest.keepsTree (hP.pathTree ha) hg hx hi hne))
    p.tail (q := []) rfl p.valid rfl (.refl ha)

/-- **Adding paths in turn** unites the set with their prefixes, answers for each one whether it is
a path, and leaves all other trees alone. -/
theorem PlainTree.editAll (inputs : List PathInput) : ∀ {h : Heap} {S : Finset (List String)},
    h.PlainTree g S →
      (h.editAll g (inputs.map .add)).2.PlainTree g (S ∪ prefixesOf inputs) ∧
        (h.editAll g (inputs.map .add)).1 = inputs.map PathInput.answer ∧
        ∀ a, h.PathTree a → a ≠ g → KeepsTree h (h.editAll g (inputs.map .add)).2 a := by
  induction inputs with
  | nil =>
    intro h S hp
    refine ⟨?_, rfl, fun a ha _ => .refl ha⟩
    show h.PlainTree g (S ∪ prefixesOf [])
    simpa [prefixesOf] using hp
  | cons input inputs ih =>
    intro h S hp
    rw [List.map_cons, Heap.editAll, Heap.edit, prefixesOf_cons, ← Finset.union_assoc]
    cases hpath : input.path? with
    | none =>
      rw [addPath_of_path?_eq_none hpath, prefixes_of_path?_eq_none hpath, Finset.union_empty]
      obtain ⟨htree, hanswers, hothers⟩ := ih hp
      refine ⟨htree, ?_, hothers⟩
      rw [List.map_cons, ← hanswers, answer_of_path?_eq_none hpath]
      rfl
    | some p =>
      rw [addPath_of_path? hpath, prefixes_of_path? hpath]
      obtain ⟨htree, hanswers, hothers⟩ := ih (hp.addPath p)
      refine ⟨htree, ?_, fun a ha hne => ?_⟩
      · rw [List.map_cons, ← hanswers, answer_of_path? hpath]
        rfl
      · have hkeep := ha.keepsTree_ensurePath hp.declared.tree hne p
        exact hkeep.trans (hothers a (hkeep.pathTree ha) hne)

/-! ### Equal groups declare the same paths -/

theorem declares_iff_of_bisimulation {R : GroupId → GroupId → Prop} (hR : h.Bisimulation R)
    (r : List String) : ∀ {x y : GroupId}, Relation.ReflGen R x y →
      (h.Declares x r ↔ h.Declares y r) := by
  induction r with
  | nil => exact fun _ => iff_of_false not_declares_nil not_declares_nil
  | cons n r ih =>
    intro x y hxy
    cases hxy with
    | refl => exact Iff.rfl
    | single hxy =>
      rcases hR x y hxy with rfl | hm
      · exact Iff.rfl
      rw [declares_cons_iff, declares_cons_iff]
      refine exists_iff_of_rel (hm.items n) fun i j hij => or_congr_right ?_
      exact exists_iff_of_rel hij.value.primary fun u v huv => ih huv

/-! ### Two plain trees of the same paths -/

/-- Two groups are at the same place of two trees. -/
structure Paired (h : Heap) (a b : GroupId) (q : List String) (x y : GroupId) : Prop where
  left : h.follow a q = some x
  right : h.follow b q = some y

/-- Two plain items have the same name, and their nested groups are related. -/
structure PairedItems (h : Heap) (R : GroupId → GroupId → Prop) (i j : ItemId) : Prop where
  name : (h.item i).name = (h.item j).name
  left : (h.item i).Plain
  right : (h.item j).Plain
  primary : Option.Rel R (h.item i).value.primary (h.item j).value.primary

/-- Names lead to a nested group of a plain tree exactly if a path goes on from them. -/
theorem PlainTree.isSome_follow_iff (hp : h.PlainTree g S) :
    (h.follow g (q ++ [n])).isSome = true ↔ ∃ m, q ++ [n, m] ∈ S := by
  simp only [← hp.declared.declares]
  constructor
  · intro hx
    obtain ⟨x, hx⟩ := Option.isSome_iff_exists.1 hx
    exact hp.inner q n x hx
  · rintro ⟨m, hm⟩
    rw [show q ++ [n, m] = q ++ [n] ++ [m] by simp, declares_concat_iff] at hm
    obtain ⟨i, hi⟩ := Option.isSome_iff_exists.1 hm
    obtain ⟨x, hx, -⟩ := itemBelow_eq_some_iff.1 hi
    rw [hx]
    rfl

section Pairs

variable (ha : h.PlainTree a S) (hb : h.PlainTree b S)

include ha hb

/-- **Groups at the same place have the same items**, with nested groups at the same place. -/
theorem rel_pairedItems (hxy : h.Paired a b q x y) (n : String) :
    Option.Rel (h.PairedItems (h.Paired a b (q ++ [n]))) ((h.group x).items.find? n)
      ((h.group y).items.find? n) := by
  have hitem : ∀ {g z : GroupId}, h.follow g q = some z →
      h.itemBelow g q n = (h.group z).items.find? n := by
    intro g z hz
    rw [itemBelow, hz]
    rfl
  have hnested : ∀ {g z : GroupId} {i : ItemId}, h.follow g q = some z →
      (h.group z).items.find? n = some i → h.follow g (q ++ [n]) = (h.item i).value.primary := by
    intro g z i hz hi
    rw [follow_concat, hz, Option.bind_some, primaryAt, hi]
    rfl
  obtain ⟨hx, hy⟩ := hxy
  refine rel_of_isSome_iff ?_ fun i j hi hj => ?_
  · rw [← hitem hx, ← hitem hy, ← declares_concat_iff, ← declares_concat_iff,
      ha.declared.declares, hb.declared.declares]
  · have hi' := (ha.declared.tree.group q x hx).items n i hi
    have hj' := (hb.declared.tree.group q y hy).items n j hj
    refine ⟨hi'.name.trans hj'.name.symm, ha.plain q n i ((hitem hx).trans hi),
      hb.plain q n j ((hitem hy).trans hj), rel_of_isSome_iff ?_ fun u v hu hv => ?_⟩
    · rw [← hnested hx hi, ← hnested hy hj, ha.isSome_follow_iff, hb.isSome_follow_iff]
    · exact ⟨(hnested hx hi).trans hu, (hnested hy hj).trans hv⟩

theorem simulation_paired : h.Simulation fun x y => ∃ q, h.Paired a b q x y := by
  rintro x y ⟨q, hxy⟩
  have hitems := rel_pairedItems ha hb hxy
  refine obligations_iff.2 ⟨⟨fun n => rel_mono (fun i j hij => ?_) (hitems n), ?_⟩,
    fun n i j hi hj => ?_⟩
  · refine ⟨⟨rel_mono (fun _ _ huv => .single ⟨_, huv⟩) hij.primary, fun k => ?_⟩, ?_⟩
    · rw [Slot.find?, Slot.find?, hij.left.byType, hij.right.byType]
      exact .none
    · rw [hij.left.key, hij.right.key]
      exact ⟨.none, fun k => .none⟩
  · rw [(ha.declared.tree.group q x hxy.left).above, (hb.declared.tree.group q y hxy.right).above]
    exact .none
  · have hij := hitems n
    rw [hi, hj, rel_some_iff] at hij
    exact hij.name

theorem groupsAgree_of_plainTrees : h.groupsAgree (some a) (some b) = true := by
  refine meets_of_simulation (simulation_paired ha hb) (fun x y ⟨q, hxy⟩ => ?_) fun d hd => ?_
  · exact ⟨(ha.declared.tree.group q x hxy.left).inHeap,
      (hb.declared.tree.group q y hxy.right).inHeap⟩
  · obtain rfl := List.mem_singleton.1 hd
    exact .some (.single ⟨[], rfl, rfl⟩)

/-- Plain items have no typed groups on either side, so nothing stops the comparison. -/
theorem coverage_of_plainTrees : h.coverage a (some b) = (true, []) := by
  refine coverage_eq_silent_of_bisimulation (R := fun x y => ∃ q, h.Paired a b q x y)
    (fun x y hxy => ?_) ?_ ⟨[], rfl, rfl⟩
  · exact .inr (obligations_iff.1 (simulation_paired ha hb x y hxy)).1
  · rintro x y ⟨q, hxy⟩ n i j hi hj side
    have hij := rel_pairedItems ha hb hxy n
    rw [hi, hj, rel_some_iff] at hij
    cases side <;>
      simp [Item.slot, hij.left.byType, hij.right.byType, hij.left.key, hij.right.key]

end Pairs

/-! ### Adding paths in any order -/

/-- **Neither order nor repetition of paths matters.**  To two groups without attributes the paths
of two lists of inputs are added, first all to one, then all to the other; every input is answered
for.  The groups are equal exactly if the paths of both lists have the same prefixes.  Then each
covers the other without a diagnostic, and both list the same paths. -/
theorem groupsAgree_iff_prefixes (ha : h.Blank a) (hb : h.Blank b) (hne : a ≠ b)
    (left right : List PathInput) :
    let first := h.editAll a (left.map .add)
    let last := first.2.editAll b (right.map .add)
    first.1 = left.map PathInput.answer ∧ last.1 = right.map PathInput.answer ∧
      (last.2.groupsAgree (some a) (some b) = true ↔ prefixesOf left = prefixesOf right) ∧
      (prefixesOf left = prefixesOf right →
        last.2.coverage a (some b) = (true, []) ∧ last.2.coverage b (some a) = (true, []) ∧
          last.2.paths a = last.2.paths b) := by
  intro first last
  obtain ⟨htree, hfirst, hothers⟩ := ha.plainTree.editAll left
  have hfresh : first.2.PlainTree b ∅ := (hothers b hb.pathTree.1 hne.symm).plainTree hb.plainTree
  obtain ⟨hright, hlast, hothers'⟩ := hfresh.editAll right
  have hleft : last.2.PlainTree a (∅ ∪ prefixesOf left) :=
    (hothers' a htree.declared.tree hne).plainTree htree
  rw [Finset.empty_union] at hleft hright
  refine ⟨hfirst, hlast, ⟨fun hagree => ?_, fun heq => ?_⟩, fun heq => ?_⟩
  · obtain ⟨R, hR, hab⟩ := bisimulation_of_groupsAgree hagree
    ext p
    rw [← hleft.declared.declares, ← hright.declared.declares]
    exact declares_iff_of_bisimulation hR p (.single hab)
  · rw [← heq] at hright
    exact groupsAgree_of_plainTrees hleft hright
  · rw [← heq] at hright
    refine ⟨coverage_of_plainTrees hleft hright, coverage_of_plainTrees hright hleft, ?_⟩
    rw [hleft.declared.tree.paths_eq fun p => (hleft.declared.declares p).symm,
      hright.declared.tree.paths_eq fun p => (hright.declared.declares p).symm]

/-- Two groups without attributes. -/
def pages : Heap :=
  { groups := #[{ name := "left" }, { name := "right" }], variants := #[.generic] }

theorem blank_pages (hg : g = ⟨0⟩ ∨ g = ⟨1⟩) : pages.Blank g := by
  rcases hg with rfl | rfl <;> exact ⟨by decide, rfl, rfl, rfl⟩

/-- The paths of one page are added to the other one in reverse, and one of them twice. -/
theorem groupsAgree_iff_prefixes_pages :
    let city := PathInput.text "home.city"
    let name := PathInput.text "name"
    let both := ((pages.editAll ⟨0⟩ ([city, name].map .add)).2.editAll ⟨1⟩
      ([name, city, name].map .add)).2
    pages.Blank ⟨0⟩ ∧ pages.Blank ⟨1⟩ ∧ both.groupsAgree (some ⟨0⟩) (some ⟨1⟩) = true ∧
      both.coverage ⟨0⟩ (some ⟨1⟩) = (true, []) ∧ both.paths ⟨0⟩ = both.paths ⟨1⟩ := by
  intro city name both
  have hleft : pages.Blank ⟨0⟩ := blank_pages (.inl rfl)
  have hright : pages.Blank ⟨1⟩ := blank_pages (.inr rfl)
  have hsame : prefixesOf [city, name] = prefixesOf [name, city, name] :=
    congrArg (fun inputs : Finset PathInput => inputs.biUnion PathInput.prefixes)
      (show [city, name].toFinset = [name, city, name].toFinset from rfl)
  obtain ⟨-, -, hagree, hboth⟩ :=
    groupsAgree_iff_prefixes hleft hright (by decide) [city, name] [name, city, name]
  obtain ⟨hcovers, -, hpaths⟩ := hboth hsame
  exact ⟨hleft, hright, hagree.2 hsame, hcovers, hpaths⟩

end Heap

end AttributeGraph
