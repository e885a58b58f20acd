/-
Inserting subclass groups below one root.

A group that is inserted takes over the children of the receiver that derive from
it, and nothing else changes place (`above_insertBelow`, `mem_subs_insertBelow`).
It never looks for a child that it derives from itself.  After any run of
insertions the super group of an inserted group is therefore the first group that
was inserted after it and that it derives from, and the root if there is none
(`above_insertAll`), and the root or that group lists it.

Whether this is the nearest such group depends on the order.  Types form a forest,
so the groups that a group derives from are ordered among each other, and the run
gives the tree by specificity exactly if every group comes after those that derive
from it (`insertAll_nearest_iff`).
-/
import AttributeGraph.Heap.Subclass
import AttributeGraph.Proofs.Filling
import AttributeGraph.Proofs.WellFormed
import Mathlib.Data.List.Infix

namespace AttributeGraph

/-! ### The forest of types -/

namespace ObjectType

variable {r s t : ObjectType}

theorem mem_lineage_self (t : ObjectType) : t ∈ t.lineage := by
  cases t <;> exact List.mem_cons_self

theorem subsumes_iff : s.subsumes t = true ↔ s ∈ t.lineage := by
  induction t with
  | root id name =>
    rw [subsumes, lineage, decide_eq_true_iff, List.mem_singleton, eq_comm]
  | sub id name parent ih =>
    rw [subsumes, lineage, Bool.or_eq_true, decide_eq_true_iff, ih, List.mem_cons, eq_comm]

/-- The types above a type are the rest of every lineage that it occurs in. -/
theorem lineage_suffix (hs : s ∈ t.lineage) : s.lineage <:+ t.lineage := by
  induction t with
  | root id name =>
    obtain rfl := List.mem_singleton.1 hs
    exact List.suffix_rfl
  | sub id name parent ih =>
    rcases List.mem_cons.1 hs with rfl | hs
    · exact List.suffix_rfl
    · exact (ih hs).trans (List.suffix_cons _ _)

/-- **Two types above the same one are above each other**, one way or the other. -/
theorem mem_lineage_total (hr : r ∈ t.lineage) (hs : s ∈ t.lineage) :
    r ∈ s.lineage ∨ s ∈ r.lineage := by
  rcases List.suffix_or_suffix_of_suffix (lineage_suffix hr) (lineage_suffix hs) with h | h
  · exact .inl (h.subset r.mem_lineage_self)
  · exact .inr (h.subset s.mem_lineage_self)

theorem length_lineage_lt (hs : s ∈ t.lineage) (hne : s ≠ t) :
    s.lineage.length < t.lineage.length := by
  cases t with
  | root id name => exact absurd (List.mem_singleton.1 hs) hne
  | sub id name parent =>
    have hparent := (List.mem_cons.1 hs).resolve_left hne
    exact Nat.lt_succ_of_le (lineage_suffix hparent).length_le

theorem mem_lineage_antisymm (hs : s ∈ t.lineage) (ht : t ∈ s.lineage) : s = t := by
  by_contra hne
  exact Nat.lt_asymm (length_lineage_lt hs hne) (length_lineage_lt ht (Ne.symm hne))

end ObjectType

namespace Heap

variable {h : Heap} {relation : Hierarchy} {root g x y w : GroupId} {gs : List GroupId}

theorem derivesFrom_iff : h.derivesFrom relation g x = true ↔
    ∃ s t, (h.group g).type = some s ∧ (h.group x).type = some t ∧ x ≠ g ∧
      relation.subsumes s t = true := by
  unfold derivesFrom
  cases (h.group g).type with
  | none => simp
  | some s =>
    cases (h.group x).type with
    | none => simp
    | some t => simp

theorem derivesFrom_self (h : Heap) (relation : Hierarchy) (g : GroupId) :
    h.derivesFrom relation g g = false := by
  rw [← Bool.not_eq_true, derivesFrom_iff]
  rintro ⟨s, t, -, -, hne, -⟩
  exact hne rfl

theorem derivesFrom_congr {h' : Heap} (htype : ∀ x, (h'.group x).type = (h.group x).type)
    (g x : GroupId) : h'.derivesFrom relation g x = h.derivesFrom relation g x := by
  unfold derivesFrom
  rw [htype, htype]

theorem hasGroup_of_derivesFrom (hx : h.derivesFrom relation g x = true) : h.HasGroup x := by
  obtain ⟨s, t, -, ht, -⟩ := derivesFrom_iff.1 hx
  by_contra hno
  rw [group_of_not_hasGroup hno] at ht
  cases ht

/-! ### What an insertion moves -/

/-- Move those of some children of a group that derive from another one below that one. -/
def takeOver (h : Heap) (relation : Hierarchy) (parent g : GroupId) (children : List GroupId) :
    Heap :=
  children.foldl
    (fun h child => if h.derivesFrom relation g child then h.reparent child parent g else h) h

section Reparent

variable {child old new : GroupId}

theorem type_reparent (x : GroupId) :
    ((h.reparent child old new).group x).type = (h.group x).type := by
  unfold reparent
  rw [group_alterGroup_field Group.type (by exact fun _ => rfl),
    group_alterGroup_field Group.type (by exact fun _ => rfl),
    group_alterGroup_field Group.type (by exact fun _ => rfl)]

theorem hasGroup_reparent : (h.reparent child old new).HasGroup x ↔ h.HasGroup x := by
  simp only [reparent, hasGroup_alterGroup]

theorem above_reparent (hchild : h.HasGroup child) (x : GroupId) :
    ((h.reparent child old new).group x).above =
      if x = child then some new else (h.group x).above := by
  unfold reparent
  rw [group_alterGroup_field Group.above (by exact fun _ => rfl)]
  by_cases hx : x = child
  · rw [if_pos hx, hx, group_alterGroup_self (hasGroup_alterGroup.2 hchild)]
  · rw [if_neg hx, group_alterGroup_of_ne hx,
      group_alterGroup_field Group.above (by exact fun _ => rfl)]

theorem mem_subs_reparent (hold : h.HasGroup old) (hnew : h.HasGroup new) (hne : new ≠ old)
    (w x : GroupId) : w ∈ ((h.reparent child old new).group x).subs ↔
      if w = child then x = new ∨ x ≠ old ∧ w ∈ (h.group x).subs else w ∈ (h.group x).subs := by
  unfold reparent
  dsimp only
  by_cases hxold : x = old
  · rw [hxold, group_alterGroup_self (hasGroup_alterGroup.2 (hasGroup_alterGroup.2 hold)),
      Group.mem_subs_removeSub, group_alterGroup_field Group.subs (by exact fun _ => rfl),
      group_alterGroup_of_ne hne.symm]
    by_cases hw : w = child <;> simp [hw, hne.symm]
  · rw [group_alterGroup_of_ne hxold, group_alterGroup_field Group.subs (by exact fun _ => rfl)]
    by_cases hxnew : x = new
    · rw [hxnew, group_alterGroup_self hnew, Group.mem_subs_addSub]
      by_cases hw : w = child <;> simp [hw]
    · rw [group_alterGroup_of_ne hxnew]
      by_cases hw : w = child <;> simp [hw, hxold, hxnew]

end Reparent

/-- What a group has taken over, child by child. -/
structure TakenOver (h : Heap) (relation : Hierarchy) (parent g : GroupId)
    (children : List GroupId) (h' : Heap) : Prop where
  type : ∀ x, (h'.group x).type = (h.group x).type
  hasGroup : ∀ x, h'.HasGroup x ↔ h.HasGroup x
  above : ∀ x, (h'.group x).above =
    if x ∈ children ∧ h.derivesFrom relation g x = true then some g else (h.group x).above
  subs : ∀ w x, w ∈ (h'.group x).subs ↔
    if w ∈ children ∧ h.derivesFrom relation g w = true then
      x = g ∨ x ≠ parent ∧ w ∈ (h.group x).subs
    else w ∈ (h.group x).subs

theorem takeOver_of_derives {parent child : GroupId} (rest : List GroupId)
    (hderives : h.derivesFrom relation g child = true) :
    h.takeOver relation parent g (child :: rest) =
      (h.reparent child parent g).takeOver relation parent g rest := by
  rw [takeOver, List.foldl_cons, if_pos hderives]
  rfl

theorem takeOver_of_not_derives {parent child : GroupId} (rest : List GroupId)
    (hderives : ¬ h.derivesFrom relation g child = true) :
    h.takeOver relation parent g (child :: rest) = h.takeOver relation parent g rest := by
  rw [takeOver, List.foldl_cons, if_neg hderives]
  rfl

section InsertBelow

variable {parent : GroupId} (hparent : h.HasGroup parent) (hg : h.HasGroup g) (hne : g ≠ parent)

include hparent hg hne

theorem takenOver_takeOver (children : List GroupId) :
    TakenOver h relation parent g children (h.takeOver relation parent g children) := by
  induction children generalizing h with
  | nil => exact ⟨fun _ => rfl, fun _ => Iff.rfl, by simp [takeOver], by simp [takeOver]⟩
  | cons child rest ih =>
    by_cases hderives : h.derivesFrom relation g child = true
    · rw [takeOver_of_derives rest hderives]
      have hchild := hasGroup_of_derivesFrom hderives
      have hrest := ih (h := h.reparent child parent g) (hasGroup_reparent.2 hparent)
        (hasGroup_reparent.2 hg)
      refine ⟨fun x => (hrest.type x).trans (type_reparent x),
        fun x => (hrest.hasGroup x).trans hasGroup_reparent, fun x => ?_, fun w x => ?_⟩
      · rw [hrest.above, derivesFrom_congr type_reparent, above_reparent hchild]
        by_cases hx : x = child <;> simp [hx, hderives]
      · rw [hrest.subs, derivesFrom_congr type_reparent, mem_subs_reparent hparent hg hne]
        by_cases hw : w = child
        · simp only [hw, hderives, List.mem_cons, true_or, and_true, if_true]
          split <;> tauto
        · simp [hw]
    · rw [takeOver_of_not_derives rest hderives]
      have hrest := ih hparent hg
      refine ⟨hrest.type, hrest.hasGroup, fun x => ?_, fun w x => ?_⟩
      · rw [hrest.above]
        by_cases hx : x = child <;> simp [hx, hderives]
      · rw [hrest.subs]
        by_cases hw : w = child <;> simp [hw, hderives]

omit hparent hg in
theorem insertBelow_eq : h.insertBelow relation parent g =
    ((h.alterGroup g fun x => { x with above := some parent }).takeOver relation parent g
      (h.group parent).subs).alterGroup parent fun x =>
        { x with below := some ((x.below.getD .empty).insert g) } := by
  unfold insertBelow
  rw [if_neg hne]
  rfl

/-- What is taken over by a group that has been hung below another one. -/
theorem takenOver_insertBelow :
    TakenOver (h.alterGroup g fun x => { x with above := some parent }) relation parent g
      (h.group parent).subs
      ((h.alterGroup g fun x => { x with above := some parent }).takeOver relation parent g
        (h.group parent).subs) :=
  takenOver_takeOver (hasGroup_alterGroup.2 hparent) (hasGroup_alterGroup.2 hg) hne _

omit hparent hg hne in
theorem type_setAbove (x : GroupId) :
    ((h.alterGroup g fun x => { x with above := some parent }).group x).type =
      (h.group x).type :=
  group_alterGroup_field Group.type (by exact fun _ => rfl) g x

theorem type_insertBelow (x : GroupId) :
    ((h.insertBelow relation parent g).group x).type = (h.group x).type := by
  rw [insertBelow_eq hne, group_alterGroup_field Group.type (by exact fun _ => rfl),
    (takenOver_insertBelow hparent hg hne).type, type_setAbove]

theorem hasGroup_insertBelow : (h.insertBelow relation parent g).HasGroup x ↔ h.HasGroup x := by
  rw [insertBelow_eq hne, hasGroup_alterGroup, (takenOver_insertBelow hparent hg hne).hasGroup,
    hasGroup_alterGroup]

/-- **An insertion hangs the group below the receiver, and the children there that derive from it
below the group.** -/
theorem above_insertBelow (x : GroupId) : ((h.insertBelow relation parent g).group x).above =
    if x = g then some parent
    else if x ∈ (h.group parent).subs ∧ h.derivesFrom relation g x = true then some g
    else (h.group x).above := by
  rw [insertBelow_eq hne, group_alterGroup_field Group.above (by exact fun _ => rfl),
    (takenOver_insertBelow hparent hg hne).above, derivesFrom_congr type_setAbove]
  by_cases hx : x = g
  · simp [hx, derivesFrom_self, group_alterGroup_self hg]
  · rw [if_neg hx, group_alterGroup_of_ne hx]

/-- A group is listed where it is hung. -/
theorem mem_subs_insertBelow (w x : GroupId) :
    w ∈ ((h.insertBelow relation parent g).group x).subs ↔
      if w = g then x = parent ∨ w ∈ (h.group x).subs
      else if w ∈ (h.group parent).subs ∧ h.derivesFrom relation g w = true then
        x = g ∨ x ≠ parent ∧ w ∈ (h.group x).subs
      else w ∈ (h.group x).subs := by
  have hhung : TakenOver _ relation parent g _ _ := takenOver_insertBelow hparent hg hne
  have hmoved := hhung.subs w x
  rw [derivesFrom_congr type_setAbove,
    group_alterGroup_field Group.subs (by exact fun _ => rfl)] at hmoved
  rw [insertBelow_eq hne]
  by_cases hx : x = parent
  · subst hx
    rw [group_alterGroup_self ((hhung.hasGroup x).2 (hasGroup_alterGroup.2 hparent)),
      Group.mem_subs_addSub, hmoved]
    by_cases hw : w = g <;> simp [hw]
  · rw [group_alterGroup_of_ne hx, hmoved]
    by_cases hw : w = g
    · simp [hw, hx, derivesFrom_self]
    · rw [if_neg hw]

end InsertBelow

/-! ### Inserting one group after the other -/

/-- Insert groups in order below the same root. -/
def insertAll (h : Heap) (relation : Hierarchy) (root : GroupId) (gs : List GroupId) : Heap :=
  gs.foldl (fun h g => h.insertBelow relation root g) h

/-- Groups of the heap that are still to be inserted below a root. -/
structure Newcomers (h : Heap) (root : GroupId) (gs : List GroupId) : Prop where
  hasRoot : h.HasGroup root
  hasGroup : ∀ g ∈ gs, h.HasGroup g
  nodup : gs.Nodup
  root_notMem : root ∉ gs
  /-- No group lists any of them. -/
  unlisted : ∀ g ∈ gs, ∀ x, g ∉ (h.group x).subs

namespace Newcomers

theorem tail (hnew : h.Newcomers root (g :: gs)) :
    (h.insertBelow relation root g).Newcomers root gs := by
  have hg := hnew.hasGroup g List.mem_cons_self
  have hne : g ≠ root := fun heq => hnew.root_notMem (heq ▸ List.mem_cons_self)
  obtain ⟨hgs, hnodup⟩ := List.nodup_cons.1 hnew.nodup
  refine ⟨(hasGroup_insertBelow hnew.hasRoot hg hne).2 hnew.hasRoot, fun x hx =>
    (hasGroup_insertBelow hnew.hasRoot hg hne).2 (hnew.hasGroup x (List.mem_cons_of_mem g hx)),
    hnodup, fun hroot => hnew.root_notMem (List.mem_cons_of_mem g hroot), fun w hw x => ?_⟩
  have hno := hnew.unlisted w (List.mem_cons_of_mem g hw)
  have hwg : w ≠ g := fun heq => hgs (heq ▸ hw)
  rw [mem_subs_insertBelow hnew.hasRoot hg hne, if_neg hwg, if_neg fun hmoved => hno root hmoved.1]
  exact hno x

theorem ne_root (hnew : h.Newcomers root gs) (hg : g ∈ gs) : g ≠ root :=
  fun heq => hnew.root_notMem (heq ▸ hg)

end Newcomers

/-- A group is listed by its super group and by no other one. -/
def ListedAbove (h : Heap) (x : GroupId) : Prop :=
  ∀ y, x ∈ (h.group y).subs ↔ (h.group x).above = some y

section InsertAll

variable (hnew : h.Newcomers root gs)

include hnew

/-- A group that is neither inserted nor a child of the root stays where it is. -/
theorem above_insertAll_of_not_child (hx : x ∉ gs) (hchild : x ∉ (h.group root).subs) :
    ((h.insertAll relation root gs).group x).above = (h.group x).above := by
  induction gs generalizing h with
  | nil => rfl
  | cons g gs ih =>
    have hg := hnew.hasGroup g List.mem_cons_self
    have hne := hnew.ne_root List.mem_cons_self
    rw [List.mem_cons, not_or] at hx
    rw [insertAll, List.foldl_cons]
    refine (ih hnew.tail hx.2 ?_).trans ?_
    · rwa [mem_subs_insertBelow hnew.hasRoot hg hne, if_neg hx.1,
        if_neg fun hmoved => hchild hmoved.1]
    · rw [above_insertBelow hnew.hasRoot hg hne, if_neg hx.1,
        if_neg fun hmoved => hchild hmoved.1]

/-- A child of the root goes below the first inserted group that it derives from. -/
theorem above_insertAll_of_child (hx : x ∉ gs) (hchild : x ∈ (h.group root).subs)
    (habove : (h.group x).above = some root) :
    ((h.insertAll relation root gs).group x).above =
      some ((gs.find? (h.derivesFrom relation · x)).getD root) := by
  induction gs generalizing h with
  | nil => exact habove
  | cons g gs ih =>
    have hg := hnew.hasGroup g List.mem_cons_self
    have hne := hnew.ne_root List.mem_cons_self
    have hsame : ∀ z, (h.insertBelow relation root g).derivesFrom relation z x =
        h.derivesFrom relation z x :=
      fun z => derivesFrom_congr (type_insertBelow hnew.hasRoot hg hne) z x
    have hplace : ((h.insertBelow relation root g).group x).above = _ :=
      above_insertBelow hnew.hasRoot hg hne x
    have hlisted : x ∈ ((h.insertBelow relation root g).group root).subs ↔ _ :=
      mem_subs_insertBelow hnew.hasRoot hg hne x root
    rw [List.mem_cons, not_or] at hx
    rw [if_neg hx.1] at hplace hlisted
    rw [insertAll, List.foldl_cons, List.find?_cons]
    cases hderives : h.derivesFrom relation g x with
    | true =>
      -- it has left the root, and no later group takes it over
      rw [if_pos ⟨hchild, hderives⟩] at hplace hlisted
      refine (above_insertAll_of_not_child hnew.tail hx.2 fun hroot => ?_).trans hplace
      rcases hlisted.1 hroot with hroot | hroot
      · exact hne hroot.symm
      · exact hroot.1 rfl
    | false =>
      have hstays : ¬ (x ∈ (h.group root).subs ∧ h.derivesFrom relation g x = true) :=
        fun hmoved => Bool.false_ne_true (hderives.symm.trans hmoved.2)
      rw [if_neg hstays] at hplace hlisted
      refine (ih hnew.tail hx.2 (hlisted.2 hchild) (hplace.trans habove)).trans ?_
      simp only [hsame]

/-- **The super group of an inserted group** is the first one inserted after it that it derives
from, and the root if there is none. -/
theorem above_insertAll {before after : List GroupId} (hgs : gs = before ++ x :: after) :
    ((h.insertAll relation root gs).group x).above =
      some ((after.find? (h.derivesFrom relation · x)).getD root) := by
  subst hgs
  induction before generalizing h with
  | nil =>
    have hg := hnew.hasGroup x List.mem_cons_self
    have hne := hnew.ne_root List.mem_cons_self
    rw [List.nil_append, insertAll, List.foldl_cons]
    refine (above_insertAll_of_child hnew.tail (List.nodup_cons.1 hnew.nodup).1 ?_ ?_).trans ?_
    · rw [mem_subs_insertBelow hnew.hasRoot hg hne, if_pos rfl]
      exact .inl rfl
    · rw [above_insertBelow hnew.hasRoot hg hne, if_pos rfl]
    · simp only [derivesFrom_congr (type_insertBelow hnew.hasRoot hg hne)]
  | cons g before ih =>
    have hg := hnew.hasGroup g List.mem_cons_self
    have hne := hnew.ne_root List.mem_cons_self
    rw [List.cons_append, insertAll, List.foldl_cons]
    refine (ih hnew.tail).trans ?_
    simp only [derivesFrom_congr (type_insertBelow hnew.hasRoot hg hne)]

end InsertAll

/-! ### Being listed -/

/-- An insertion that moves a group moves it in both directions. -/
theorem ListedAbove.insertBelow (hx : h.ListedAbove x) (hroot : h.HasGroup root)
    (hg : h.HasGroup g) (hne : g ≠ root) (hxg : x ≠ g) :
    (h.insertBelow relation root g).ListedAbove x := by
  intro y
  rw [mem_subs_insertBelow hroot hg hne, above_insertBelow hroot hg hne, if_neg hxg, if_neg hxg]
  by_cases hmoved : x ∈ (h.group root).subs ∧ h.derivesFrom relation g x = true
  · rw [if_pos hmoved, if_pos hmoved, hx y, (hx root).1 hmoved.1, Option.some.injEq,
      Option.some.injEq]
    tauto
  · rw [if_neg hmoved, if_neg hmoved]
    exact hx y

theorem listedAbove_insertBelow_self (hroot : h.HasGroup root) (hg : h.HasGroup g)
    (hne : g ≠ root) (hno : ∀ x, g ∉ (h.group x).subs) :
    (h.insertBelow relation root g).ListedAbove g := by
  intro y
  rw [mem_subs_insertBelow hroot hg hne, above_insertBelow hroot hg hne, if_pos rfl, if_pos rfl,
    Option.some.injEq, or_iff_left (hno y), eq_comm]

theorem ListedAbove.insertAll (hx : h.ListedAbove x) (hnew : h.Newcomers root gs)
    (hmem : x ∉ gs) : (h.insertAll relation root gs).ListedAbove x := by
  induction gs generalizing h with
  | nil => exact hx
  | cons g gs ih =>
    rw [List.mem_cons, not_or] at hmem
    exact ih (hx.insertBelow hnew.hasRoot (hnew.hasGroup g List.mem_cons_self)
      (hnew.ne_root List.mem_cons_self) hmem.1) hnew.tail hmem.2

/-- **An inserted group is listed by its super group** and by no other one. -/
theorem listedAbove_insertAll (hnew : h.Newcomers root gs) (hx : x ∈ gs) :
    (h.insertAll relation root gs).ListedAbove x := by
  induction gs generalizing h with
  | nil => exact absurd hx List.not_mem_nil
  | cons g gs ih =>
    rcases List.mem_cons.1 hx with rfl | hx
    · exact (listedAbove_insertBelow_self hnew.hasRoot (hnew.hasGroup x List.mem_cons_self)
        (hnew.ne_root List.mem_cons_self) (hnew.unlisted x List.mem_cons_self)).insertAll
          hnew.tail (List.nodup_cons.1 hnew.nodup).1
    · exact ih hnew.tail hx

/-! ### The tree by specificity -/

/-- A group is the nearest one of some groups that another one derives from, or it is the root and
there is none. -/
def NearestAbove (h : Heap) (relation : Hierarchy) (root : GroupId) (gs : List GroupId)
    (x y : GroupId) : Prop :=
  (y ∈ gs ∧ h.derivesFrom relation y x = true ∧
    ∀ z ∈ gs, h.derivesFrom relation z x = true → z ≠ y → h.derivesFrom relation z y = true) ∨
  y = root ∧ ∀ z ∈ gs, ¬ h.derivesFrom relation z x = true

/-- No two of some groups have the same type. -/
def DistinctTypes (h : Heap) (gs : List GroupId) : Prop :=
  ∀ a ∈ gs, ∀ b ∈ gs, (h.group a).type = (h.group b).type → a = b

theorem exists_split_of_pair_sublist {a b : GroupId} (hsub : [a, b].Sublist gs) :
    ∃ before after, gs = before ++ b :: after ∧ a ∈ before := by
  induction gs with
  | nil => cases hsub
  | cons c gs ih =>
    cases hsub with
    | cons _ hsub =>
      obtain ⟨before, after, rfl, ha⟩ := ih hsub
      exact ⟨c :: before, after, rfl, List.mem_cons_of_mem c ha⟩
    | cons_cons _ hsub =>
      obtain ⟨before, after, rfl⟩ := List.append_of_mem (List.singleton_sublist.1 hsub)
      exact ⟨a :: before, after, rfl, List.mem_cons_self⟩

section Lineage

variable {a b : GroupId}

theorem derives_iff : h.derivesFrom .lineage g x = true ↔
    ∃ s t, (h.group g).type = some s ∧ (h.group x).type = some t ∧ x ≠ g ∧ s ∈ t.lineage := by
  simp only [derivesFrom_iff, Hierarchy.subsumes, ObjectType.subsumes_iff]

/-- The groups that a group derives from derive from each other. -/
theorem derives_total (ha : h.derivesFrom .lineage a x = true)
    (hb : h.derivesFrom .lineage b x = true) (hne : a ≠ b) :
    h.derivesFrom .lineage a b = true ∨ h.derivesFrom .lineage b a = true := by
  obtain ⟨s, t, hs, ht, -, hst⟩ := derives_iff.1 ha
  obtain ⟨r, t', hr, ht', -, hrt⟩ := derives_iff.1 hb
  obtain rfl := Option.some.inj (ht.symm.trans ht')
  rcases ObjectType.mem_lineage_total hst hrt with hsr | hrs
  · exact .inl (derives_iff.2 ⟨s, r, hs, hr, hne.symm, hsr⟩)
  · exact .inr (derives_iff.2 ⟨r, s, hr, hs, hne, hrs⟩)

variable (hdistinct : h.DistinctTypes gs)

include hdistinct

theorem DistinctTypes.asymm (ha : a ∈ gs) (hb : b ∈ gs)
    (hab : h.derivesFrom .lineage a b = true) : ¬ h.derivesFrom .lineage b a = true := by
  intro hba
  obtain ⟨s, t, hs, ht, hne, hst⟩ := derives_iff.1 hab
  obtain ⟨t', s', ht', hs', -, hts⟩ := derives_iff.1 hba
  obtain rfl := Option.some.inj (hs.symm.trans hs')
  obtain rfl := Option.some.inj (ht.symm.trans ht')
  refine hne (hdistinct b hb a ha ?_)
  rw [hs, ht, ObjectType.mem_lineage_antisymm hst hts]

theorem DistinctTypes.nearestAbove_unique (hroot : root ∉ gs) {y' : GroupId}
    (hy : h.NearestAbove .lineage root gs x y) (hy' : h.NearestAbove .lineage root gs x y') :
    y = y' := by
  rcases hy with ⟨hmem, hderives, hnearest⟩ | ⟨rfl, hno⟩
  · rcases hy' with ⟨hmem', hderives', hnearest'⟩ | ⟨-, hno⟩
    · by_contra hne
      exact hdistinct.asymm hmem hmem' (hnearest' y hmem hderives hne)
        (hnearest y' hmem' hderives' (Ne.symm hne))
    · exact absurd hderives (hno y hmem)
  · rcases hy' with ⟨hmem', hderives', -⟩ | ⟨rfl, -⟩
    · exact absurd hderives' (hno y' hmem')
    · rfl

omit hdistinct in
/-- Where every group comes after those that derive from it, the first one that comes after a group
and that it derives from is the nearest one. -/
theorem nearestAbove_find? {before after : List GroupId} (hgs : gs = before ++ x :: after)
    (horder : gs.Pairwise fun a b => ¬ h.derivesFrom .lineage a b = true) :
    h.NearestAbove .lineage root gs x
      ((after.find? (h.derivesFrom .lineage · x)).getD root) := by
  have hbefore : ∀ z ∈ gs, h.derivesFrom .lineage z x = true → z ∈ after := by
    intro z hz hderives
    rw [hgs] at hz horder
    rcases List.mem_append.1 hz with hz | hz
    · exact absurd hderives ((List.pairwise_append.1 horder).2.2 z hz x List.mem_cons_self)
    · refine (List.mem_cons.1 hz).resolve_left fun heq => ?_
      rw [heq, derivesFrom_self] at hderives
      cases hderives
  cases hfind : after.find? (h.derivesFrom .lineage · x) with
  | none =>
    exact .inr ⟨rfl, fun z hz hderives =>
      List.find?_eq_none.1 hfind z (hbefore z hz hderives) hderives⟩
  | some y =>
    obtain ⟨hderives, earlier, later, rfl, hearlier⟩ := List.find?_eq_some_iff_append.1 hfind
    refine .inl ⟨?_, hderives, fun z hz hzx hne => ?_⟩
    · rw [hgs]
      simp
    · -- every other such group was inserted later still
      have hlater : z ∈ later := by
        rcases List.mem_append.1 (hbefore z hz hzx) with hz | hz
        · simpa [hzx] using hearlier z hz
        · exact (List.mem_cons.1 hz).resolve_left hne
      refine (derives_total hzx hderives hne).resolve_right fun hyz => ?_
      rw [hgs, show before ++ x :: (earlier ++ y :: later) =
        (before ++ x :: earlier) ++ y :: later by simp] at horder
      exact (List.pairwise_cons.1 (List.pairwise_append.1 horder).2.1).1 z hlater hyz

/-- Where each group has the nearest one above it, none comes before one that derives from it: the
nearest one of those that do would come later and derive from it as well. -/
theorem DistinctTypes.not_derives_before (hnew : h.Newcomers root gs)
    (hnearest : ∀ x ∈ gs, ∀ y, ((h.insertAll .lineage root gs).group x).above = some y →
      h.NearestAbove .lineage root gs x y) {t : ObjectType} :
    ∀ {b before after}, gs = before ++ b :: after → (h.group b).type = some t →
      ∀ a ∈ before, ¬ h.derivesFrom .lineage a b = true := by
  -- a counterexample leads to one nearer to the top of the types
  induction hlength : t.lineage.length using Nat.strong_induction_on generalizing t with
  | _ n ih =>
    intro b before after hgs ht a ha hab
    have hb : b ∈ gs := hgs ▸ List.mem_append_right _ List.mem_cons_self
    have hagain : a ∈ gs := hgs ▸ List.mem_append_left _ ha
    have habove : ((h.insertAll .lineage root gs).group b).above = _ := above_insertAll hnew hgs
    rcases hnearest b hb _ habove with ⟨hmem, hderives, hall⟩ | ⟨-, hno⟩
    · cases hfind : after.find? (h.derivesFrom .lineage · b) with
      | none =>
        rw [hfind] at hmem
        exact hnew.root_notMem hmem
      | some y =>
        rw [hfind, Option.getD_some] at hmem hderives hall
        obtain ⟨-, earlier, later, rfl, -⟩ := List.find?_eq_some_iff_append.1 hfind
        have hsplit : gs = (before ++ b :: earlier) ++ y :: later := by simp [hgs]
        have hne : a ≠ y := by
          rintro rfl
          have hnodup := hnew.nodup
          rw [hsplit, List.nodup_append] at hnodup
          exact hnodup.2.2 a (List.mem_append_left _ ha) a List.mem_cons_self rfl
        obtain ⟨s, t', hs, ht', hby, hst⟩ := derives_iff.1 hderives
        obtain rfl := Option.some.inj (ht.symm.trans ht')
        have hlt : s.lineage.length < n := hlength ▸ ObjectType.length_lineage_lt hst fun heq =>
          hby (hdistinct b hb y hmem (by rw [ht, hs, heq]))
        exact ih _ hlt rfl hsplit hs a (List.mem_append_left _ ha) (hall a hagain hab hne)
    · exact hno a hagain hab

/-- **The tree depends on the order of the insertions.**  Every inserted group is listed by its
super group.  This is the nearest group that it derives from, and the root where there is none, for
all groups exactly if each of them was inserted after those that derive from it. -/
theorem insertAll_nearest_iff (hnew : h.Newcomers root gs) :
    (∀ x ∈ gs, (h.insertAll .lineage root gs).ListedAbove x) ∧
    ((∀ x ∈ gs, ∀ y, ((h.insertAll .lineage root gs).group x).above = some y ↔
        h.NearestAbove .lineage root gs x y) ↔
      gs.Pairwise fun a b => ¬ h.derivesFrom .lineage a b = true) := by
  refine ⟨fun x hx => listedAbove_insertAll hnew hx, fun hnearest => ?_, fun horder x hx y => ?_⟩
  · refine List.pairwise_iff_forall_sublist.2 fun {a b} hsub hab => ?_
    obtain ⟨before, after, hgs, ha⟩ := exists_split_of_pair_sublist hsub
    obtain ⟨s, t, -, ht, -, -⟩ := derives_iff.1 hab
    exact hdistinct.not_derives_before hnew (fun x hx y => (hnearest x hx y).1) hgs ht a ha hab
  · obtain ⟨before, after, hgs⟩ := List.append_of_mem hx
    have hfind : h.NearestAbove .lineage root gs x _ := nearestAbove_find? hgs horder
    rw [above_insertAll hnew hgs, Option.some.injEq]
    constructor
    · rintro rfl
      exact hfind
    · exact hdistinct.nearestAbove_unique hnew.root_notMem hfind

end Lineage

/-- A party, and groups for the managers, employees and guests that may take part in it. -/
def parties : Heap :=
  let party := ObjectType.root "Party" "Party"
  let manager := ObjectType.sub "Manager" "Manager" party
  { groups := #[
      { name := "party", type := some party },
      { name := "manager", type := some manager },
      { name := "employee", type := some (.sub "Employee" "Employee" manager) },
      { name := "guest", type := some (.sub "Guest" "Guest" party) }]
    variants := #[.generic] }

theorem newcomers_parties (hgs : gs.Nodup) (hmem : ∀ g ∈ gs, g = ⟨1⟩ ∨ g = ⟨2⟩ ∨ g = ⟨3⟩) :
    parties.Newcomers ⟨0⟩ gs := by
  refine ⟨by decide, fun g hg => ?_, hgs, fun hroot => ?_, fun g _ x => ?_⟩
  · rcases hmem g hg with rfl | rfl | rfl <;> decide
  · exact absurd (hmem _ hroot) (by decide)
  · have hsubs := forall_group (P := fun x => x.subs = []) rfl
      (show ∀ x ∈ parties.groupIds, (parties.group x).subs = [] by decide) x
    rw [hsubs]
    exact List.not_mem_nil

theorem insertAll_nearest_iff_parties :
    let gs : List GroupId := [⟨2⟩, ⟨3⟩, ⟨1⟩]
    (∀ x ∈ gs, (parties.insertAll .lineage ⟨0⟩ gs).ListedAbove x) ∧
    ∀ x ∈ gs, ∀ y, ((parties.insertAll .lineage ⟨0⟩ gs).group x).above = some y ↔
      parties.NearestAbove .lineage ⟨0⟩ gs x y := by
  have hdistinct : parties.DistinctTypes [⟨2⟩, ⟨3⟩, ⟨1⟩] := by
    unfold DistinctTypes
    decide
  have htree := insertAll_nearest_iff hdistinct (newcomers_parties (by decide) (by decide))
  exact ⟨htree.1, htree.2.2 (by decide)⟩

/-- **Inserted first, the managers do not get the employees.**  The other way round they do. -/
theorem insertAll_depends_on_order :
    let first := parties.insertAll .lineage ⟨0⟩ [⟨1⟩, ⟨2⟩]
    let last := parties.insertAll .lineage ⟨0⟩ [⟨2⟩, ⟨1⟩]
    parties.Newcomers ⟨0⟩ [⟨1⟩, ⟨2⟩] ∧ parties.DistinctTypes [⟨1⟩, ⟨2⟩] ∧
      parties.NearestAbove .lineage ⟨0⟩ [⟨1⟩, ⟨2⟩] ⟨2⟩ ⟨1⟩ ∧
      (first.group ⟨2⟩).above = some ⟨0⟩ ∧ (last.group ⟨2⟩).above = some ⟨1⟩ := by
  refine ⟨newcomers_parties (by decide) (by decide), ?_, .inl ?_, rfl, rfl⟩
  · unfold DistinctTypes
    decide
  · decide

end Heap

end AttributeGraph
