/-
Converting a group for an engine, and adding paths to what comes of it.

A group that is for the engine already is its own conversion.  Any other one is
copied with everything that it is linked to, and each copy gets the variant that the
engine asks for in place of the one of its source (`variantOf_copy`).

The copies are a part of the new heap that no link leaves (`Encloses`).  Adding a
path to one of them files new items in groups of the part, and nests new groups in
its items.  A new group is linked to the item that it is nested in and to nothing
else, and has the variant of the group that declares the item.  So the part grows by
the new nodes, but no link leaves it, and all its groups are still for the engine,
name by name along the path (`carries_ensurePath`) and path by path (`carries_inserted`).
-/
import AttributeGraph.Proofs.CopyIsolation
import AttributeGraph.Proofs.Materialising

namespace AttributeGraph

/-! ### Targets -/

/-- What a group is converted for: an engine, and for a copy engine the registry of the session. -/
inductive Target where
  | fetch
  | load
  | copy (copies : CopyRegistryId)
deriving DecidableEq

namespace Target

/-- The engine. -/
def kind : Target → Kind
  | fetch => .fetch
  | load => .load
  | copy _ => .copy

/-- The registry of the copy session. -/
def copies? : Target → Option CopyRegistryId
  | copy copies => some copies
  | _ => none

/-- The variant of a converted group whose source has the given one: a fetch engine loads
relationships if it did before, and a copy engine cascades through the whole tree. -/
def variantFor : Target → Variant → Variant
  | fetch, v => .fetch v.loadsAll
  | load, _ => .load
  | copy copies, _ => .copy { copies := copies, cascade := .tree }

/-- What decides about the variants. -/
def factory : Target → Factory
  | fetch => .fetch
  | load => .load
  | copy copies => .copy copies

/-- A variant is for the engine and, if that is a copy engine, for the session. -/
structure Serves (t : Target) (v : Variant) : Prop where
  kind : v.kind = t.kind
  copies : v.copies? = t.copies?

theorem serves_variantFor (t : Target) (v : Variant) : t.Serves (t.variantFor v) := by
  cases t <;> exact ⟨rfl, rfl⟩

theorem issue_factory (t : Target) (h : Heap) (g : GroupId) :
    t.factory.issue h g = .ok (.fresh (t.variantFor (h.variantOf g))) := by
  cases t <;> rfl

end Target

namespace Heap

/-- Convert a group for a target. -/
def convertFor (h : Heap) (g : GroupId) : Target → Outcome GroupId
  | .fetch => h.forFetch g
  | .load => h.forLoad g
  | .copy copies => h.forCopy g (some copies)

theorem convertFor_eq (h : Heap) (g : GroupId) (t : Target) :
    h.convertFor g t = h.convert g t.kind t.factory := by
  cases t <;> rfl

variable {h h' h₁ h₂ : Heap} {P P' P₁ P₂ : Node → Prop} {V : Variant → Prop} {g x y : GroupId}
  {i j : ItemId} {m n : Node}

/-! ### Parts that no link leaves -/

/-- No link leaves a part of a heap, and the variants of its groups are of a sort. -/
structure Encloses (V : Variant → Prop) (h : Heap) (P : Node → Prop) : Prop where
  hasNode : ∀ n, P n → h.HasNode n
  links : ∀ m n, P m → h.Link m n → P n
  hasVariant : ∀ g, P (.group g) → (h.group g).variant.index < h.variants.size
  variant : ∀ g, P (.group g) → V (h.variantOf g)

theorem Encloses.reaches (hP : Encloses V h P) (hm : P m) (hmn : h.Reaches m n) : P n := by
  induction hmn with
  | refl => exact hm
  | tail _ hlink ih => exact hP.links _ _ ih hlink

/-- A part that no link leaves has become one of a later heap: all nodes and links of it are still
there. -/
structure Carries (V : Variant → Prop) (h : Heap) (P : Node → Prop) (h' : Heap)
    (P' : Node → Prop) : Prop where
  encloses : Encloses V h' P'
  nodes : ∀ n, P n → P' n
  links : ∀ m n, P m → h.Link m n → h'.Link m n

namespace Carries

theorem refl (hP : Encloses V h P) : Carries V h P h P := ⟨hP, fun _ hn => hn, fun _ _ _ hmn => hmn⟩

theorem trans (hfst : Carries V h P h₁ P₁) (hsnd : Carries V h₁ P₁ h₂ P₂) :
    Carries V h P h₂ P₂ where
  encloses := hsnd.encloses
  nodes n hn := hsnd.nodes n (hfst.nodes n hn)
  links m n hm hmn := hsnd.links m n (hfst.nodes m hm) (hfst.links m n hm hmn)

/-- What was linked to from the part still is. -/
theorem reaches (hcarry : Carries V h P h' P') (hP : Encloses V h P) (hm : P m)
    (hmn : h.Reaches m n) : h'.Reaches m n := by
  induction hmn with
  | refl => exact .refl m
  | tail hreach hlink ih => exact ih.tail (hcarry.links _ _ (hP.reaches hm hreach) hlink)

end Carries

/-! ### A new node -/

/-- A new node is linked to from one node of a part, and is itself linked to nodes of the part
only. -/
structure Attached (h : Heap) (P : Node → Prop) (h' : Heap) (anchor new : Node) : Prop where
  hasNode : h'.HasNode new
  links : ∀ m n, P m → (h'.Link m n ↔ h.Link m n ∨ m = anchor ∧ n = new)
  back : ∀ n, h'.Link new n → P n
  address : ∀ x, P (.group x) → (h'.group x).variant = (h.group x).variant

/-- A part grows by a new node. -/
theorem Attached.carries {G : GroupId → Prop} {I : ItemId → Prop} {anchor new : Node}
    (hnew : Attached h P h' anchor new) (hP : Encloses V h P) (hgrows : Grows G I h h')
    (hvariant : ∀ x, new = .group x →
      (h'.group x).variant.index < h'.variants.size ∧ V (h'.variantOf x)) :
    Carries V h P h' fun n => P n ∨ n = new where
  nodes n hn := .inl hn
  links m n hm hmn := (hnew.links m n hm).2 (.inl hmn)
  encloses := by
    refine ⟨?_, ?_, ?_, ?_⟩
    · rintro n (hn | rfl)
      · exact hgrows.hasNode (hP.hasNode n hn)
      · exact hnew.hasNode
    · rintro m n (hm | rfl) hmn
      · exact ((hnew.links m n hm).1 hmn).imp (hP.links m n hm) And.right
      · exact .inl (hnew.back n hmn)
    · rintro x (hx | hx)
      · rw [hnew.address x hx]
        exact Nat.lt_of_lt_of_le (hP.hasVariant x hx) hgrows.hasVariant
      · exact (hvariant x hx.symm).1
    · rintro x (hx | hx)
      · rw [hgrows.variantOf (hP.hasVariant x hx) (hnew.address x hx)]
        exact hP.variant x hx
      · exact (hvariant x hx.symm).2

/-! ### Adding a path -/

section NewItem

variable {name : String} (hg : h.HasGroup g) (hname : (h.group g).items.find? name = none)

include hg hname

/-- Of the nodes that were there, only the group that declares a new item gets a link: to the
item. -/
theorem link_ensureItem_iff (hm : h.HasNode m) : (h.ensureItem g name).2.Link m n ↔
    h.Link m n ∨ m = .group g ∧ n = .item (h.ensureItem g name).1 := by
  obtain ⟨hgroup, hitem⟩ := reads_ensureItem hg hname
  obtain ⟨hfresh, -⟩ := ensureItem_of_new hg hname
  generalize (h.ensureItem g name).1 = i at *
  generalize (h.ensureItem g name).2 = h' at *
  cases m with
  | item j =>
    have hj : j ≠ i := by
      rintro rfl
      exact hfresh hm
    rw [link_congr_item ((hitem j).trans (if_neg hj))]
    simp
  | group x =>
    by_cases hx : x = g
    · subst hx
      have hself := (hgroup x).trans (if_pos rfl)
      cases n with
      | group s =>
        rw [link_group_group_iff, link_group_group_iff, hself]
        simp [Group.subs]
      | item j =>
        rw [link_group_item_iff, link_group_item_iff, hself, Group.itemIds, Group.itemIds,
          OrderedMap.mem_values_insert_of_new hname]
        simp only [Node.item.injEq, true_and]
        tauto
    · rw [link_congr_group ((hgroup x).trans (if_neg hx))]
      simp [hx]

/-- A new item is linked to the group that declares it, and to nothing else. -/
theorem eq_of_link_ensureItem
    (hn : (h.ensureItem g name).2.Link (.item (h.ensureItem g name).1) n) : n = .group g := by
  have hitem := (ensureItem_of_new hg hname).2.1
  cases n with
  | item j => exact absurd hn not_link_item_item
  | group x =>
    rw [link_item_group_iff, hitem] at hn
    rcases hn with rfl | ⟨side, hx⟩
    · rfl
    · cases side <;> cases hx

theorem variant_ensureItem (x : GroupId) :
    ((h.ensureItem g name).2.group x).variant = (h.group x).variant := by
  rw [(reads_ensureItem hg hname).1 x]
  by_cases hx : x = g
  · rw [if_pos hx, hx]
  · rw [if_neg hx]

end NewItem

/-- The item of a name in a group of a part belongs to the part. -/
theorem carries_ensureItem (hP : Encloses V h P) (hg : P (.group g)) (name : String) :
    ∃ P', Carries V h P (h.ensureItem g name).2 P' ∧ P' (.item (h.ensureItem g name).1) := by
  cases hi : (h.group g).items.find? name with
  | some i =>
    rw [ensureItem_of_find? hi]
    exact ⟨P, .refl hP, hP.links _ _ hg (.item (mem_itemIds_of_find? hi))⟩
  | none =>
    have hin : h.HasGroup g := hP.hasNode _ hg
    have hnew : Attached h P (h.ensureItem g name).2 (.group g)
        (.item (h.ensureItem g name).1) := by
      refine ⟨(ensureItem_of_new hin hi).2.2.1, fun m n hm => ?_, fun n hn => ?_, fun x _ => ?_⟩
      · exact link_ensureItem_iff hin hi (hP.hasNode m hm)
      · exact eq_of_link_ensureItem hin hi hn ▸ hg
      · exact variant_ensureItem hin hi x
    exact ⟨_, hnew.carries hP (Grows.ensureItem h g name) (fun x hx => by cases hx), .inr rfl⟩

/-- An item gets a primary group where it had none. -/
theorem exists_mem_groups_setPrimary {it : Item} (hbare : it.value.primary = none) :
    (∃ side, x ∈ ((it.mapSlot .value fun s => { s with primary := some y }).slot side).groups) ↔
      (∃ side, x ∈ (it.slot side).groups) ∨ x = y := by
  constructor
  · rintro ⟨side, hx⟩
    cases side with
    | key => exact .inl ⟨.key, hx⟩
    | value =>
      rcases Slot.mem_groups.1 hx with hprimary | htyped
      · exact .inr (Option.some.inj hprimary).symm
      · exact .inl ⟨.value, Slot.mem_groups.2 (.inr htyped)⟩
  · rintro (⟨side, hx⟩ | rfl)
    · cases side with
      | key => exact ⟨.key, hx⟩
      | value =>
        rcases Slot.mem_groups.1 hx with hprimary | htyped
        · rw [show it.slot .value = it.value from rfl, hbare] at hprimary
          cases hprimary
        · exact ⟨.value, Slot.mem_groups.2 (.inr htyped)⟩
    · exact ⟨.value, Slot.mem_groups.2 (.inl rfl)⟩

/-- Of the nodes that were there, only the item that a new group is nested in gets a link: to the
group. -/
theorem GroupNested.link_iff (hnest : h.GroupNested h' i y) (hm : h.HasNode m) :
    h'.Link m n ↔ h.Link m n ∨ m = .item i ∧ n = .group y := by
  cases m with
  | group z =>
    rw [link_congr_group (hnest.grows.group z hm id)]
    simp
  | item j =>
    by_cases hj : j = i
    · subst hj
      cases n with
      | item k => simp [not_link_item_item]
      | group z =>
        rw [link_item_group_iff, link_item_group_iff, hnest.item,
          exists_mem_groups_setPrimary hnest.bare, or_assoc]
        simp [Item.mapSlot]
    · rw [link_congr_item (hnest.grows.item j hm hj)]
      simp [hj]

section NewGroup

variable (hbare : (h.item i).value.primary = none) (x : GroupId) (name : String)

include hbare

/-- A new group is linked to the item that it is nested in, and to nothing else. -/
theorem eq_of_link_ensureNested
    (hn : (h.ensureNested x i name).2.Link (.group (h.ensureNested x i name).1) n) :
    n = .item i := by
  have hgroup := group_ensureNested hbare x name
  cases n with
  | group z =>
    rw [link_group_group_iff, hgroup] at hn
    rcases hn with hn | hn <;> cases hn
  | item j =>
    rw [link_group_item_iff, hgroup] at hn
    rcases hn with hn | hn
    · rw [Option.some.inj hn]
    · cases hn

/-- A new group has a variant of its own, like that of the group above it. -/
theorem variantOf_ensureNested :
    ((h.ensureNested x i name).2.group (h.ensureNested x i name).1).variant.index <
        (h.ensureNested x i name).2.variants.size ∧
      (h.ensureNested x i name).2.variantOf (h.ensureNested x i name).1 = h.variantOf x := by
  rw [variantOf, group_ensureNested hbare, ensureNested_of_bare hbare]
  refine ⟨?_, variant_allocGroup_self ({ name := name } : Group) _⟩
  show h.variants.size < (h.variants.push _).size
  rw [Array.size_push]
  exact Nat.lt_succ_self _

end NewGroup

/-- The group nested for the value of an item of a part belongs to the part. -/
theorem carries_ensureNested (hP : Encloses V h P) (hx : P (.group x)) (hi : P (.item i))
    (name : String) :
    ∃ P', Carries V h P (h.ensureNested x i name).2 P' ∧
      P' (.group (h.ensureNested x i name).1) := by
  cases hy : (h.item i).value.primary with
  | some y =>
    rw [ensureNested_of_primary hy]
    exact ⟨P, .refl hP, hP.links _ _ hi (.nested .value (Slot.mem_groups.2 (.inl hy)))⟩
  | none =>
    have hnest := ensureNested_nested (hP.hasNode _ hi) hy x name
    have hnew : Attached h P (h.ensureNested x i name).2 (.item i)
        (.group (h.ensureNested x i name).1) := by
      refine ⟨hnest.inHeap, fun m n hm => hnest.link_iff (hP.hasNode m hm), fun n hn => ?_,
        fun z hz => by rw [hnest.grows.group z (hP.hasNode _ hz) id]⟩
      exact eq_of_link_ensureNested hy x name hn ▸ hi
    refine ⟨_, hnew.carries hP hnest.grows ?_, .inr rfl⟩
    -- the new group is the only one whose variant is not one of the part yet
    rintro z hz
    obtain rfl := Node.group.inj hz
    obtain ⟨hin, hvariant⟩ := variantOf_ensureNested hy x name
    exact ⟨hin, hvariant ▸ hP.variant x hx⟩

/-- **A path is added to a group of a part** inside the part. -/
theorem carries_ensurePath (hP : Encloses V h P) (hg : P (.group g)) (head : String)
    (tail : List String) : ∃ P', Carries V h P (h.ensurePath g head tail).2 P' := by
  induction tail generalizing h P g head with
  | nil =>
    obtain ⟨P', hitem, -⟩ := carries_ensureItem hP hg head
    exact ⟨P', hitem⟩
  | cons next rest ih =>
    obtain ⟨P₁, hitem, hi⟩ := carries_ensureItem hP hg head
    obtain ⟨P₂, hnested, hy⟩ :=
      carries_ensureNested hitem.encloses (hitem.nodes _ hg) hi head
    obtain ⟨P₃, hrest⟩ := ih hnested.encloses hy next
    rw [ensurePath_cons]
    exact ⟨P₃, (hitem.trans hnested).trans hrest⟩

/-- Paths have been added one by one, each to a group that the given one was linked to by then. -/
inductive Inserted (h : Heap) (g : GroupId) : Heap → Prop
  | start : Inserted h g h
  | add {later : Heap} {x : GroupId} (hdone : Inserted h g later)
      (hx : later.Reaches (.group g) (.group x)) (input : PathInput) :
      Inserted h g (later.edit x (.add input)).heap

/-- **Paths are added to groups of a part** inside the part. -/
theorem carries_inserted (hP : Encloses V h P) (hg : P (.group g)) (hdone : h.Inserted g h') :
    ∃ P', Carries V h P h' P' := by
  induction hdone with
  | start => exact ⟨P, .refl hP⟩
  | @add later x _ hx input ih =>
    obtain ⟨P₁, hfst⟩ := ih
    have hx' : P₁ (.group x) := hfst.encloses.reaches (hfst.nodes _ hg) hx
    cases hp : input.path? with
    | none =>
      rw [edit, addPath_of_path?_eq_none hp]
      exact ⟨P₁, hfst⟩
    | some p =>
      rw [edit, addPath_of_path? hp]
      obtain ⟨P₂, hsnd⟩ := carries_ensurePath hfst.encloses hx' p.head p.tail
      exact ⟨P₂, hfst.trans hsnd⟩

/-! ### Converting -/

section Converting

variable {t : Target} {issued : List (GroupId × Issued)} {source : GroupId}

theorem exists_issued (h : Heap) (t : Target) (gs : List GroupId) :
    ∃ issued, h.issueAll t.factory gs = .ok issued :=
  exists_issueAll gs fun x _ => ⟨_, t.issue_factory h x⟩

/-- The copy of a group has the variant that the target asks for. -/
theorem variantOf_copy (hissue : h.issueAll t.factory (h.copyPlan g).groups = .ok issued)
    (hsource : source ∈ (h.copyPlan g).groups) :
    ∃ v, (h.pushCopies (h.copyPlan g) issued).group (h.copyOfGroup (h.copyPlan g) source) =
        h.relocateGroup (h.copyPlan g) source v ∧
      v.index < (h.pushCopies (h.copyPlan g) issued).variants.size ∧
      (h.pushCopies (h.copyPlan g) issued).variant v = t.variantFor (h.variantOf source) := by
  obtain ⟨hfst, hissued⟩ := issueAll_spec _ hissue
  obtain ⟨-, e, he, rfl, v, hgroup, hholds⟩ := group_pushCopies (h := h) hfst hsource
  have hfresh := hissued e he
  rw [t.issue_factory] at hfresh
  rw [← Except.ok.inj hfresh] at hholds
  exact ⟨v, hgroup, hholds.2.1, hholds.2.2⟩

/-- A group of a new heap is the copy of a group that the root was linked to: it is the same but for
its links, which lead to copies, and for its variant. -/
structure CopiedFrom (h : Heap) (root source : GroupId) (new : Heap) (x : GroupId) : Prop where
  reached : h.Reaches (.group root) (.group source)
  address : x = h.copyOfGroup (h.copyPlan root) source
  group : new.group x = h.relocateGroup (h.copyPlan root) source (new.group x).variant

/-- No link leaves the copies, and all of them are for the engine. -/
theorem encloses_copies (hissue : h.issueAll t.factory (h.copyPlan g).groups = .ok issued) :
    Encloses t.Serves (h.pushCopies (h.copyPlan g) issued) (h.CopyOf (h.copyPlan g)) := by
  obtain ⟨hfst, -⟩ := issueAll_spec _ hissue
  refine ⟨fun n hn => hasNode_of_copyOf hfst hn,
    fun m n hm hmn => copyOf_of_link (copyPlan_linksPlanned h g) hfst hm hmn, ?_, ?_⟩
  · rintro x ⟨source, hsource, rfl⟩
    obtain ⟨v, hgroup, hin, -⟩ := variantOf_copy hissue hsource
    rw [hgroup]
    exact hin
  · rintro x ⟨source, hsource, rfl⟩
    obtain ⟨v, hgroup, -, hvariant⟩ := variantOf_copy hissue hsource
    rw [variantOf, hgroup]
    exact hvariant ▸ t.serves_variantFor _

theorem convertFor_of_kind (hkind : (h.variantOf g).kind = t.kind) :
    h.convertFor g t = { heap := h, answer := .ok g } := by
  rw [convertFor_eq, convert, if_pos hkind]

theorem convertFor_of_issueAll (hkind : (h.variantOf g).kind ≠ t.kind)
    (hissue : h.issueAll t.factory (h.copyPlan g).groups = .ok issued) :
    h.convertFor g t =
      { heap := h.pushCopies (h.copyPlan g) issued
        answer := .ok (h.copyOfGroup (h.copyPlan g) g) } := by
  rw [convertFor_eq, convert, if_neg hkind]
  simp [copyFor, hissue]

/-- What a group that was converted by copying is: everything that it is linked to is a copy with
the variant that the target asks for, and stays for the engine when paths are added. -/
structure Converted (h : Heap) (g : GroupId) (t : Target) (new : Heap) (copy : GroupId) : Prop where
  copied : ∀ x, new.Reaches (.group copy) (.group x) → ∃ source,
    CopiedFrom h g source new x ∧ new.variantOf x = t.variantFor (h.variantOf source)
  kept : ∀ later, new.Inserted copy later →
    ∀ m n, new.Reaches (.group copy) m → new.Reaches m n → later.Reaches m n
  serves : ∀ later, new.Inserted copy later →
    ∀ m x, new.Reaches (.group copy) m → later.Reaches m (.group x) → t.Serves (later.variantOf x)

theorem converted_of_issueAll
    (hissue : h.issueAll t.factory (h.copyPlan g).groups = .ok issued) :
    Converted h g t (h.pushCopies (h.copyPlan g) issued)
      (h.copyOfGroup (h.copyPlan g) g) := by
  have hP := encloses_copies hissue
  have hroot : h.CopyOf (h.copyPlan g) (.group (h.copyOfGroup (h.copyPlan g) g)) :=
    ⟨g, root_mem_copyPlan h g, rfl⟩
  refine ⟨fun x hx => ?_, fun later hdone m n hm hmn => ?_, fun later hdone m x hm hx => ?_⟩
  · obtain ⟨source, hsource, rfl⟩ := hP.reaches hroot hx
    obtain ⟨v, hgroup, -, hvariant⟩ := variantOf_copy hissue hsource
    refine ⟨source, ⟨reaches_of_mem_copyPlan hsource, rfl, ?_⟩, ?_⟩
    · rw [hgroup]
      rfl
    · rw [variantOf, hgroup]
      exact hvariant
  · obtain ⟨P', hcarry⟩ := carries_inserted hP hroot hdone
    exact hcarry.reaches hP (hP.reaches hroot hm) hmn
  · obtain ⟨P', hcarry⟩ := carries_inserted hP hroot hdone
    have hm' := hcarry.nodes m (hP.reaches hroot hm)
    exact hcarry.encloses.variant x (hcarry.encloses.reaches hm' hx)

/-- **A conversion reaches every group and sticks.**  A group that is for the engine already is its
own conversion.  Of any other one everything that it is linked to is copied with it.  Whatever the
copy is linked to is for the engine, and for the session of a copy engine, and so is whatever it is
linked to after paths have been added to any of its groups. -/
theorem conversion_sticks (h : Heap) (g : GroupId) (t : Target) :
    ((h.variantOf g).kind = t.kind → h.convertFor g t = { heap := h, answer := .ok g }) ∧
      ((h.variantOf g).kind ≠ t.kind → ∃ new copy,
        h.convertFor g t = { heap := new, answer := .ok copy } ∧ Converted h g t new copy) := by
  refine ⟨convertFor_of_kind, fun hkind => ?_⟩
  obtain ⟨issued, hissue⟩ := exists_issued h t (h.copyPlan g).groups
  exact ⟨_, _, convertFor_of_issueAll hkind hissue, converted_of_issueAll hissue⟩

/-- A path that is added to the copy of the knot nests a group for the engine. -/
example : ((knot.convertFor ⟨0⟩ .fetch).heap.edit ⟨2⟩ (.add (.text "x.y"))).heap.variantOf ⟨4⟩ =
    .fetch false := by decide

end Converting

end Heap

end AttributeGraph
