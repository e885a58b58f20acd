/-
A copy leaves its source alone.

Copies are laid out behind the nodes of a heap, so these stay as they are, and
none of them links to a copy (`isolated_copyFor`).  The links of a copy lead to
copies only (`apart_pushCopies`).  The factory is asked in the order in which the
groups are met; the first one that it refuses ends the copying, and its name and
path in the source are reported (`copyRefused_of_issueAll`).
-/
import AttributeGraph.Proofs.Operations

namespace AttributeGraph.Heap

variable {a b h : Heap} {root : GroupId} {f : Factory}

/-! ### Nodes of a heap -/

/-- Whether a node is in the heap. -/
def HasNode (h : Heap) : Node → Prop
  | .group g => h.HasGroup g
  | .item i => h.HasItem i

theorem Grows.hasNode {G : GroupId → Prop} {I : ItemId → Prop} (hab : Grows G I a b) {n : Node}
    (hn : a.HasNode n) : b.HasNode n := by
  cases n with
  | group g => exact hab.hasGroup g hn
  | item i => exact hab.hasItem i hn

/-- Links lead from nodes of a closed heap to nodes of the heap. -/
theorem Closed.hasNode_of_link (hclosed : h.Closed) {m n : Node} (hm : h.HasNode m)
    (hmn : h.Link m n) : h.HasNode n := by
  cases hmn with
  | above hs => exact (hclosed.group _ hm).super _ hs
  | below hs => exact (hclosed.group _ hm).subs _ hs
  | nestedIn hi => exact (hclosed.group _ hm).nestedIn _ hi
  | item hi => exact (hclosed.group _ hm).items _ hi
  | owner i => exact (hclosed.item i hm).owner
  | nested side hg => exact (hclosed.item _ hm).nested _ (Item.mem_nested.2 ⟨side, hg⟩)

/-- A node that stays as it is keeps its links. -/
theorem Grows.link (hab : Grows Nothing Nothing a b) {m n : Node} (hm : a.HasNode m)
    (hmn : b.Link m n) : a.Link m n := by
  cases m with
  | group g => exact (link_congr_group (hab.group g hm id)).1 hmn
  | item i => exact (link_congr_item (hab.item i hm id)).1 hmn

/-- Every node of a heap is in another one as it was, with no link to a node that is new there. -/
structure Isolated (a b : Heap) : Prop where
  grows : Grows Nothing Nothing a b
  links : ∀ m n, a.HasNode m → b.Link m n → a.HasNode n

theorem Isolated.of_grows (hclosed : a.Closed) (hab : Grows Nothing Nothing a b) :
    Isolated a b :=
  ⟨hab, fun _ _ hm hmn => hclosed.hasNode_of_link hm (hab.link hm hmn)⟩

/-! ### The source -/

section Pushing

variable {p : CopyPlan} {issued : List (GroupId × Issued)}

/-- Copies are laid out behind the nodes that they are copies of. -/
theorem grows_pushCopies (h : Heap) (p : CopyPlan) (issued : List (GroupId × Issued)) :
    Grows Nothing Nothing h (h.pushCopies p issued) where
  hasGroup _ := hasGroup_pushCopies
  hasItem _ := hasItem_pushCopies
  hasVariant := (laidOut_foldl h p issued h).variants.size
  group _ hg _ := group_pushCopies_of_hasGroup hg
  item _ hi _ := item_pushCopies_of_hasItem hi
  variant := (laidOut_foldl h p issued h).variants.variant

theorem grows_copyFor (h : Heap) (root : GroupId) (f : Factory) :
    Grows Nothing Nothing h (h.copyFor root f).heap := by
  unfold copyFor
  dsimp only
  cases h.issueAll f (h.copyPlan root).groups with
  | ok issued => exact grows_pushCopies h _ issued
  | error e => exact .refl h

/-- **The source of a copy is never touched**, whether copying succeeds or not. -/
theorem isolated_copyFor (hclosed : h.Closed) (root : GroupId) (f : Factory) :
    Isolated h (h.copyFor root f).heap :=
  .of_grows hclosed (grows_copyFor h root f)

/-! ### The copy -/

/-- The copies of the nodes of a plan. -/
def CopyOf (h : Heap) (p : CopyPlan) : Node → Prop
  | .group g => ∃ x ∈ p.groups, g = h.copyOfGroup p x
  | .item i => ∃ j ∈ p.items, i = h.copyOfItem p j

theorem not_hasNode_of_copyOf {n : Node} (hn : h.CopyOf p n) : ¬ h.HasNode n := by
  cases n with
  | group g =>
    obtain ⟨x, -, rfl⟩ := hn
    simp [HasNode, HasGroup, copyOfGroup]
  | item i =>
    obtain ⟨j, -, rfl⟩ := hn
    simp [HasNode, HasItem, copyOfItem]

theorem hasNode_of_copyOf (hfst : issued.map Prod.fst = p.groups) {n : Node}
    (hn : h.CopyOf p n) : (h.pushCopies p issued).HasNode n := by
  cases n with
  | group g =>
    obtain ⟨x, hx, rfl⟩ := hn
    exact (group_pushCopies hfst hx).1
  | item i =>
    obtain ⟨j, hj, rfl⟩ := hn
    exact (item_pushCopies hj).1

/-- **The links of copies lead to copies.** -/
theorem copyOf_of_link (hp : h.LinksPlanned p) (hfst : issued.map Prod.fst = p.groups)
    {m n : Node} (hm : h.CopyOf p m) (hmn : (h.pushCopies p issued).Link m n) : h.CopyOf p n := by
  cases m with
  | group g =>
    obtain ⟨x, hx, rfl⟩ := hm
    obtain ⟨-, -, -, -, v, hgroup, -⟩ := group_pushCopies (h := h) hfst hx
    cases hmn with
    | above hs =>
      rw [hgroup] at hs
      obtain ⟨y, hy, rfl⟩ := Option.map_eq_some_iff.1 hs
      exact ⟨y, hp.group x hx _ (.above hy), rfl⟩
    | below hs =>
      rw [hgroup] at hs
      obtain ⟨y, hy, rfl⟩ := exists_of_mem_subs_relocateGroup hs
      exact ⟨y, hp.group x hx _ (.below hy), rfl⟩
    | nestedIn hi =>
      rw [hgroup] at hi
      obtain ⟨j, hj, rfl⟩ := Option.map_eq_some_iff.1 hi
      exact ⟨j, hp.group x hx _ (.nestedIn hj), rfl⟩
    | item hi =>
      rw [hgroup] at hi
      obtain ⟨j, hj, rfl⟩ := exists_of_mem_itemIds_relocateGroup hi
      exact ⟨j, hp.group x hx _ (.item hj), rfl⟩
  | item i =>
    obtain ⟨j, hj, rfl⟩ := hm
    have hitem : (h.pushCopies p issued).item (h.copyOfItem p j) = h.relocateItem p j :=
      (item_pushCopies hj).2
    cases hmn with
    | owner =>
      rw [hitem]
      exact ⟨_, hp.owner j hj, rfl⟩
    | nested side hg =>
      rw [hitem, slot_relocateItem] at hg
      obtain ⟨y, hy, rfl⟩ := mem_groups_relocateSlot hg
      exact ⟨y, hp.nested j hj side y hy, rfl⟩

/-- **Nothing that a copy is linked to was there before.** -/
theorem copyOf_of_reaches (hp : h.LinksPlanned p) (hfst : issued.map Prod.fst = p.groups)
    {m n : Node} (hm : h.CopyOf p m) (hmn : (h.pushCopies p issued).Reaches m n) :
    h.CopyOf p n := by
  induction hmn with
  | refl => exact hm
  | tail _ hlink ih => exact copyOf_of_link hp hfst ih hlink

end Pushing

/-! ### Asking the factory in order -/

/-- The groups that a copy of a root meets, in order.  A group comes before what follows from it:
the item that it is nested in, its super group, its sub groups and its items; what follows from one
of these is met before the next one. -/
def MetInOrder (h : Heap) (root : GroupId) (gs : List GroupId) : Prop :=
  ∃ p, Explores h.copyStep {} [.group root] p ∧ gs = p.groups.reverse

theorem metInOrder_iff {gs : List GroupId} :
    h.MetInOrder root gs ↔ gs = (h.copyPlan root).groups := by
  obtain ⟨p, hp, hplan⟩ := exists_copyPlan h root
  have hdone := explores_of_explore hp
  rw [hplan]
  constructor
  · rintro ⟨p', hp', rfl⟩
    rw [hp'.unique hdone]
  · rintro rfl
    exact ⟨p, hdone, rfl⟩

theorem root_mem_copyPlan (h : Heap) (root : GroupId) : root ∈ (h.copyPlan root).groups := by
  obtain ⟨p, hp, hplan⟩ := exists_copyPlan h root
  rw [hplan]
  exact List.mem_reverse.2 (root_mem_of_explore hp)

/-- Only what the root is linked to is copied. -/
theorem reaches_of_mem_copyPlan {g : GroupId} (hg : g ∈ (h.copyPlan root).groups) :
    h.Reaches (.group root) (.group g) := by
  obtain ⟨p, hp, hplan⟩ := exists_copyPlan h root
  have hstart : h.Found root {} [.group root] := by
    refine ⟨by simp, by simp, by simp, ?_⟩
    simpa [TaskFound] using Reaches.refl (Node.group root)
  have hfound : h.Found root p [] := (found_preserved h root).explore _ _ _ hstart hp
  rw [hplan] at hg
  exact hfound.groups g (List.mem_reverse.1 hg)

/-- A factory that refuses a list of groups refuses the first one that it does not issue anything
for. -/
theorem exists_refused {gs : List GroupId} {g : GroupId} {cause : Cause}
    (hrefused : h.issueAll f gs = .error (g, cause)) : f.issue h g = .error cause ∧
      ∃ before after, gs = before ++ g :: after ∧
        ∀ x ∈ before, ∃ issued, f.issue h x = .ok issued := by
  induction gs with
  | nil => cases hrefused
  | cons x gs ih =>
    unfold issueAll at hrefused
    cases hx : f.issue h x with
    | error cause' =>
      rw [hx] at hrefused
      obtain ⟨rfl, rfl⟩ := Prod.mk.inj (Except.error.inj hrefused)
      exact ⟨hx, [], gs, rfl, fun _ hmem => absurd hmem List.not_mem_nil⟩
    | ok issued =>
      cases hrest : h.issueAll f gs with
      | ok all =>
        simp only [hx, hrest] at hrefused
        cases hrefused
      | error e =>
        simp only [hx, hrest] at hrefused
        obtain rfl := Except.error.inj hrefused
        obtain ⟨hg, before, after, rfl, hbefore⟩ := ih hrest
        exact ⟨hg, x :: before, after, rfl, List.forall_mem_cons.2 ⟨⟨issued, hx⟩, hbefore⟩⟩

/-- Copying has succeeded: nothing is reported, and the copy is linked to new nodes only. -/
structure CopyReturned (h : Heap) (f : Factory) (order : List GroupId) (out : Outcome GroupId)
    (copy : GroupId) : Prop where
  answer : out.answer = .ok copy
  diagnostics : out.diagnostics = []
  issued : ∀ g ∈ order, ∃ issued, f.issue h g = .ok issued
  apart : ∀ n, out.heap.Reaches (.group copy) n → out.heap.HasNode n ∧ ¬ h.HasNode n

/-- Copying has failed: the first group that the factory refused is reported once, with its name and
its path in the source. -/
structure CopyRefused (h : Heap) (f : Factory) (order : List GroupId) (out : Outcome GroupId)
    (g : GroupId) (cause : Cause) : Prop where
  first : ∃ before after, order = before ++ g :: after ∧
    ∀ x ∈ before, ∃ issued, f.issue h x = .ok issued
  refused : f.issue h g = .error cause
  diagnostics : out.diagnostics = [.cloneFailed (h.pathTo g) (h.group g).name f.label]
  answer : ∃ report, out.answer = .error (.clone report) ∧
    report.context =
      some (.of [("groupName", .text (h.group g).name), ("path", .text (h.pathTo g))]) ∧
    report.cause = some cause

theorem copyReturned_of_issueAll {issued : List (GroupId × Issued)}
    (hissue : h.issueAll f (h.copyPlan root).groups = .ok issued) :
    h.CopyReturned f (h.copyPlan root).groups (h.copyFor root f)
      (h.copyOfGroup (h.copyPlan root) root) := by
  obtain ⟨hfst, hissued⟩ := issueAll_spec _ hissue
  have hcopy : h.copyFor root f =
      { heap := h.pushCopies (h.copyPlan root) issued
        answer := .ok (h.copyOfGroup (h.copyPlan root) root) } := by
    simp [copyFor, hissue]
  rw [hcopy]
  refine ⟨rfl, rfl, fun g hg => ?_, fun n hn => ?_⟩
  · rw [← hfst] at hg
    obtain ⟨e, he, rfl⟩ := List.mem_map.1 hg
    exact ⟨e.2, hissued e he⟩
  · have hroot : h.CopyOf (h.copyPlan root) (.group (h.copyOfGroup (h.copyPlan root) root)) :=
      ⟨root, root_mem_copyPlan h root, rfl⟩
    have hcopied := copyOf_of_reaches (copyPlan_linksPlanned h root) hfst hroot hn
    exact ⟨hasNode_of_copyOf hfst hcopied, not_hasNode_of_copyOf hcopied⟩

theorem copyRefused_of_issueAll {g : GroupId} {cause : Cause}
    (hissue : h.issueAll f (h.copyPlan root).groups = .error (g, cause)) :
    h.CopyRefused f (h.copyPlan root).groups (h.copyFor root f) g cause := by
  obtain ⟨hrefused, hfirst⟩ := exists_refused hissue
  have hcopy : h.copyFor root f =
      { heap := h
        diagnostics := [.cloneFailed (h.pathTo g) (h.group g).name f.label]
        answer := .error (h.cloneError f g cause) } := by
    simp [copyFor, hissue]
  rw [hcopy]
  exact ⟨hfirst, hrefused, rfl, _, rfl, rfl, rfl⟩

/-- **A copy leaves its source alone, and so does a failure.**  On a heap without links out of it,
whatever the factory refuses, all nodes stay as they were and none of them links to a new one.  If
the factory refuses none of the groups that are met, the copy is linked to new nodes only.
Otherwise the first one of them that it refuses is reported. -/
theorem copyFor_isolated (hclosed : h.Closed) (root : GroupId) (f : Factory) :
    Isolated h (h.copyFor root f).heap ∧
    ∃ order, (∀ gs, h.MetInOrder root gs ↔ gs = order) ∧
      ((∃ copy, h.CopyReturned f order (h.copyFor root f) copy) ∨
        ∃ g cause, h.CopyRefused f order (h.copyFor root f) g cause) := by
  refine ⟨isolated_copyFor hclosed root f, (h.copyPlan root).groups, fun gs => metInOrder_iff, ?_⟩
  cases hissue : h.issueAll f (h.copyPlan root).groups with
  | ok issued => exact .inl ⟨_, copyReturned_of_issueAll hissue⟩
  | error e => exact .inr ⟨e.1, e.2, copyRefused_of_issueAll hissue⟩

/-- A factory that refuses groups with a type name. -/
def anonymous : Factory where
  label := "anonymous"
  issue h g :=
    match (h.group g).typeName with
    | none => .ok (.fresh .generic)
    | some name => .error ⟨"Error", name⟩

/-- Of the two groups of the knot, the second one is refused. -/
theorem copyFor_isolated_knot :
    knot.Closed ∧ Isolated knot (knot.copyFor ⟨0⟩ anonymous).heap ∧
      knot.CopyRefused anonymous [⟨0⟩, ⟨1⟩] (knot.copyFor ⟨0⟩ anonymous) ⟨1⟩
        ⟨"Error", "Inner"⟩ := by
  have hclosed : knot.Closed := by decide
  obtain ⟨hisolated, order, horder, hout⟩ := copyFor_isolated hclosed ⟨0⟩ anonymous
  obtain rfl : [⟨0⟩, ⟨1⟩] = order := (horder _).1 (metInOrder_iff.2 rfl)
  refine ⟨hclosed, hisolated, ?_⟩
  rcases hout with ⟨copy, hreturned⟩ | ⟨g, cause, hrefused⟩
  · obtain ⟨issued, hissued⟩ := hreturned.issued ⟨1⟩ (by decide)
    cases hissued
  · obtain ⟨before, after, heq, -⟩ := hrefused.first
    have hg : g = ⟨0⟩ ∨ g = ⟨1⟩ := by
      have hmem : g ∈ ([⟨0⟩, ⟨1⟩] : List GroupId) := by
        rw [heq]
        exact List.mem_append_right _ List.mem_cons_self
      simpa using hmem
    rcases hg with rfl | rfl
    · cases hrefused.refused
    · obtain rfl : (⟨"Error", "Inner"⟩ : Cause) = cause := Except.error.inj hrefused.refused
      exact hrefused

end AttributeGraph.Heap
