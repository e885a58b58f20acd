/-
A copy cannot be told from its source.

A copy mirrors the nodes that it is made of, whatever they share, whatever cycles
they form and whoever owns the items (`mirrored_copy`).  That the copy answers like
its source is shown for the mirror image alone.  Within one heap the pairs of an
image and its original are a bisimulation and of the same shape, so they are equal
and cover each other without a diagnostic; and the image shows the same text.

What can differ is the label in front of the text, which names the engine.  It is
the same if the factory issues the settings of the source.
-/
import AttributeGraph.Proofs.CopyIsolation
import AttributeGraph.Proofs.EqualCoverage
import AttributeGraph.Proofs.Rendering

namespace AttributeGraph

/-- A slot with images matches the slot if the images are related to the originals. -/
theorem Slot.slotsMatch_relink {S : GroupId → GroupId → Prop} {φ : GroupId → GroupId} {s : Slot}
    (hS : ∀ x ∈ s.groups, S (φ x) x) : SlotsMatch S (s.relink φ) s := by
  have hmap : ∀ o : Option GroupId, (∀ x, o = some x → x ∈ s.groups) →
      Option.Rel S (o.map φ) o := by
    intro o ho
    cases o with
    | none => exact .none
    | some x => exact .some (hS x (ho x rfl))
  refine ⟨hmap _ fun x hx => mem_groups.2 (.inl hx), fun k => ?_⟩
  have hfind : (s.relink φ).find? k = (s.find? k).map φ := by
    cases hs : s.byType with
    | none => simp [find?, relink, hs]
    | some m => simp [find?, relink, hs, OrderedMap.find?_mapValues]
  rw [hfind]
  exact hmap _ fun x hx => mem_groups_of_find? hx

namespace Heap

/-- Two groups answer alike to every comparison, with no diagnostic, and show the same items. -/
structure Indistinguishable (h : Heap) (a b : GroupId) : Prop where
  equal : h.groupsAgree (some a) (some b) = true
  covers : h.coverage a (some b) = (true, [])
  covered : h.coverage b (some a) = (true, [])
  block : h.blockText a = h.blockText b

variable {h h' : Heap} {D : GroupId → Prop} {φ : GroupId → GroupId} {ψ : ItemId → ItemId}
  {g root : GroupId} {f : Factory}

/-! ### Images in the same heap -/

/-- An image is paired with its original. -/
inductive ImageOf (D : GroupId → Prop) (φ : GroupId → GroupId) : GroupId → GroupId → Prop
  | intro {g : GroupId} (hg : D g) : ImageOf D φ (φ g) g

namespace Mirrored

section SameHeap

variable (hm : h.Mirrored h D φ ψ)

include hm

/-- The items of an image are found where those of the original are. -/
theorem find?_image (hg : D g) (n : String) :
    (h.group (φ g)).items.find? n = ((h.group g).items.find? n).map ψ := by
  rw [(hm.mirrors g hg).items, OrderedMap.find?_mapValues]

theorem exists_original (hg : D g) {n : String} {i j : ItemId}
    (hi : (h.group (φ g)).items.find? n = some i) (hj : (h.group g).items.find? n = some j) :
    j ∈ (h.group g).itemIds ∧ i = ψ j := by
  rw [hm.find?_image hg, hj] at hi
  exact ⟨mem_itemIds_of_find? hj, (Option.some.inj hi).symm⟩

theorem groupsMatch (hg : D g) : h.GroupsMatch (ImageOf D φ) (φ g) g := by
  have hslot : ∀ i ∈ (h.group g).itemIds, ∀ side,
      SlotsMatch (ImageOf D φ) ((h.item (ψ i)).slot side) ((h.item i).slot side) := by
    intro i hi side
    rw [(hm.mirrors g hg).slot i hi side]
    exact Slot.slotsMatch_relink fun x hx => .intro (hm.nested_slot hg hi side hx)
  constructor
  · intro n
    rw [hm.find?_image hg]
    cases hi : (h.group g).items.find? n with
    | none => exact .none
    | some i =>
      have hmem := mem_itemIds_of_find? hi
      exact .some ⟨hslot i hmem .value, hslot i hmem .key⟩
  · rw [(hm.mirrors g hg).above]
    cases hs : (h.group g).above with
    | none => exact .none
    | some s => exact .some (.intro (hm.above g s hg hs))

theorem bisimulation : h.Bisimulation (ImageOf D φ) := by
  rintro a b ⟨hg⟩
  exact .inr ((hm.groupsMatch hg).mono fun _ _ => .single)

theorem simulation : h.Simulation (ImageOf D φ) := by
  rintro a b ⟨hg⟩
  refine obligations_iff.2 ⟨(hm.groupsMatch hg).mono fun _ _ => .single, fun n i j hi hj => ?_⟩
  obtain ⟨hmem, rfl⟩ := hm.exists_original hg hi hj
  exact (hm.mirrors _ hg).name j hmem

theorem sameShape (hg : D g) : h.SameShape (φ g) g := by
  intro n i j hi hj side
  obtain ⟨hmem, rfl⟩ := hm.exists_original hg hi hj
  rw [(hm.mirrors g hg).slot j hmem side]
  simp [Slot.relink]

/-- **An image cannot be told from its original.** -/
theorem indistinguishable (hg : D g) : h.Indistinguishable (φ g) g where
  equal := by
    refine meets_of_simulation hm.simulation ?_ fun d hd => ?_
    · rintro a b ⟨hx⟩
      exact ⟨hm.image _ hx, hm.inHeap _ hx⟩
    · obtain rfl := List.mem_singleton.1 hd
      exact .some (.single (.intro hg))
  covers := by
    refine coverage_eq_silent_of_bisimulation hm.bisimulation ?_ (.intro hg)
    rintro a b ⟨hx⟩
    exact hm.sameShape hx
  covered := by
    refine coverage_eq_silent_of_bisimulation hm.bisimulation.swap ?_ (.intro hg)
    rintro b a ⟨hx⟩ n i j hi hj side
    exact (hm.sameShape hx n j i hj hi side).symm
  block := hm.blockText_eq (Nat.le_refl _) hg

end SameHeap

/-- What is mirrored behind a heap is mirrored within the heap that has grown. -/
theorem grown (hm : h.Mirrored h' D φ ψ) (hclosed : h.Closed)
    (hgrows : Grows Nothing Nothing h h') : h'.Mirrored h' D φ ψ := by
  have hgroup : ∀ x, D x → h'.group x = h.group x := fun x hx => hgrows.group x (hm.inHeap x hx) id
  have hitem : ∀ x, D x → ∀ i ∈ (h.group x).itemIds, h'.item i = h.item i := fun x hx i hi =>
    hgrows.item i ((hclosed.group x (hm.inHeap x hx)).items i hi) id
  refine ⟨fun x hx => hgrows.hasGroup x (hm.inHeap x hx), hm.image, hm.injective, ?_, ?_, ?_⟩
  · intro x s hx hs
    rw [hgroup x hx] at hs
    exact hm.above x s hx hs
  · rintro x y hx ⟨side, hi, hy⟩
    rw [hgroup x hx] at hi
    rw [hitem x hx _ hi] at hy
    exact hm.nested_slot hx hi side hy
  · intro x hx
    have himage := hm.mirrors x hx
    constructor
    · rw [himage.above, hgroup x hx]
    · rw [himage.items, hgroup x hx]
    · intro i hi
      rw [hgroup x hx] at hi
      rw [himage.name i hi, hitem x hx i hi]
    · intro i hi side
      rw [hgroup x hx] at hi
      rw [himage.slot i hi side, hitem x hx i hi]

end Mirrored

/-- A heap that has grown holds the groups that it held. -/
theorem mirrored_of_grows (hclosed : h.Closed) (hgrows : Grows Nothing Nothing h h') :
    h.Mirrored h' h.HasGroup id id where
  inHeap _ hg := hg
  image := hgrows.hasGroup
  injective _ _ _ _ hab := hab
  above _ _ hg hs := hclosed.hasGroup_above hg hs
  nested _ _ _ hx := hclosed.hasGroup_nested hx
  mirrors g hg := by
    have hrelink : ∀ s : Slot, s.relink id = s := by
      intro s
      cases hs : s.byType <;> cases s <;> simp_all [Slot.relink, OrderedMap.mapValues]
    have hgroup : h'.group g = h.group g := hgrows.group g hg id
    have hitem : ∀ i ∈ (h.group g).itemIds, h'.item i = h.item i := fun i hi =>
      hgrows.item i ((hclosed.group g hg).items i hi) id
    constructor
    · simp [hgroup]
    · simp [hgroup, OrderedMap.mapValues]
    · intro i hi
      simp [hitem i hi]
    · intro i hi side
      simp [hitem i hi, hrelink]

theorem blockText_of_grows (hclosed : h.Closed) (hgrows : Grows Nothing Nothing h h')
    (hg : h.HasGroup g) : h'.blockText g = h.blockText g :=
  (mirrored_of_grows hclosed hgrows).blockText_eq hgrows.groups_le hg

theorem indistinguishable_refl (hclosed : h.Closed) (hg : h.HasGroup g) :
    h.Indistinguishable g g :=
  (mirrored_of_grows hclosed (Grows.refl h)).indistinguishable hg

/-! ### Copies -/

theorem Closed.hasNode_of_reaches (hclosed : h.Closed) {m n : Node} (hm : h.HasNode m)
    (hmn : h.Reaches m n) : h.HasNode n := by
  induction hmn with
  | refl => exact hm
  | tail _ hlink ih => exact hclosed.hasNode_of_link ih hlink

/-- **A copy mirrors what it is made of.** -/
theorem mirrored_copy (hclosed : h.Closed) (hroot : h.HasGroup root)
    {issued : List (GroupId × Issued)} (hfst : issued.map Prod.fst = (h.copyPlan root).groups) :
    h.Mirrored (h.pushCopies (h.copyPlan root) issued) (· ∈ (h.copyPlan root).groups)
      (h.copyOfGroup (h.copyPlan root)) (h.copyOfItem (h.copyPlan root)) := by
  have hp := copyPlan_linksPlanned h root
  have hitem : ∀ {x i}, x ∈ (h.copyPlan root).groups → i ∈ (h.group x).itemIds →
      i ∈ (h.copyPlan root).items := fun hx hi => hp.group _ hx _ (.item hi)
  refine ⟨fun x hx => ?_, fun x hx => (group_pushCopies hfst hx).1,
    fun x y hx _ hxy => copyOfGroup_injective hx hxy,
    fun x s hx hs => hp.group x hx _ (.above hs), ?_, fun x hx => ?_⟩
  · exact hclosed.hasNode_of_reaches (m := .group root) hroot (reaches_of_mem_copyPlan hx)
  · rintro x y hx ⟨side, hi, hy⟩
    exact hp.nested _ (hitem hx hi) side y hy
  · obtain ⟨-, -, -, -, v, hgroup, -⟩ := group_pushCopies (h := h) hfst hx
    have hcopied : ∀ i ∈ (h.group x).itemIds,
        (h.pushCopies (h.copyPlan root) issued).item (h.copyOfItem (h.copyPlan root) i) =
          h.relocateItem (h.copyPlan root) i := fun i hi => (item_pushCopies (hitem hx hi)).2
    constructor
    · rw [hgroup]
      rfl
    · rw [hgroup]
      rfl
    · intro i hi
      rw [hcopied i hi]
      rfl
    · intro i hi side
      rw [hcopied i hi, slot_relocateItem]
      rfl

/-- The answer is a group that cannot be told from a group of the heap, and this one shows what it
showed before. -/
structure AnswersAlike (h : Heap) (g : GroupId) (out : Outcome GroupId) (c : GroupId) : Prop where
  answer : out.answer = .ok c
  indistinguishable : out.heap.Indistinguishable c g
  source : out.heap.blockText g = h.blockText g

/-- What is answered about a heap that has grown is answered about the heap before. -/
theorem AnswersAlike.of_grows {out : Outcome GroupId} {c : GroupId}
    (hout : h'.AnswersAlike g out c) (hclosed : h.Closed) (hgrows : Grows Nothing Nothing h h')
    (hg : h.HasGroup g) : h.AnswersAlike g out c :=
  ⟨hout.answer, hout.indistinguishable, hout.source.trans (blockText_of_grows hclosed hgrows hg)⟩

/-- A factory that refuses no group makes a copy that cannot be told from the source. -/
theorem answersAlike_copyFor (hclosed : h.Closed) (hg : h.HasGroup g)
    (hissue : ∀ x, ∃ issued, f.issue h x = .ok issued) :
    h.AnswersAlike g (h.copyFor g f) (h.copyOfGroup (h.copyPlan g) g) := by
  obtain ⟨issued, hall⟩ := exists_issueAll (h := h) (f := f) (h.copyPlan g).groups
    fun x _ => hissue x
  obtain ⟨hfst, -⟩ := issueAll_spec _ hall
  have hcopy : h.copyFor g f =
      { heap := h.pushCopies (h.copyPlan g) issued
        answer := .ok (h.copyOfGroup (h.copyPlan g) g) } := by
    simp [copyFor, hall]
  rw [hcopy]
  have hgrows := grows_pushCopies h (h.copyPlan g) issued
  have hmirrored := (mirrored_copy hclosed hg hfst).grown hclosed hgrows
  exact ⟨rfl, hmirrored.indistinguishable (root_mem_copyPlan h g),
    blockText_of_grows hclosed hgrows hg⟩

theorem exists_answersAlike_convert (hclosed : h.Closed) (hg : h.HasGroup g) (kind : Kind)
    (hissue : ∀ x, ∃ issued, f.issue h x = .ok issued) :
    ∃ c, h.AnswersAlike g (h.convert g kind f) c := by
  unfold convert
  by_cases hkind : (h.variantOf g).kind = kind
  · rw [if_pos hkind]
    exact ⟨g, rfl, indistinguishable_refl hclosed hg, rfl⟩
  · rw [if_neg hkind]
    exact ⟨_, answersAlike_copyFor hclosed hg hissue⟩

/-- The text of a group is its label, then its items. -/
def labelText (h : Heap) (g : GroupId) : String :=
  s!"{(h.variantOf g).kind.label}({(h.group g).name}){(h.variantOf g).note}"

theorem groupText_eq (h : Heap) (g : GroupId) : h.groupText g = h.labelText g ++ h.blockText g :=
  rfl

/-- A duplicate has the label of its source, and the source keeps it. -/
theorem labelText_duplicate (hclosed : h.Closed) (hg : h.HasGroup g) :
    (h.duplicate g).heap.labelText (h.copyOfGroup (h.copyPlan g) g) = h.labelText g ∧
      (h.duplicate g).heap.labelText g = h.labelText g := by
  have hgrows : Grows Nothing Nothing h (h.duplicate g).heap := grows_copyFor h g .clone
  obtain ⟨issued, hall⟩ := exists_issueAll (h := h) (f := .clone) (h.copyPlan g).groups
    fun x _ => ⟨_, rfl⟩
  obtain ⟨hfst, hissued⟩ := issueAll_spec _ hall
  have hheap : (h.duplicate g).heap = h.pushCopies (h.copyPlan g) issued := by
    simp [duplicate, copyFor, hall]
  obtain ⟨-, e, he, rfl, v, hgroup, hholds⟩ :=
    group_pushCopies (h := h) hfst (root_mem_copyPlan h g)
  have hfresh : .fresh (h.variantOf e.1) = e.2 := Except.ok.inj (hissued e he)
  rw [← hfresh] at hholds
  have hvariant : (h.duplicate e.1).heap.variantOf e.1 = h.variantOf e.1 :=
    hgrows.variantOf (hclosed.group _ hg).variant (by rw [hgrows.group _ hg id])
  constructor
  · rw [labelText, hheap, variantOf, hgroup]
    simp [relocateGroup, hholds.2.2, labelText]
  · rw [labelText, hvariant, hgrows.group _ hg id, labelText]

/-- **A duplicate cannot be told from its source**, nor can what a group is specialized to: they are
equal, cover each other without a diagnostic, and show the same items.  A duplicate has the same
text, label included.  The source shows what it showed before. -/
theorem duplicate_indistinguishable (hclosed : h.Closed) (hg : h.HasGroup g) :
    (∃ c, h.AnswersAlike g (h.duplicate g) c ∧
      (h.duplicate g).heap.groupText c = (h.duplicate g).heap.groupText g ∧
        (h.duplicate g).heap.groupText g = h.groupText g) ∧
    (∃ c, h.AnswersAlike g (h.forFetch g) c) ∧ (∃ c, h.AnswersAlike g (h.forLoad g) c) ∧
      ∀ copies, ∃ c, h.AnswersAlike g (h.forCopy g copies) c := by
  refine ⟨⟨h.copyOfGroup (h.copyPlan g) g, ?_⟩, ?_, ?_, fun copies => ?_⟩
  · have hout : h.AnswersAlike g (h.duplicate g) _ :=
      answersAlike_copyFor hclosed hg fun x => ⟨_, rfl⟩
    obtain ⟨hcopy, hsource⟩ := labelText_duplicate hclosed hg
    refine ⟨hout, ?_, ?_⟩
    · rw [groupText_eq, groupText_eq, hcopy, hsource, hout.indistinguishable.block]
    · rw [groupText_eq, groupText_eq, hsource, hout.source]
  · exact exists_answersAlike_convert hclosed hg .fetch fun x => ⟨_, rfl⟩
  · exact exists_answersAlike_convert hclosed hg .load fun x => ⟨_, rfl⟩
  · cases copies with
    | some copies => exact exists_answersAlike_convert hclosed hg .copy fun x => ⟨_, rfl⟩
    | none =>
      -- the new registry is neither linked nor shown
      have hgrows : Grows Nothing Nothing h h.allocCopyRegistry.2 := { Grows.refl h with }
      have hclosed' : h.allocCopyRegistry.2.Closed :=
        ⟨fun x hx => { hclosed.group x hx with }, fun i hi => { hclosed.item i hi with }⟩
      obtain ⟨c, hout⟩ := exists_answersAlike_convert (f := .copy h.allocCopyRegistry.1) hclosed'
        hg .copy fun x => ⟨_, rfl⟩
      exact ⟨c, hout.of_grows hclosed hgrows hg⟩

/-- Two groups, one above the other, declare the same item, which belongs to a third one; it nests
one of them for all values and both per type. -/
def sharers : Heap where
  groups := #[
    { name := "left", above := some ⟨1⟩, nestedIn := some ⟨0⟩, items := .ofList [("next", ⟨0⟩)] },
    { name := "right", typeName := some "Right", below := some (.ofList [⟨0⟩])
      nestedIn := some ⟨0⟩, items := .ofList [("next", ⟨0⟩)] },
    { name := "owner" }]
  items := #[
    { name := "next", owner := ⟨2⟩
      value := { primary := some ⟨0⟩
                 byType := some (.ofList [(.name "Left", ⟨0⟩), (.name "Right", ⟨1⟩)]) } }]
  variants := #[.generic]

theorem duplicate_indistinguishable_sharers :
    sharers.Closed ∧ sharers.HasGroup ⟨0⟩ ∧
      (∃ c, sharers.AnswersAlike ⟨0⟩ (sharers.duplicate ⟨0⟩) c ∧
        (sharers.duplicate ⟨0⟩).heap.groupText c = sharers.groupText ⟨0⟩) ∧
      ∃ c, sharers.AnswersAlike ⟨0⟩ (sharers.forCopy ⟨0⟩ none) c := by
  have hclosed : sharers.Closed := by decide
  have hg : sharers.HasGroup ⟨0⟩ := by decide
  obtain ⟨⟨c, hduplicate, htext, hsource⟩, -, -, hcopy⟩ := duplicate_indistinguishable hclosed hg
  exact ⟨hclosed, hg, ⟨c, hduplicate, htext.trans hsource⟩, hcopy none⟩

end Heap

end AttributeGraph
