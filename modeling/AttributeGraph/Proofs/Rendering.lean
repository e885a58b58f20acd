/-
Graphs that are mirrored show the same text.

Part of a heap is mirrored in a heap if every group of the part has an image, with
items of the same names, and every link that is shown leads between images as it
leads between the originals (`Mirrored`).  The text of a group is computed with
marks that come and go, so the statement about it is made for every list of marks:
with the images marked, the image gives the same text and leaves the same marks
(`Mirrored.showsAlike_itemTexts`).

The two computations may have different depths, since the heaps may have different
sizes.  A depth suffices if it exceeds the number of groups that are not marked, and
no group is marked twice.
-/
import AttributeGraph.Heap.Rendering
import AttributeGraph.Proofs.Describing

namespace AttributeGraph

/-! ### Images -/

/-- A slot with its groups replaced by their images. -/
def Slot.relink (φ : GroupId → GroupId) (s : Slot) : Slot where
  primary := s.primary.map φ
  byType := s.byType.map (·.mapValues φ)

namespace Heap

/-- A group has an image: the super group and the nested groups of its items are replaced by their
images, and the items keep their names, places and keys. -/
structure Mirrors (h h' : Heap) (φ : GroupId → GroupId) (ψ : ItemId → ItemId) (g : GroupId) :
    Prop where
  above : (h'.group (φ g)).above = (h.group g).above.map φ
  items : (h'.group (φ g)).items = (h.group g).items.mapValues ψ
  name : ∀ i ∈ (h.group g).itemIds, (h'.item (ψ i)).name = (h.item i).name
  slot : ∀ i ∈ (h.group g).itemIds, ∀ side,
    (h'.item (ψ i)).slot side = ((h.item i).slot side).relink φ

/-- A part of a heap is mirrored in a heap: it is left neither upwards nor through items, and its
groups have images of their own. -/
structure Mirrored (h h' : Heap) (D : GroupId → Prop) (φ : GroupId → GroupId)
    (ψ : ItemId → ItemId) : Prop where
  inHeap : ∀ g, D g → h.HasGroup g
  image : ∀ g, D g → h'.HasGroup (φ g)
  injective : ∀ a b, D a → D b → φ a = φ b → a = b
  above : ∀ g s, D g → (h.group g).above = some s → D s
  nested : ∀ g x, D g → h.Nests g x → D x
  mirrors : ∀ g, D g → h.Mirrors h' φ ψ g

/-- The text of the items of a group. -/
def blockText (h : Heap) (g : GroupId) : String :=
  rendered (itemsBlock (h.itemTexts h.renderDepth) g)

end Heap

/-! ### Computations under marks -/

namespace Marking

variable {α β γ : Type} {φ : GroupId → GroupId} {marks : List GroupId}

/-- Two computations give an answer and leave the marks as they are, the one under marks, the other
one under their images. -/
def Gives (φ : GroupId → GroupId) (marks : List GroupId) (m m' : Marking α) (a : α) : Prop :=
  m.run marks = some (a, marks) ∧ m'.run (marks.map φ) = some (a, marks.map φ)

/-- Two computations give the same answer under marks and their images. -/
def ShowsAlike (φ : GroupId → GroupId) (marks : List GroupId) (m m' : Marking α) : Prop :=
  ∃ a, Gives φ marks m m' a

theorem showsAlike_pure (a : α) : ShowsAlike φ marks (pure a) (pure a) :=
  ⟨a, rfl, rfl⟩

theorem Gives.bind {m m' : Marking α} {f f' : α → Marking β} {a : α} (hm : Gives φ marks m m' a)
    (hf : ShowsAlike φ marks (f a) (f' a)) : ShowsAlike φ marks (m >>= f) (m' >>= f') := by
  obtain ⟨b, hb, hb'⟩ := hf
  refine ⟨b, ?_, ?_⟩
  · simp [StateT.run_bind, hm.1, hb]
  · simp [StateT.run_bind, hm.2, hb']

theorem ShowsAlike.bind {m m' : Marking α} {f f' : α → Marking β} (hm : ShowsAlike φ marks m m')
    (hf : ∀ a, ShowsAlike φ marks (f a) (f' a)) : ShowsAlike φ marks (m >>= f) (m' >>= f') := by
  obtain ⟨a, ha⟩ := hm
  exact ha.bind (hf a)

theorem ShowsAlike.mapM {l : List β} {f : β → Marking α} {f' : γ → Marking α} (k : β → γ)
    (hf : ∀ x ∈ l, ShowsAlike φ marks (f x) (f' (k x))) :
    ShowsAlike φ marks (l.mapM f) ((l.map k).mapM f') := by
  induction l with
  | nil => exact showsAlike_pure []
  | cons x l ih =>
    rw [List.forall_mem_cons] at hf
    simp only [List.map_cons, List.mapM_cons]
    exact hf.1.bind fun a => (ih hf.2).bind fun as => showsAlike_pure (a :: as)

theorem ShowsAlike.within {m m' : Marking α} {g : GroupId} (hm : ShowsAlike φ (g :: marks) m m') :
    ShowsAlike φ marks (within g m) (within (φ g) m') := by
  obtain ⟨a, ha, ha'⟩ := hm
  rw [List.map_cons] at ha'
  refine ⟨a, ?_, ?_⟩
  · simp [Marking.within, StateT.run_bind, ha]
  · simp [Marking.within, StateT.run_bind, ha']

/-- An image is marked exactly if the original is. -/
theorem gives_isMarked {g : GroupId} (hg : φ g ∈ marks.map φ ↔ g ∈ marks) :
    Gives φ marks (isMarked g) (isMarked (φ g)) (decide (g ∈ marks)) := by
  refine ⟨rfl, ?_⟩
  rw [← decide_eq_decide.2 hg]
  rfl

end Marking

/-! ### Texts -/

namespace Heap

open Marking

variable {h h' : Heap} {D : GroupId → Prop} {φ : GroupId → GroupId} {ψ : ItemId → ItemId}
  {marks : List GroupId}

theorem showsAlike_itemsBlock {parts parts' : GroupId → Marking (List String)} {g : GroupId}
    (hmark : φ g ∈ marks.map φ ↔ g ∈ marks)
    (hparts : g ∉ marks → ShowsAlike φ (g :: marks) (parts g) (parts' (φ g))) :
    ShowsAlike φ marks (itemsBlock parts g) (itemsBlock parts' (φ g)) := by
  refine (gives_isMarked hmark).bind ?_
  by_cases hg : g ∈ marks
  · simpa [hg] using showsAlike_pure _
  · simp only [hg, decide_false, Bool.false_eq_true, if_false]
    exact (hparts hg).within.bind fun _ => showsAlike_pure _

/-- The groups filed per type, without the primary one, are relinked like the slot. -/
theorem others_relink {s : Slot} (hinj : ∀ a ∈ s.groups, ∀ b ∈ s.groups, φ a = φ b → a = b) :
    ((((s.relink φ).byType.map (·.entries)).getD []).filter fun e =>
        some e.2 ≠ (s.relink φ).primary) =
      (((s.byType.map (·.entries)).getD []).filter fun e => some e.2 ≠ s.primary).map
        fun e => (e.1, φ e.2) := by
  cases hs : s.byType with
  | none => simp [Slot.relink, hs]
  | some m =>
    simp only [Slot.relink, hs, Option.map_some, Option.getD_some, OrderedMap.mapValues,
      List.filter_map]
    congr 1
    refine List.filter_congr fun e he => ?_
    have hmem : e.2 ∈ s.groups := by
      simp only [Slot.mem_groups, Slot.typed, hs, Option.map_some, Option.getD_some]
      exact .inr (List.mem_map_of_mem he)
    cases hp : s.primary with
    | none => simp
    | some y =>
      have hy : y ∈ s.groups := Slot.mem_groups.2 (.inl hp)
      have hiff : φ e.2 = φ y ↔ e.2 = y := ⟨hinj _ hmem _ hy, congrArg φ⟩
      simp [hiff]

theorem showsAlike_itemText {x y : Item} {block block' : GroupId → Marking String}
    (hname : y.name = x.name) (hslot : ∀ side, y.slot side = (x.slot side).relink φ)
    (hinj : ∀ a ∈ x.value.groups, ∀ b ∈ x.value.groups, φ a = φ b → a = b)
    (hblock : ∀ side, ∀ g ∈ (x.slot side).groups, ShowsAlike φ marks (block g) (block' (φ g))) :
    ShowsAlike φ marks (itemText x block) (itemText y block') := by
  have hvalue : y.value = x.value.relink φ := hslot .value
  have hkey : y.key = x.key.relink φ := hslot .key
  have hprimary : ∀ s : Slot, (s.relink φ).primary.toList = s.primary.toList.map φ := by
    intro s
    cases hs : s.primary <;> simp [Slot.relink, hs]
  unfold itemText
  rw [hname, hvalue, hkey, hprimary, hprimary, others_relink hinj]
  refine ShowsAlike.bind (.mapM φ fun g hg => ?_) fun value => ?_
  · exact hblock .value g (List.mem_append_left _ hg)
  refine ShowsAlike.bind (.mapM φ fun g hg => ?_) fun key => ?_
  · exact (hblock .key g (List.mem_append_left _ hg)).bind fun _ => showsAlike_pure _
  refine ShowsAlike.bind (.mapM _ fun e he => ?_) fun typed => showsAlike_pure _
  have hmem : e.2 ∈ x.value.typed := by
    simp only [List.mem_filter] at he
    cases hs : x.value.byType with
    | none => simp [hs] at he
    | some m =>
      simp only [hs, Option.map_some, Option.getD_some] at he
      simp only [Slot.typed, hs, Option.map_some, Option.getD_some]
      exact List.mem_map_of_mem he.1
  exact (hblock .value e.2 (List.mem_append_right _ hmem)).bind fun _ => showsAlike_pure _

namespace Mirrored

variable (hm : h.Mirrored h' D φ ψ)

include hm

theorem mem_map_iff (hmarks : ∀ x ∈ marks, D x) {g : GroupId} (hg : D g) :
    φ g ∈ marks.map φ ↔ g ∈ marks := by
  constructor
  · intro hmem
    obtain ⟨x, hx, hxg⟩ := List.mem_map.1 hmem
    rwa [← hm.injective x g (hmarks x hx) hg hxg]
  · exact List.mem_map_of_mem

theorem nested_slot {g x : GroupId} {i : ItemId} (hg : D g) (hi : i ∈ (h.group g).itemIds)
    (side : Side) (hx : x ∈ ((h.item i).slot side).groups) : D x :=
  hm.nested g x hg ⟨side, hi, hx⟩

/-- **A group and its image show the same items.**  The induction is on the depth; each level marks
one group more. -/
theorem showsAlike_itemTexts (fuel : Nat) : ∀ (fuel' : Nat) (marks : List GroupId) (g : GroupId),
    D g → (∀ x ∈ marks, D x) → marks.Nodup → h.groups.size < fuel + marks.length →
      h.groups.size < fuel' + marks.length →
      ShowsAlike φ marks (h.itemTexts fuel g) (h'.itemTexts fuel' (φ g)) := by
  induction fuel with
  | zero =>
    intro fuel' marks g _ hmarks hnodup hfuel _
    have := length_le_of_nodup hnodup fun x hx => hm.inHeap x (hmarks x hx)
    omega
  | succ fuel ih =>
    intro fuel' marks g hg hmarks hnodup hfuel hfuel'
    cases fuel' with
    | zero =>
      have := length_le_of_nodup hnodup fun x hx => hm.inHeap x (hmarks x hx)
      omega
    | succ fuel' =>
      have hdeeper : ∀ x, D x → x ∉ marks →
          ShowsAlike φ (x :: marks) (h.itemTexts fuel x) (h'.itemTexts fuel' (φ x)) := by
        intro x hx hnew
        refine ih fuel' (x :: marks) x hx (List.forall_mem_cons.2 ⟨hx, hmarks⟩)
          (List.nodup_cons.2 ⟨hnew, hnodup⟩) ?_ ?_ <;> rw [List.length_cons] <;> omega
      have himage := hm.mirrors g hg
      have hids : (h'.group (φ g)).itemIds = (h.group g).itemIds.map ψ := by
        rw [Group.itemIds, himage.items, OrderedMap.values_mapValues, Group.itemIds]
      rw [itemTexts, itemTexts, hids, himage.above]
      refine ShowsAlike.bind (.mapM ψ fun i hi => ?_) fun own => ?_
      · refine showsAlike_itemText (himage.name i hi) (himage.slot i hi) ?_ fun side x hx => ?_
        · intro a ha b hb
          exact hm.injective a b (hm.nested_slot hg hi .value ha) (hm.nested_slot hg hi .value hb)
        · have hx := hm.nested_slot hg hi side hx
          exact showsAlike_itemsBlock (hm.mem_map_iff hmarks hx) (hdeeper x hx)
      · cases hs : (h.group g).above with
        | none => exact showsAlike_pure own
        | some s =>
          have hDs := hm.above g s hg hs
          refine (gives_isMarked (hm.mem_map_iff hmarks hDs)).bind ?_
          by_cases hmarked : s ∈ marks
          · simpa [hmarked] using showsAlike_pure own
          · simp only [hmarked, decide_false, Bool.false_eq_true, if_false]
            exact (hdeeper s hDs hmarked).within.bind fun _ => showsAlike_pure _

/-- The depth that a text is given suffices, in both heaps. -/
theorem showsAlike_block (hsize : h.groups.size ≤ h'.groups.size) {g : GroupId} (hg : D g) :
    ShowsAlike φ [] (itemsBlock (h.itemTexts h.renderDepth) g)
      (itemsBlock (h'.itemTexts h'.renderDepth) (φ g)) := by
  refine showsAlike_itemsBlock (by simp) fun _ => ?_
  refine hm.showsAlike_itemTexts _ _ [g] g hg (by simpa using hg) (List.nodup_singleton g) ?_ ?_ <;>
    simp only [renderDepth, List.length_singleton] <;> omega

theorem blockText_eq (hsize : h.groups.size ≤ h'.groups.size) {g : GroupId} (hg : D g) :
    h'.blockText (φ g) = h.blockText g := by
  obtain ⟨text, htext, htext'⟩ := hm.showsAlike_block hsize hg
  rw [List.map_nil] at htext'
  rw [blockText, blockText, rendered, rendered, htext, htext']

end Mirrored

end Heap

end AttributeGraph
