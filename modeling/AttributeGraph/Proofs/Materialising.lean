/-
What creating a path changes.

The walk that creates a path may pass a group twice, or one that is nested in many
places, so what it adds may show up elsewhere and further down the walk itself.  All
the same, `FilledIn` says, nothing is taken away: a group gets further items behind
those that it has, an item gets a primary group only where it has none, and no group
gets or loses a super group.  So whatever names lead to, they still lead to, and a
path that is there stays (`FilledIn.hasPath`).

The places that are written are named by the walk as it is afterwards
(`FilesOn`, `NestsOn`), since only then does it reach them.  At its end stands the
item that is returned (`filledIn_ensurePath`), so a second walk creates nothing
(`ensurePath_of_found`).
-/
import AttributeGraph.Proofs.Levels
import AttributeGraph.Proofs.Operations
import AttributeGraph.Proofs.PathEdits

namespace AttributeGraph.Heap

variable {h h' h₁ h₂ : Heap} {g x y : GroupId} {l : List GroupId} {p : Path} {i j : ItemId}
  {m n : String} {q r s tail : List String} {F F' : GroupId → String → Prop} {N N' : ItemId → Prop}

/-! ### Heaps that are filled in -/

/-- The items of groups, and the groups nested for their values, are nodes of the heap. -/
structure ValuesInside (h : Heap) : Prop where
  items : ∀ x n i, (h.group x).items.find? n = some i → h.HasItem i
  primary : ∀ i y, (h.item i).value.primary = some y → h.HasGroup y

theorem Closed.valuesInside (hclosed : h.Closed) : h.ValuesInside := by
  constructor
  · intro x n i hi
    have hmem := mem_itemIds_of_find? hi
    exact (hclosed.group x (hasGroup_of_mem_itemIds hmem)).items i hmem
  · intro i y hy
    by_cases hi : h.HasItem i
    · exact (hclosed.item i hi).nested y (Item.mem_nested.2 ⟨.value, Slot.mem_groups.2 (.inl hy)⟩)
    · rw [item_of_not_hasItem hi] at hy
      cases hy

/-- Further items are filed in the groups and under the names of `F`, items of `N` that nest no
group for their value get a new one, and nothing else is done to the nodes that were there. -/
structure FilledIn (F : GroupId → String → Prop) (N : ItemId → Prop) (h h' : Heap) : Prop where
  grows : Grows (fun x => ∃ n, F x n) N h h'
  group : ∀ x, h.HasGroup x → ∃ items new, h'.group x = { h.group x with items := items } ∧
    items.entries = (h.group x).items.entries ++ new ∧ ∀ e ∈ new, F x e.1 ∧ ¬ h.HasItem e.2
  item : ∀ i, h.HasItem i → h'.item i = h.item i ∨ N i ∧ (h.item i).value.primary = none ∧
    ∃ y, ¬ h.HasGroup y ∧
      h'.item i = { h.item i with value := { (h.item i).value with primary := some y } }
  above : ∀ x, (h'.group x).above = (h.group x).above

/-- A group that is as it was has no further items. -/
theorem exists_no_further (h : Heap) (x : GroupId) {P : String × ItemId → Prop} :
    ∃ items new, h.group x = { h.group x with items := items } ∧
      items.entries = (h.group x).items.entries ++ new ∧ ∀ e ∈ new, P e :=
  ⟨_, [], rfl, (List.append_nil _).symm, fun _ he => absurd he List.not_mem_nil⟩

namespace FilledIn

theorem refl (h : Heap) : FilledIn F N h h where
  grows := .refl h
  group x _ := exists_no_further h x
  item _ _ := .inl rfl
  above _ := rfl

/-- More may be filled in than is. -/
theorem mono (hfill : FilledIn F N h h') (hF : ∀ x n, F x n → F' x n) (hN : ∀ i, N i → N' i) :
    FilledIn F' N' h h' where
  grows := hfill.grows.mono (fun x _ ⟨n, hn⟩ => ⟨n, hF x n hn⟩) fun i _ hi => hN i hi
  group x hx := by
    obtain ⟨items, new, hgroup, hentries, hnew⟩ := hfill.group x hx
    exact ⟨items, new, hgroup, hentries, fun e he => ⟨hF x e.1 (hnew e he).1, (hnew e he).2⟩⟩
  item i hi := (hfill.item i hi).imp_right fun ⟨hNi, hset⟩ => ⟨hN i hNi, hset⟩
  above := hfill.above

/-- A heap that is filled in twice is filled in. -/
theorem trans (hfst : FilledIn F N h h₁) (hsnd : FilledIn F N h₁ h₂) : FilledIn F N h h₂ where
  grows := hfst.grows.trans hsnd.grows (fun _ _ hx => hx) fun _ _ hi => hi
  group x hx := by
    obtain ⟨items₁, new₁, hgroup₁, hentries₁, hnew₁⟩ := hfst.group x hx
    obtain ⟨items₂, new₂, hgroup₂, hentries₂, hnew₂⟩ := hsnd.group x (hfst.grows.hasGroup x hx)
    rw [hgroup₁] at hgroup₂ hentries₂
    refine ⟨items₂, new₁ ++ new₂, hgroup₂, ?_, fun e he => ?_⟩
    · rw [hentries₂, ← List.append_assoc, ← hentries₁]
    · rcases List.mem_append.1 he with he | he
      · exact hnew₁ e he
      · exact ⟨(hnew₂ e he).1, fun hin => (hnew₂ e he).2 (hfst.grows.hasItem _ hin)⟩
  item i hi := by
    rcases hsnd.item i (hfst.grows.hasItem i hi) with hsame | ⟨hNi, hbare, y, hy, hset⟩
    · rw [hsame]
      exact hfst.item i hi
    · rcases hfst.item i hi with hsame | ⟨-, -, z, -, hset'⟩
      · rw [hsame] at hbare hset
        exact .inr ⟨hNi, hbare, y, fun hin => hy (hfst.grows.hasGroup y hin), hset⟩
      · rw [hset'] at hbare
        cases hbare
  above x := (hsnd.above x).trans (hfst.above x)

/-- A group in which nothing is filed is as it was. -/
theorem group_eq (hfill : FilledIn F N h h') (hx : h.HasGroup x) (hno : ∀ n, ¬ F x n) :
    h'.group x = h.group x :=
  hfill.grows.group x hx fun ⟨n, hn⟩ => hno n hn

/-! ### What is read stays -/

section Reads

variable (hfill : FilledIn F N h h')

include hfill

theorem find? (hi : (h.group x).items.find? n = some i) :
    (h'.group x).items.find? n = some i := by
  have hx := hasGroup_of_mem_itemIds (mem_itemIds_of_find? hi)
  obtain ⟨items, new, hgroup, hentries, -⟩ := hfill.group x hx
  rw [hgroup, OrderedMap.find?_eq_some_iff, hentries]
  exact List.mem_append_left _ (OrderedMap.find?_eq_some_iff.1 hi)

theorem primary (hi : h.HasItem i) (hy : (h.item i).value.primary = some y) :
    (h'.item i).value.primary = some y := by
  rcases hfill.item i hi with hsame | ⟨-, hbare, -⟩
  · rw [hsame, hy]
  · rw [hy] at hbare
    cases hbare

theorem primaryAt (hin : h.ValuesInside)
    (hy : h.primaryAt x n = some y) : h'.primaryAt x n = some y := by
  obtain ⟨i, hi, hy⟩ := primaryAt_eq_some_iff.1 hy
  exact primaryAt_eq_some_iff.2 ⟨i, hfill.find? hi, hfill.primary (hin.items x n i hi) hy⟩

/-- Names lead to the groups that they led to. -/
theorem follow (hin : h.ValuesInside)
    (hy : h.follow x q = some y) : h'.follow x q = some y := by
  induction q generalizing x with
  | nil => exact hy
  | cons n q ih =>
    obtain ⟨z, hz, hy⟩ := Option.bind_eq_some_iff.1 hy
    exact Option.bind_eq_some_iff.2 ⟨z, hfill.primaryAt hin hz, ih hy⟩

/-- **A path that is there stays.** -/
theorem hasPath (hin : h.ValuesInside)
    (hends : h.EndsAbove x) (hp : h.hasPath x p = true) : h'.hasPath x p = true := by
  obtain ⟨l, hl⟩ := hends
  have hl' : h'.Supers x l := hl.congr hfill.above
  rw [Heap.hasPath, hl.superChain_eq, containsAlong_iff] at hp
  rw [Heap.hasPath, hl'.superChain_eq, containsAlong_iff]
  obtain ⟨y, hy, i, hi⟩ := hp
  obtain ⟨q, n, heq⟩ := exists_segments_eq p
  refine ⟨y, hy, i, (locate_eq_found_iff p.tail heq).2 ?_⟩
  obtain ⟨z, hz, hi⟩ := itemBelow_eq_some_iff.1 ((locate_eq_found_iff p.tail heq).1 hi)
  exact itemBelow_eq_some_iff.2 ⟨z, hfill.follow hin hz, hfill.find? hi⟩

end Reads

end FilledIn

/-! ### One name of the walk -/

/-- What reads a heap in which an item has been filed. -/
theorem reads_ensureItem (hg : h.HasGroup g) (hn : (h.group g).items.find? n = none) :
    (∀ x, (h.ensureItem g n).2.group x = if x = g then
      { h.group g with items := (h.group g).items.insert n (h.ensureItem g n).1 } else h.group x) ∧
    ∀ j, (h.ensureItem g n).2.item j =
      if j = (h.ensureItem g n).1 then { name := n, owner := g } else h.item j := by
  rw [ensureItem_of_none hn]
  constructor
  · intro x
    rw [group_alterGroup]
    by_cases hx : x = g
    · subst hx
      exact (if_pos ⟨rfl, hg⟩).trans (if_pos rfl).symm
    · exact (if_neg fun hgx => hx hgx.1.symm).trans (if_neg hx).symm
  · intro j
    by_cases hj : j = (h.allocItem { name := n, owner := g }).1
    · rw [if_pos (show j = ⟨h.items.size⟩ from hj), hj]
      exact item_allocItem_self _
    · rw [if_neg (show j ≠ ⟨h.items.size⟩ from hj)]
      exact item_allocItem hj

/-- An item is filed under the name if there is none. -/
theorem filledIn_ensureItem (hin : h.ValuesInside) (hg : h.HasGroup g) (n : String) :
    FilledIn (fun x m => x = g ∧ m = n) Nothing h (h.ensureItem g n).2 ∧
      (h.ensureItem g n).2.ValuesInside ∧
      ((h.ensureItem g n).2.group g).items.find? n = some (h.ensureItem g n).1 := by
  cases hi : (h.group g).items.find? n with
  | some i =>
    rw [ensureItem_of_find? hi]
    exact ⟨.refl h, hin, hi⟩
  | none =>
    obtain ⟨hnew, -, hinside, -⟩ := ensureItem_of_new hg hi
    obtain ⟨hgroup, hitem⟩ := reads_ensureItem hg hi
    have hgrows : Grows (fun x => ∃ m, x = g ∧ m = n) Nothing h (h.ensureItem g n).2 :=
      (Grows.ensureItem h g n).mono (fun x _ hx => ⟨n, hx, rfl⟩) fun _ _ hno => hno
    generalize (h.ensureItem g n).1 = i at *
    generalize (h.ensureItem g n).2 = h' at *
    refine ⟨⟨hgrows, fun x hx => ?_, fun j hj => .inl (hgrows.item j hj id), fun x => ?_⟩,
      ⟨fun x m j hj => ?_, fun j y hy => ?_⟩, ?_⟩
    · rw [hgroup]
      by_cases hxg : x = g
      · subst hxg
        rw [if_pos rfl]
        refine ⟨_, [(n, i)], rfl, ?_, fun e he => ?_⟩
        · exact OrderedMap.fileEntry_of_not_mem i (OrderedMap.find?_eq_none_iff.1 hi)
        · obtain rfl := List.mem_singleton.1 he
          exact ⟨⟨rfl, rfl⟩, hnew⟩
      · rw [if_neg hxg]
        exact exists_no_further h x
    · rw [hgroup]
      split_ifs with hxg
      · rw [hxg]
      · rfl
    · rw [hgroup] at hj
      split_ifs at hj with hxg
      · rw [OrderedMap.find?_insert] at hj
        split_ifs at hj
        · rwa [← Option.some.inj hj]
        · exact hgrows.hasItem j (hin.items g m j hj)
      · exact hgrows.hasItem j (hin.items x m j hj)
    · rw [hitem] at hy
      split_ifs at hy
      exact hgrows.hasGroup y (hin.primary j y hy)
    · rw [hgroup, if_pos rfl, OrderedMap.find?_insert, if_pos rfl]

theorem group_setRoot_field {α : Type} (field : Group → α) {side : Side}
    (hf : ∀ x : Group, field { x with nestedIn := some i } = field x) (z : GroupId) :
    field ((h.setRoot side i y).group z) = field (h.group z) :=
  group_alterGroup_field field hf y z

/-- What reads a heap in which a group has been nested. -/
theorem reads_ensureNested (hi : h.HasItem i) (hbare : (h.item i).value.primary = none)
    (x : GroupId) (n : String) :
    (∀ z, ((h.ensureNested x i n).2.group z).above = (h.group z).above ∧
      ((h.ensureNested x i n).2.group z).items = (h.group z).items) ∧
    ∀ j, (h.ensureNested x i n).2.item j = if j = i then
      { h.item i with value :=
        { (h.item i).value with primary := some (h.ensureNested x i n).1 } } else h.item j := by
  have hnested := (ensureNested_nested hi hbare x n).item
  rw [ensureNested_of_bare hbare] at hnested ⊢
  refine ⟨fun z => ?_, fun j => ?_⟩
  · have halloc : ((h.allocGroup { name := n } (h.variantOf x)).2.group z).above =
        (h.group z).above ∧
        ((h.allocGroup { name := n } (h.variantOf x)).2.group z).items = (h.group z).items := by
      by_cases hz : z = (h.allocGroup { name := n } (h.variantOf x)).1
      · have hno : ¬ h.HasGroup z := by
          rw [hz]
          exact Nat.lt_irrefl _
        rw [group_of_not_hasGroup hno, hz, group_allocGroup_self]
        exact ⟨rfl, rfl⟩
      · rw [group_allocGroup hz]
        exact ⟨rfl, rfl⟩
    rw [← halloc.1, ← halloc.2]
    exact ⟨group_setRoot_field Group.above (fun _ => rfl) z,
      group_setRoot_field Group.items (fun _ => rfl) z⟩
  · by_cases hj : j = i
    · rw [if_pos hj, hj]
      exact hnested
    · rw [if_neg hj]
      exact item_alterItem_of_ne hj _

/-- A new group is nested for the value of the item if there is none. -/
theorem filledIn_ensureNested (hin : h.ValuesInside) (hi : h.HasItem i) (x : GroupId)
    (n : String) :
    FilledIn (fun _ => Nothing) (· = i) h (h.ensureNested x i n).2 ∧
      (h.ensureNested x i n).2.ValuesInside ∧
      (h.ensureNested x i n).2.HasGroup (h.ensureNested x i n).1 ∧
      ((h.ensureNested x i n).2.item i).value.primary = some (h.ensureNested x i n).1 := by
  cases hy : (h.item i).value.primary with
  | some y =>
    rw [ensureNested_of_primary hy]
    exact ⟨.refl h, hin, hin.primary i y hy, hy⟩
  | none =>
    have hnest := ensureNested_nested hi hy x n
    obtain ⟨hgroup, hitem⟩ := reads_ensureNested hi hy x n
    have hnew : ¬ h.HasGroup (h.ensureNested x i n).1 := by
      rw [ensureNested_of_bare hy]
      exact Nat.lt_irrefl _
    have hgrows : Grows (fun _ => ∃ _ : String, False) (· = i) h (h.ensureNested x i n).2 :=
      hnest.grows.mono (fun _ _ hno => hno.elim) fun _ _ hj => hj
    have hinside := hnest.inHeap
    generalize (h.ensureNested x i n).1 = y at *
    generalize (h.ensureNested x i n).2 = h' at *
    refine ⟨⟨hgrows, fun z hz => ?_, fun j hj => ?_, fun z => (hgroup z).1⟩,
      ⟨fun z m j hj => ?_, fun j w hw => ?_⟩, hinside, ?_⟩
    · rw [hgrows.group z hz fun ⟨_, hno⟩ => hno]
      exact exists_no_further h z
    · rw [hitem]
      by_cases hji : j = i
      · rw [if_pos hji, hji]
        exact .inr ⟨rfl, hy, y, hnew, rfl⟩
      · rw [if_neg hji]
        exact .inl rfl
    · rw [(hgroup z).2] at hj
      exact hgrows.hasItem j (hin.items z m j hj)
    · rw [hitem] at hw
      split_ifs at hw
      · rwa [← Option.some.inj (show some y = some w from hw)]
      · exact hgrows.hasGroup w (hin.primary j w hw)
    · rw [hitem, if_pos rfl]

/-! ### The whole walk -/

/-- The names that a walk along names asks for in a group. -/
def FilesOn (h : Heap) (g : GroupId) (s : List String) (x : GroupId) (n : String) : Prop :=
  ∃ q r, s = q ++ n :: r ∧ h.follow g q = some x

/-- The items that a walk along names comes to before its last one. -/
def NestsOn (h : Heap) (g : GroupId) (s : List String) (i : ItemId) : Prop :=
  ∃ q n r, s = q ++ n :: r ∧ r ≠ [] ∧ h.itemBelow g q n = some i

theorem FilesOn.cons (hy : h.primaryAt g m = some y) (hx : h.FilesOn y s x n) :
    h.FilesOn g (m :: s) x n := by
  obtain ⟨q, r, rfl, hx⟩ := hx
  exact ⟨m :: q, r, rfl, Option.bind_eq_some_iff.2 ⟨y, hy, hx⟩⟩

theorem NestsOn.cons (hy : h.primaryAt g m = some y) (hi : h.NestsOn y s i) :
    h.NestsOn g (m :: s) i := by
  obtain ⟨q, n, r, rfl, hr, hi⟩ := hi
  exact ⟨m :: q, n, r, rfl, hr, by rw [itemBelow_cons, hy, Option.bind_some, hi]⟩

/-- One name of the walk, then the rest of it. -/
theorem ensurePath_cons (h : Heap) (g : GroupId) (head next : String) (rest : List String) :
    h.ensurePath g head (next :: rest) =
      ((h.ensureItem g head).2.ensureNested g (h.ensureItem g head).1 head).2.ensurePath
        ((h.ensureItem g head).2.ensureNested g (h.ensureItem g head).1 head).1 next rest :=
  rfl

/-- **Creating a path fills in its walk**, as the walk is afterwards, and the walk ends at the item
that is returned. -/
theorem filledIn_ensurePath (tail : List String) : ∀ {h : Heap} {g : GroupId} (head : String),
    h.ValuesInside → h.HasGroup g →
    FilledIn ((h.ensurePath g head tail).2.FilesOn g (head :: tail))
      ((h.ensurePath g head tail).2.NestsOn g (head :: tail)) h (h.ensurePath g head tail).2 ∧
    (h.ensurePath g head tail).2.WalkEnds g (head :: tail)
      (.found (h.ensurePath g head tail).1) := by
  induction tail with
  | nil =>
    intro h g head hin hg
    obtain ⟨hfill, -, hi⟩ := filledIn_ensureItem hin hg head
    refine ⟨hfill.mono ?_ fun _ hno => hno.elim, [], head, rfl, hi⟩
    rintro x n ⟨rfl, rfl⟩
    exact ⟨[], [], rfl, rfl⟩
  | cons next rest ih =>
    intro h g head hin hg
    obtain ⟨hfill₁, hin₁, hi⟩ := filledIn_ensureItem hin hg head
    rw [ensurePath_cons]
    generalize (h.ensureItem g head).1 = i at *
    generalize (h.ensureItem g head).2 = h₁ at *
    have hinside := hin₁.items g head i hi
    obtain ⟨hfill₂, hin₂, hy, hprimary⟩ := filledIn_ensureNested hin₁ hinside g head
    generalize (h₁.ensureNested g i head).1 = y at *
    generalize (h₁.ensureNested g i head).2 = h₂ at *
    obtain ⟨hfill₃, hends⟩ := ih next hin₂ hy
    generalize (h₂.ensurePath y next rest).1 = j at *
    generalize (h₂.ensurePath y next rest).2 = h' at *
    have hi₂ : (h₂.group g).items.find? head = some i := hfill₂.find? hi
    have hlead : h'.primaryAt g head = some y :=
      hfill₃.primaryAt hin₂ (primaryAt_eq_some_iff.2 ⟨i, hi₂, hprimary⟩)
    refine ⟨((hfill₁.mono ?_ fun _ hno => hno.elim).trans
      (hfill₂.mono (fun _ _ hno => hno.elim) ?_)).trans
      (hfill₃.mono (fun _ _ hx => hx.cons hlead) fun _ hj => hj.cons hlead), hends.cons hlead⟩
    · rintro x n ⟨rfl, rfl⟩
      exact ⟨[], next :: rest, rfl, rfl⟩
    · rintro _ rfl
      exact ⟨[], head, next :: rest, rfl, List.cons_ne_nil _ _, hfill₃.find? hi₂⟩

/-- A path that has its item is not created. -/
theorem ensurePath_of_found (tail : List String) : ∀ {g : GroupId} {head : String},
    h.locate g head tail = .found i → h.ensurePath g head tail = (i, h) := by
  induction tail with
  | nil =>
    intro g head hend
    rw [locate] at hend
    cases hi : (h.group g).items.find? head with
    | none =>
      rw [hi] at hend
      cases hend
    | some j =>
      rw [hi] at hend
      obtain rfl := Reached.found.inj hend
      exact ensureItem_of_find? hi
  | cons next rest ih =>
    intro g head hend
    rw [locate] at hend
    cases hi : (h.group g).items.find? head with
    | none =>
      rw [hi] at hend
      cases hend
    | some j =>
      cases hy : (h.item j).value.primary with
      | none =>
        simp only [hi, hy] at hend
        cases hend
      | some y =>
        simp only [hi, hy] at hend
        rw [ensurePath_cons, ensureItem_of_find? hi, ensureNested_of_primary hy]
        exact ih hend

/-! ### The rule -/

/-- An item that the group itself has is the one that is read. -/
theorem itemAt?_of_found (hl : h.Supers g l) (hi : h.locate g p.head p.tail = .found i) :
    h.itemAt? g p = some i := by
  rw [itemAt?, hl.superChain_eq]
  cases hl with
  | top | step => rw [resolveAlong, hi]

/-- What has come of creating a path from a group: the item that it leads to, and the heap. -/
structure Created (h : Heap) (g : GroupId) (p : Path) (i : ItemId) (h' : Heap) : Prop where
  /-- Looking the path up finds the item. -/
  found : h'.itemAt? g p = some i
  /-- Whatever leads to the path has an item, in the group itself. -/
  declares : ∀ s, s ≠ [] → s <+: p.segments → h'.Declares g s
  /-- A path that is there stays, for every group. -/
  keeps : ∀ x q, h.hasPath x q = true → h'.hasPath x q = true
  /-- Items are filed, and groups nested, on the walk along the path only. -/
  filled : FilledIn (h'.FilesOn g p.segments) (h'.NestsOn g p.segments) h h'
  /-- A group that the walk does not come to is as it was. -/
  others : ∀ x, h.HasGroup x →
    (∀ q n r, p.segments = q ++ n :: r → h'.follow g q ≠ some x) → h'.group x = h.group x

theorem created_ensurePath (hclosed : h.Closed) (hends : ∀ x, h.EndsAbove x) (hg : h.HasGroup g)
    (p : Path) : h.Created g p (h.ensurePath g p.head p.tail).1 (h.ensurePath g p.head p.tail).2 ∧
      (h.ensurePath g p.head p.tail).2.ensurePath g p.head p.tail =
        h.ensurePath g p.head p.tail := by
  obtain ⟨hfill, hend⟩ := filledIn_ensurePath p.tail p.head hclosed.valuesInside hg
  generalize h.ensurePath g p.head p.tail = r at *
  have hfound : r.2.locate g p.head p.tail = .found r.1 := walkEnds_iff.1 hend
  refine ⟨⟨?_, fun s hne hs => ?_, fun x q => hfill.hasPath hclosed.valuesInside (hends x),
    hfill, fun x hx hoff => ?_⟩, ensurePath_of_found p.tail hfound⟩
  · obtain ⟨l, hl⟩ := hends g
    exact itemAt?_of_found (hl.congr hfill.above) hfound
  · obtain ⟨q, n, heq, hi⟩ := hend
    exact Declares.of_isPrefix ⟨q, n, heq, Option.isSome_iff_exists.2 ⟨_, hi⟩⟩ hs hne
  · exact hfill.group_eq hx fun n ⟨q, r, heq, hx⟩ => hoff q n r heq hx

/-- **Creating a path.**  An input that is no path is refused, and the heap stays as it is.  A path
gets an item, and what comes of it is as it should be; to create it again finds that item and
changes nothing. -/
theorem reachItem_create (hclosed : h.Closed) (hends : ∀ x, h.EndsAbove x) (hg : h.HasGroup g)
    (input : PathInput) :
    (input.path? = none →
      h.reachItem g input true = .error (.invalidPath input.toValue) ∧
        h.perform (.reachItem g input true) = h) ∧
    ∀ p, input.path? = some p → ∃ i h',
      h.reachItem g input true = .ok (some i, h') ∧
        h'.reachItem g input false = .ok (some i, h') ∧
        h'.reachItem g input true = .ok (some i, h') ∧ h.Created g p i h' := by
  refine ⟨fun hp => ?_, fun p hp => ?_⟩
  · have herror : h.reachItem g input true = .error (.invalidPath input.toValue) := by
      rw [reachItem, parse_of_path?_eq_none hp]
      rfl
    refine ⟨herror, ?_⟩
    rw [perform, herror]
    rfl
  · obtain ⟨hcreated, hagain⟩ := created_ensurePath hclosed hends hg p
    refine ⟨_, _, reachItem_true_of_path? hp, ?_, ?_, hcreated⟩
    · rw [reachItem_false_of_path? hp, hcreated.found]
    · rw [reachItem_true_of_path? hp, hagain]

/-- A node that is nested in its own next item, below a base with an owner. -/
def ring : Heap where
  groups := #[
    { name := "node", above := some ⟨1⟩, nestedIn := some ⟨0⟩, items := .ofList [("next", ⟨0⟩)] },
    { name := "base", below := some (.ofList [⟨0⟩]), items := .ofList [("owner", ⟨1⟩)] }]
  items := #[
    { name := "next", owner := ⟨0⟩, value := { primary := some ⟨0⟩ } },
    { name := "owner", owner := ⟨1⟩ }]
  variants := #[.generic]

/-- Below the next of the next node is the node itself, which gets a label with a text.  The owner
is still inherited, and the base is as it was. -/
theorem reachItem_create_ring :
    let p : Path := ⟨"next", ["next", "label", "text"], by decide⟩
    ring.Closed ∧ (∀ x, ring.EndsAbove x) ∧ ring.HasGroup ⟨0⟩ ∧
      ∃ i h', ring.reachItem ⟨0⟩ (.text "next.next.label.text") true = .ok (some i, h') ∧
        h'.itemAt? ⟨0⟩ p = some i ∧ h'.Declares ⟨0⟩ ["next", "next", "label"] ∧
        h'.hasPath ⟨0⟩ ⟨"owner", [], by decide⟩ = true ∧ h'.group ⟨1⟩ = ring.group ⟨1⟩ := by
  intro p
  have hclosed : ring.Closed := by decide
  have hends : ∀ x, ring.EndsAbove x := by
    intro x
    by_cases hx : ring.HasGroup x
    · obtain ⟨k⟩ := x
      match k, hx with
      | 0, _ => exact ⟨_, .step rfl (.top rfl)⟩
      | 1, _ => exact endsAbove_of_top rfl
    · exact endsAbove_of_top (by rw [group_of_not_hasGroup hx])
  have hg : ring.HasGroup ⟨0⟩ := by decide
  obtain ⟨i, h', hreach, -, -, hcreated⟩ :=
    (reachItem_create hclosed hends hg (.text "next.next.label.text")).2 p (by decide)
  refine ⟨hclosed, hends, hg, i, h', hreach, hcreated.found, ?_, ?_, ?_⟩
  · exact hcreated.declares _ (List.cons_ne_nil _ _) ⟨["text"], rfl⟩
  · exact hcreated.keeps _ _ (by decide)
  · have heq : h' = (ring.ensurePath ⟨0⟩ p.head p.tail).2 :=
      (Prod.mk.inj (Except.ok.inj (hreach.symm.trans (reachItem_true_of_path? (by decide))))).2
    have hoff : ∀ q ∈ p.segments.inits, h'.follow ⟨0⟩ q ≠ some ⟨1⟩ := by
      rw [heq]
      decide
    exact hcreated.others ⟨1⟩ (by decide) fun q n r hq =>
      hoff q ((List.mem_inits _ _).2 ⟨n :: r, hq.symm⟩)

end AttributeGraph.Heap
