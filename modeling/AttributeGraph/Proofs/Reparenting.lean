/-
Inserting into a forest of groups.

Where every group is listed by its super group alone and the super groups come to
an end, the groups form a forest.  An insertion keeps it one as long as it neither
hangs a group below itself nor takes it from below another group
(`Forest.insertBelow`).  It lengthens chains and cuts none: the inserted group comes
between the receiver and the children that it takes over, so every group keeps its
former ancestors in their order (`exists_longer_chain`).

Paths are looked for along these chains and insertions move no item, so a path that
was known stays known.
-/
import AttributeGraph.Proofs.Inheritance
import AttributeGraph.Proofs.MutualLinks
import AttributeGraph.Proofs.Ownership

namespace AttributeGraph.Heap

variable {h h' : Heap} {relation : Hierarchy} {s g x y : GroupId} {l ls : List GroupId} {p : Path}

/-! ### Forests -/

/-- Super and sub links are each other's inverse, and following super groups comes to an end. -/
structure Forest (h : Heap) : Prop where
  listed : ∀ x, h.ListedAbove x
  ends : ∀ x, h.EndsAbove x

/-- Groups without links form a forest. -/
theorem NoLinks.forest (hnew : h.NoLinks) : h.Forest :=
  ⟨hnew.listedAbove, fun x => endsAbove_of_top (hnew x).1⟩

/-- A chain depends on the super groups of the groups that it meets only. -/
theorem Supers.congr_on (hl : h.Supers x l)
    (habove : ∀ y ∈ l, (h'.group y).above = (h.group y).above) : h'.Supers x l := by
  induction hl with
  | top htop => exact .top ((habove _ List.mem_cons_self).trans htop)
  | step hs _ ih =>
    refine .step ((habove _ List.mem_cons_self).trans hs) (ih ?_)
    intro y hy
    exact habove y (List.mem_cons_of_mem _ hy)

/-- No group of a chain lies directly below the group that the chain starts from. -/
theorem Supers.above_ne (hl : h.Supers x l) (hy : y ∈ l) : (h.group y).above ≠ some x := by
  intro hup
  obtain ⟨l', hl', hsuffix⟩ := hl.exists_suffix hy
  have heq : l' = y :: l := hl'.unique (.step hup hl)
  have hlen := hsuffix.length_le
  rw [heq, List.length_cons] at hlen
  omega

/-! ### Chains after an insertion -/

section Insertion

variable (hforest : h.Forest) (hs : h.HasGroup s) (hg : h.HasGroup g) (hne : g ≠ s)

include hforest hs hg hne

/-- The chain of the receiver stays as it is. -/
theorem supers_receiver (hls : h.Supers s ls) (hgs : g ∉ ls) :
    (h.insertBelow relation s g).Supers s ls := by
  refine hls.congr_on ?_
  intro y hy
  have hyg : y ≠ g := by
    intro heq
    exact hgs (heq ▸ hy)
  have hchild : y ∉ (h.group s).subs := by
    intro hmem
    exact hls.above_ne hy ((hforest.listed y s).1 hmem)
  rw [above_insertBelow hs hg hne, if_neg hyg, if_neg fun hmoved => hchild hmoved.1]

/-- **Every chain has one that takes its place and holds all of its groups**, in the same order. -/
theorem exists_longer_chain (hls : h.Supers s ls) (hgs : g ∉ ls)
    (hup : ∀ t, (h.group g).above = some t → t = s) (hl : h.Supers x l) :
    ∃ l', (h.insertBelow relation s g).Supers x l' ∧ l.Sublist l' := by
  have hreceiver : (h.insertBelow relation s g).Supers s ls :=
    supers_receiver hforest hs hg hne hls hgs
  have hinserted : (h.insertBelow relation s g).Supers g (g :: ls) :=
    .step (by rw [above_insertBelow hs hg hne, if_pos rfl]) hreceiver
  induction hl with
  | @top x htop =>
    by_cases hx : x = g
    · subst hx
      exact ⟨_, hinserted, by simp⟩
    · have hchild : x ∉ (h.group s).subs := by
        intro hmem
        have hup' := (hforest.listed x s).1 hmem
        rw [htop] at hup'
        cases hup'
      refine ⟨[x], .top ?_, List.Sublist.refl _⟩
      rw [above_insertBelow hs hg hne, if_neg hx, if_neg fun hmoved => hchild hmoved.1, htop]
  | @step x y l hy hl ih =>
    by_cases hx : x = g
    · subst hx
      obtain rfl := hup y hy
      obtain rfl := hl.unique hls
      exact ⟨_, hinserted, List.Sublist.refl _⟩
    · by_cases hmoved : x ∈ (h.group s).subs ∧ h.derivesFrom relation g x = true
      · -- the chain of a child that is taken over has the inserted group in addition
        have hys : y = s := by
          have hup' := (hforest.listed x s).1 hmoved.1
          rw [hy] at hup'
          exact Option.some.inj hup'
        subst hys
        obtain rfl := hl.unique hls
        refine ⟨_, .step ?_ hinserted, (List.sublist_cons_self g l).cons_cons x⟩
        rw [above_insertBelow hs hg hne, if_neg hx, if_pos hmoved]
      · obtain ⟨l', hl', hsub⟩ := ih
        refine ⟨x :: l', .step ?_ hl', hsub.cons_cons x⟩
        rw [above_insertBelow hs hg hne, if_neg hx, if_neg hmoved, hy]

/-- **An insertion keeps a forest a forest** unless the group is above the receiver or below another
group. -/
theorem Forest.insertBelow (hgs : g ∉ h.superChain s)
    (hup : ∀ t, (h.group g).above = some t → t = s) : (h.insertBelow relation s g).Forest := by
  obtain ⟨ls, hls⟩ := hforest.ends s
  rw [hls.superChain_eq] at hgs
  constructor
  · intro x
    refine (listedAbove_insert_iff (c := ⟨s, g, relation⟩) (hforest.listed x) ⟨hs, hg⟩).2 ?_
    intro _ hmoves
    obtain ⟨-, old, hold, hother⟩ := hmoves
    exact hother (hup old hold)
  · intro x
    obtain ⟨l, hl⟩ := hforest.ends x
    obtain ⟨l', hl', -⟩ := exists_longer_chain hforest hs hg hne hls hgs hup hl
    exact ⟨l', hl'⟩

end Insertion

/-! ### Paths after an insertion -/

/-- An insertion leaves the items of groups, and what is nested in them, alone. -/
theorem items_insertBelow (h : Heap) (relation : Hierarchy) (s g : GroupId) :
    (∀ x, ((h.insertBelow relation s g).group x).items = (h.group x).items) ∧
      ∀ i, (h.insertBelow relation s g).item i = h.item i := by
  refine keeps_insertBelow (P := fun b => (∀ x, (b.group x).items = (h.group x).items) ∧
    ∀ i, b.item i = h.item i) ?_ relation s g ⟨fun _ => rfl, fun _ => rfl⟩
  intro b z f hf hb
  refine ⟨fun x => ?_, hb.2⟩
  have hitems : ∀ x, (f x).items = x.items := by
    intro x
    obtain ⟨above, below, heq⟩ := hf x
    rw [heq]
  rw [group_alterGroup_field Group.items hitems, hb.1]

/-- Walks along paths depend on the items of groups and on what is nested in them only. -/
theorem locate_congr (hitems : ∀ x, (h'.group x).items = (h.group x).items)
    (hitem : ∀ i, h'.item i = h.item i) (tail : List String) :
    ∀ (x : GroupId) (head : String), h'.locate x head tail = h.locate x head tail := by
  induction tail with
  | nil =>
    intro x head
    rw [locate, locate, hitems]
  | cons next rest ih =>
    intro x head
    simp only [locate, hitems, hitem, ih]

/-- A path that is known along a chain is known along every chain that holds its groups. -/
theorem hasPath_of_subset {l' : List GroupId} (hl : h.Supers x l) (hl' : h'.Supers x l')
    (hsub : l ⊆ l') (hlocate : ∀ y, h'.locate y p.head p.tail = h.locate y p.head p.tail)
    (hp : h.hasPath x p = true) : h'.hasPath x p = true := by
  rw [hasPath, hl.superChain_eq, containsAlong_iff] at hp
  rw [hasPath, hl'.superChain_eq, containsAlong_iff]
  obtain ⟨y, hy, i, hi⟩ := hp
  exact ⟨y, hsub hy, i, (hlocate y).trans hi⟩

/-! ### What an insertion does -/

/-- **What an insertion does to a forest.**  The group goes below the receiver, and below it go the
children of the receiver whose types the hierarchy assigns to its own; no other super group changes.
The result is a forest again, all former ancestors stay, and with them every path that was known. -/
theorem insertBelow_in_forest (relation : Hierarchy) (hforest : h.Forest) (hs : h.HasGroup s)
    (hg : h.HasGroup g) (hne : g ≠ s) (hgs : g ∉ h.superChain s)
    (hup : (h.group g).above = none ∨ (h.group g).above = some s) :
    (h.insertBelow relation s g).Forest ∧
    ((h.insertBelow relation s g).group g).above = some s ∧
    (∀ c ∈ (h.group s).subs, c ≠ g →
      (((h.insertBelow relation s g).group c).above = some g ↔
        ∃ t u, (h.group g).type = some t ∧ (h.group c).type = some u ∧
          relation.subsumes t u = true)) ∧
    (∀ x, x ≠ g → ((h.insertBelow relation s g).group x).above = (h.group x).above ∨
      x ∈ (h.group s).subs ∧ ((h.insertBelow relation s g).group x).above = some g) ∧
    (∀ x, (h.superChain x).Sublist ((h.insertBelow relation s g).superChain x)) ∧
    ∀ x p, h.hasPath x p = true → (h.insertBelow relation s g).hasPath x p = true := by
  have hup' : ∀ t, (h.group g).above = some t → t = s := by
    intro t ht
    rcases hup with hnone | hsome
    · rw [hnone] at ht
      cases ht
    · exact (Option.some.inj (hsome.symm.trans ht)).symm
  obtain ⟨ls, hls⟩ := hforest.ends s
  have hgls : g ∉ ls := hls.superChain_eq ▸ hgs
  have hlonger : ∀ x, ∃ l l', h.Supers x l ∧ (h.insertBelow relation s g).Supers x l' ∧
      l.Sublist l' := by
    intro x
    obtain ⟨l, hl⟩ := hforest.ends x
    obtain ⟨l', hl', hsub⟩ := exists_longer_chain hforest hs hg hne hls hgls hup' hl
    exact ⟨l, l', hl, hl', hsub⟩
  refine ⟨hforest.insertBelow hs hg hne hgs hup', ?_, ?_, ?_, ?_, ?_⟩
  · rw [above_insertBelow hs hg hne, if_pos rfl]
  · intro c hc hcg
    have hold : (h.group c).above ≠ some g := by
      intro hcg'
      have hcs := (hforest.listed c s).1 hc
      rw [hcg'] at hcs
      exact hne (Option.some.inj hcs)
    have hderives : h.derivesFrom relation g c = true ↔ ∃ t u, (h.group g).type = some t ∧
        (h.group c).type = some u ∧ relation.subsumes t u = true := by
      simp only [derivesFrom_iff, ne_eq, hcg, not_false_eq_true, true_and]
    rw [above_insertBelow hs hg hne, if_neg hcg, ← hderives]
    by_cases hmoved : h.derivesFrom relation g c = true
    · simp [hc, hmoved]
    · simp [hmoved, hold]
  · intro x hx
    rw [above_insertBelow hs hg hne, if_neg hx]
    by_cases hmoved : x ∈ (h.group s).subs ∧ h.derivesFrom relation g x = true
    · rw [if_pos hmoved]
      exact Or.inr ⟨hmoved.1, rfl⟩
    · rw [if_neg hmoved]
      exact Or.inl rfl
  · intro x
    obtain ⟨l, l', hl, hl', hsub⟩ := hlonger x
    rw [hl.superChain_eq, hl'.superChain_eq]
    exact hsub
  · intro x p hp
    obtain ⟨l, l', hl, hl', hsub⟩ := hlonger x
    obtain ⟨hitems, hitem⟩ := items_insertBelow h relation s g
    refine hasPath_of_subset hl hl' hsub.subset ?_ hp
    intro y
    exact locate_congr hitems hitem p.tail y p.head

/-- A party with a date, and employees and guests that may take part in it. -/
def gathering : Heap :=
  let party := ObjectType.root "Party" "Party"
  let manager := ObjectType.sub "Manager" "Manager" party
  { groups := #[
      { name := "party", type := some party, items := .ofList [("date", ⟨0⟩)] },
      { name := "employee", type := some (.sub "Employee" "Employee" manager) },
      { name := "guest", type := some (.sub "Guest" "Guest" party) },
      { name := "manager", type := some manager }]
    items := #[{ name := "date", owner := ⟨0⟩ }]
    variants := #[.generic] }

/-- The employees and the guests below the party. -/
def attendance : Heap :=
  (gathering.insertBelow .lineage ⟨0⟩ ⟨1⟩).insertBelow .lineage ⟨0⟩ ⟨2⟩

theorem forest_attendance : attendance.Forest := by
  have hnew : gathering.NoLinks :=
    forall_group (P := fun x => x.above = none ∧ x.subs = []) ⟨rfl, rfl⟩
      (by decide : ∀ g ∈ gathering.groupIds,
        (gathering.group g).above = none ∧ (gathering.group g).subs = [])
  have hfirst : (gathering.insertBelow .lineage ⟨0⟩ ⟨1⟩).Forest :=
    hnew.forest.insertBelow (by decide) (by decide) (by decide) (by decide) (by simp [hnew ⟨1⟩])
  refine hfirst.insertBelow (by decide) (by decide) (by decide) (by decide) ?_
  intro t ht
  cases ht

/-- The managers come between the party and the employees, who still know the date; the guests stay
where they are. -/
theorem insertBelow_in_forest_attendance :
    let after := attendance.insertBelow .lineage ⟨0⟩ ⟨3⟩
    attendance.Forest ∧ ⟨3⟩ ∉ attendance.superChain ⟨0⟩ ∧
      (attendance.group ⟨3⟩).above = none ∧ after.Forest ∧
      (after.group ⟨1⟩).above = some ⟨3⟩ ∧ (after.group ⟨2⟩).above = some ⟨0⟩ ∧
      after.hasPath ⟨1⟩ ⟨"date", [], by decide⟩ = true := by
  intro after
  obtain ⟨hafter, -, hmoved, hkept, -, hpaths⟩ :=
    insertBelow_in_forest .lineage forest_attendance (s := ⟨0⟩) (g := ⟨3⟩) (by decide) (by decide)
      (by decide) (by decide) (.inl rfl)
  refine ⟨forest_attendance, by decide, rfl, hafter, ?_, ?_, hpaths _ _ (by decide)⟩
  · exact (hmoved ⟨1⟩ (by decide) (by decide)).2 ⟨_, _, rfl, rfl, by decide⟩
  · refine (hkept ⟨2⟩ (by decide)).resolve_right ?_
    intro hguest
    obtain ⟨t, u, ht, hu, hassigned⟩ := (hmoved ⟨2⟩ (by decide) (by decide)).1 hguest.2
    cases ht
    cases hu
    exact absurd hassigned (by decide)

end AttributeGraph.Heap
