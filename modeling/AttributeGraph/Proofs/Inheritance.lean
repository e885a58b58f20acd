/-
Reading through super groups.

`Supers` says which groups a reader meets that falls back from a group to its
super group, and that there is an end to them.  Such a chain has no group twice,
so the bound and the guard of a climb do not stop it
(`Supers.superChain_eq`), and every reader is a search along the chain.

The readers do not stop at the same group.  Looking for an item ends where a group
declares the beginning of the path and nests nothing there; asking whether the
path is known, or for the nested group, goes on to the groups above.  Such a group
shadows a path that some group above it resolves, and this is the only case in
which the readers disagree (`readers_agree_iff`).
-/
import AttributeGraph.Heap.Lookup
import AttributeGraph.Proofs.Describing

namespace AttributeGraph.Heap

variable {h : Heap} {g s x : GroupId} {l : List GroupId} {p : Path}

/-! ### Chains of super groups -/

/-- A group and the groups above it, nearest first, up to one without a super group. -/
inductive Supers (h : Heap) : GroupId → List GroupId → Prop
  | top {g : GroupId} (hg : (h.group g).above = none) : Supers h g [g]
  | step {g s : GroupId} {l : List GroupId} (hs : (h.group g).above = some s)
      (hl : Supers h s l) : Supers h g (g :: l)

/-- Climbing from super group to super group comes to an end. -/
def EndsAbove (h : Heap) (g : GroupId) : Prop := ∃ l, h.Supers g l

theorem endsAbove_of_top (hg : (h.group g).above = none) : h.EndsAbove g := ⟨[g], .top hg⟩

theorem endsAbove_iff (hs : (h.group g).above = some s) : h.EndsAbove g ↔ h.EndsAbove s := by
  constructor
  · rintro ⟨l, hl⟩
    cases hl with
    | top hg => exact absurd (hg.symm.trans hs) (Option.some_ne_none s).symm
    | step hs' hl =>
      obtain rfl := Option.some.inj (hs.symm.trans hs')
      exact ⟨_, hl⟩
  · rintro ⟨l, hl⟩
    exact ⟨g :: l, .step hs hl⟩

/-- Climbing comes to an end where every super group is an earlier one. -/
theorem endsAbove_of_earlier (h : Heap)
    (hearlier : ∀ x ∈ h.groupIds, ∀ s ∈ (h.group x).above, s.index < x.index) :
    h.EndsAbove g := by
  induction hn : g.index using Nat.strongRecOn generalizing g with
  | _ n ih =>
    cases hs : (h.group g).above with
    | none => exact endsAbove_of_top hs
    | some s =>
      have hg : h.HasGroup g := by
        by_contra hno
        rw [group_of_not_hasGroup hno] at hs
        cases hs
      exact (endsAbove_iff hs).2 (ih s.index (hn ▸ hearlier g (mem_groupIds.2 hg) s hs) rfl)

namespace Supers

/-- A group has one chain. -/
theorem unique (hl : h.Supers g l) : ∀ {l'}, h.Supers g l' → l = l' := by
  induction hl with
  | top hg =>
    intro l' hl'
    cases hl' with
    | top => rfl
    | step hs => exact absurd (hg.symm.trans hs) (Option.some_ne_none _).symm
  | step hs _ ih =>
    intro l' hl'
    cases hl' with
    | top hg => exact absurd (hg.symm.trans hs) (Option.some_ne_none _).symm
    | step hs' hl' =>
      obtain rfl := Option.some.inj (hs.symm.trans hs')
      rw [ih hl']

/-- A chain depends on the super groups only. -/
theorem congr {h' : Heap} (habove : ∀ x, (h'.group x).above = (h.group x).above)
    (hl : h.Supers g l) : h'.Supers g l := by
  induction hl with
  | top hg => exact .top ((habove _).trans hg)
  | step hs _ ih => exact .step ((habove _).trans hs) ih

/-- The chain of a group that is met is the rest of the chain from there. -/
theorem exists_suffix (hl : h.Supers g l) (hx : x ∈ l) : ∃ l', h.Supers x l' ∧ l' <:+ l := by
  induction hl with
  | top hg =>
    obtain rfl := List.mem_singleton.1 hx
    exact ⟨_, .top hg, List.suffix_rfl⟩
  | step hs hl ih =>
    rcases List.mem_cons.1 hx with rfl | hx
    · exact ⟨_, .step hs hl, List.suffix_rfl⟩
    · obtain ⟨l', hl', hsuffix⟩ := ih hx
      exact ⟨l', hl', hsuffix.trans (List.suffix_cons _ _)⟩

/-- **A chain that ends meets no group twice**: from its second place the chain would be shorter
than from the first. -/
theorem nodup (hl : h.Supers g l) : l.Nodup := by
  induction hl with
  | top => exact List.nodup_singleton _
  | step hs hl ih =>
    refine List.nodup_cons.2 ⟨fun hmem => ?_, ih⟩
    obtain ⟨l', hl', hsuffix⟩ := hl.exists_suffix hmem
    rw [hl'.unique (.step hs hl)] at hsuffix
    exact Nat.not_succ_le_self _ hsuffix.length_le

theorem ne_nil (hl : h.Supers g l) : l ≠ [] := by
  cases hl <;> exact List.cons_ne_nil _ _

/-- Only the last group of a chain may lie outside of the heap. -/
theorem hasGroup_of_mem_dropLast (hl : h.Supers g l) (hx : x ∈ l.dropLast) : h.HasGroup x := by
  induction hl with
  | top => exact absurd hx List.not_mem_nil
  | step hs hl ih =>
    rw [List.dropLast_cons_of_ne_nil hl.ne_nil, List.mem_cons] at hx
    rcases hx with rfl | hx
    · by_contra hno
      rw [group_of_not_hasGroup hno] at hs
      cases hs
    · exact ih hx

theorem length_le (hl : h.Supers g l) : l.length ≤ h.groups.size + 1 := by
  have hle := length_le_of_nodup (hl.nodup.sublist l.dropLast_sublist)
    fun x hx => hl.hasGroup_of_mem_dropLast hx
  rw [List.length_dropLast] at hle
  omega

/-- A climb with steps to spare that has seen nothing of the chain takes all of it. -/
theorem climbSupers_eq (hl : h.Supers g l) : ∀ {fuel seen}, l.length ≤ fuel →
    (∀ x ∈ l, x ∉ seen) → h.climbSupers fuel seen g = l := by
  induction hl with
  | top hg =>
    intro fuel seen hfuel hseen
    obtain ⟨fuel, rfl⟩ := Nat.exists_eq_add_of_le' hfuel
    rw [List.length_singleton, climbSupers, if_neg (hseen _ List.mem_cons_self), hg]
  | @step g s l hs hl ih =>
    intro fuel seen hfuel hseen
    obtain ⟨fuel, rfl⟩ := Nat.exists_eq_add_of_le' (Nat.le_trans (Nat.le_add_left 1 l.length) hfuel)
    rw [climbSupers, if_neg (hseen _ List.mem_cons_self), hs]
    simp only [List.cons.injEq, true_and]
    refine ih (Nat.le_of_succ_le_succ hfuel) fun x hx hmem => ?_
    rcases List.mem_cons.1 hmem with rfl | hmem
    · exact (List.nodup_cons.1 (Supers.step hs hl).nodup).1 hx
    · exact hseen x (List.mem_cons_of_mem _ hx) hmem

/-- **The climb for inherited attributes takes the whole chain.** -/
theorem superChain_eq (hl : h.Supers g l) : h.superChain g = l :=
  hl.climbSupers_eq (Nat.le_succ_of_le hl.length_le) fun _ _ => List.not_mem_nil

/-- Where related groups have related super groups, related groups have related chains. -/
theorem exists_related {h' : Heap} {R : GroupId → GroupId → Prop}
    (habove : ∀ x z, R x z → Option.Rel R (h.group x).above (h'.group z).above)
    (hl : h.Supers g l) {z : GroupId} (hz : R g z) :
    ∃ l', h'.Supers z l' ∧ List.Forall₂ R l l' := by
  induction hl generalizing z with
  | top htop =>
    have hrel := habove _ z hz
    rw [htop] at hrel
    exact ⟨[z], .top (rel_none_iff.1 (rel_swap hrel)), .cons hz .nil⟩
  | step hs _ ih =>
    have hrel := habove _ z hz
    rw [hs] at hrel
    obtain ⟨t, ht, hst⟩ := exists_left_of_rel (rel_swap hrel) rfl
    obtain ⟨l', hl', hall⟩ := ih hst
    exact ⟨z :: l', .step ht hl', .cons hz hall⟩

end Supers

theorem endsAbove_congr {h' : Heap} (habove : ∀ x, (h'.group x).above = (h.group x).above)
    (g : GroupId) : h'.EndsAbove g ↔ h.EndsAbove g :=
  exists_congr fun _ => ⟨fun hl => hl.congr fun x => (habove x).symm, fun hl => hl.congr habove⟩

/-! ### Searching along a chain -/

/-- An item is found where the first group is that does not lack one. -/
theorem resolveAlong_eq_some_iff {i : ItemId} :
    h.resolveAlong p l = some i ↔ ∃ before x above, l = before ++ x :: above ∧
      (∀ y ∈ before, h.locate y p.head p.tail = .missing) ∧
      h.locate x p.head p.tail = .found i := by
  induction l with
  | nil => simp [resolveAlong]
  | cons g l ih =>
    rw [resolveAlong]
    constructor
    · intro hi
      cases hg : h.locate g p.head p.tail with
      | found j =>
        rw [hg] at hi
        obtain rfl := Option.some.inj hi
        exact ⟨[], g, l, rfl, fun y hy => absurd hy List.not_mem_nil, hg⟩
      | blocked =>
        rw [hg] at hi
        cases hi
      | missing =>
        rw [hg] at hi
        obtain ⟨before, x, above, rfl, hbefore, hx⟩ := ih.1 hi
        exact ⟨g :: before, x, above, rfl, List.forall_mem_cons.2 ⟨hg, hbefore⟩, hx⟩
    · rintro ⟨before, x, above, heq, hbefore, hx⟩
      cases before with
      | nil =>
        obtain ⟨rfl, -⟩ := List.cons.inj heq
        rw [hx]
      | cons y before =>
        obtain ⟨rfl, rfl⟩ := List.cons.inj heq
        obtain ⟨hg, hbefore⟩ := List.forall_mem_cons.1 hbefore
        rw [hg]
        exact ih.2 ⟨before, x, above, rfl, hbefore, hx⟩

/-- A path is known where some group of the chain has its item. -/
theorem containsAlong_iff :
    h.containsAlong p l = true ↔ ∃ x ∈ l, ∃ i, h.locate x p.head p.tail = .found i := by
  induction l with
  | nil => simp [containsAlong]
  | cons g l ih =>
    rw [containsAlong, Bool.or_eq_true, ih]
    constructor
    · rintro (hsome | ⟨x, hx, hi⟩)
      · obtain ⟨i, hi⟩ := Option.isSome_iff_exists.1 hsome
        obtain ⟨before, x, above, heq, -, hx⟩ := resolveAlong_eq_some_iff.1 hi
        exact ⟨x, heq ▸ List.mem_append_right _ List.mem_cons_self, i, hx⟩
      · exact ⟨x, List.mem_cons_of_mem g hx, hi⟩
    · rintro ⟨x, hx, i, hi⟩
      rcases List.mem_cons.1 hx with rfl | hx
      · exact .inl (Option.isSome_iff_exists.2 ⟨i, resolveAlong_eq_some_iff.2
          ⟨[], x, l, rfl, fun y hy => absurd hy List.not_mem_nil, hi⟩⟩)
      · exact .inr ⟨x, hx, i, hi⟩

theorem groupAlong_of_resolveAlong {i : ItemId} (hi : h.resolveAlong p l = some i) :
    h.groupAlong p l = (h.item i).value.primary := by
  cases l with
  | nil => cases hi
  | cons g l => rw [groupAlong, hi]

theorem groupAlong_eq_none (hno : h.containsAlong p l = false) : h.groupAlong p l = none := by
  induction l with
  | nil => rfl
  | cons g l ih =>
    rw [containsAlong, Bool.or_eq_false_iff, Option.isSome_eq_false_iff, Option.isNone_iff_eq_none]
      at hno
    rw [groupAlong, hno.1]
    exact ih hno.2

/-! ### Where the readers agree -/

/-- The nearest group of a chain that has the beginning of a path nests nothing there, while a
group further up has the item of the path. -/
def Shadowed (h : Heap) (p : Path) (chain : List GroupId) : Prop :=
  ∃ before x above, chain = before ++ x :: above ∧
    (∀ y ∈ before, h.locate y p.head p.tail = .missing) ∧
    h.locate x p.head p.tail = .blocked ∧
    ∃ y ∈ above, ∃ i, h.locate y p.head p.tail = .found i

theorem shadowed_cons_iff : h.Shadowed p (g :: l) ↔
    (h.locate g p.head p.tail = .blocked ∧ ∃ y ∈ l, ∃ i, h.locate y p.head p.tail = .found i) ∨
    (h.locate g p.head p.tail = .missing ∧ h.Shadowed p l) := by
  constructor
  · rintro ⟨before, x, above, heq, hbefore, hx, hfound⟩
    cases before with
    | nil =>
      obtain ⟨rfl, rfl⟩ := List.cons.inj heq
      exact .inl ⟨hx, hfound⟩
    | cons y before =>
      obtain ⟨rfl, rfl⟩ := List.cons.inj heq
      obtain ⟨hg, hbefore⟩ := List.forall_mem_cons.1 hbefore
      exact .inr ⟨hg, before, x, above, rfl, hbefore, hx, hfound⟩
  · rintro (⟨hg, hfound⟩ | ⟨hg, before, x, above, rfl, hbefore, hx, hfound⟩)
    · exact ⟨[], g, l, rfl, fun y hy => absurd hy List.not_mem_nil, hg, hfound⟩
    · exact ⟨g :: before, x, above, rfl, List.forall_mem_cons.2 ⟨hg, hbefore⟩, hx, hfound⟩

/-- A path is shadowed where some group has its item and the search for it fails. -/
theorem shadowed_iff :
    h.Shadowed p l ↔ h.containsAlong p l = true ∧ h.resolveAlong p l = none := by
  induction l with
  | nil => simp [Shadowed, containsAlong]
  | cons g l ih =>
    rw [shadowed_cons_iff, ih, containsAlong_iff, containsAlong_iff, resolveAlong]
    cases hg : h.locate g p.head p.tail <;> simp [hg]

/-- **The readers agree unless the path is shadowed.**  That a path is known exactly if it has an
item, and that its nested group is the one of that item, holds of the paths that are not shadowed
along the chain, and of no other ones. -/
theorem readers_agree_iff (hl : h.Supers g l) (p : Path) :
    ((h.hasPath g p = true ↔ (h.itemAt? g p).isSome = true) ∧
      h.nestedAt? g p = (h.itemAt? g p).bind fun i => (h.item i).value.primary) ↔
    ¬ h.Shadowed p l := by
  rw [hasPath, itemAt?, nestedAt?, hl.superChain_eq, shadowed_iff]
  cases hi : h.resolveAlong p l with
  | some i =>
    obtain ⟨before, x, above, rfl, -, hx⟩ := resolveAlong_eq_some_iff.1 hi
    have hknown : h.containsAlong p (before ++ x :: above) = true :=
      containsAlong_iff.2 ⟨x, List.mem_append_right _ List.mem_cons_self, i, hx⟩
    simp [hknown, groupAlong_of_resolveAlong hi]
  | none =>
    cases hknown : h.containsAlong p l with
    | true => simp
    | false => simp [groupAlong_eq_none hknown]

/-- A derived group that declares the home of its super group anew, without a city. -/
def homes : Heap where
  groups := #[
    { name := "base", below := some (.ofList [⟨3⟩])
      items := .ofList [("home", ⟨0⟩), ("rank", ⟨1⟩)] },
    { name := "home", nestedIn := some ⟨0⟩, items := .ofList [("city", ⟨2⟩)] },
    { name := "city", nestedIn := some ⟨2⟩, items := .ofList [("zip", ⟨3⟩)] },
    { name := "derived", above := some ⟨0⟩, items := .ofList [("home", ⟨4⟩)] }]
  items := #[
    { name := "home", owner := ⟨0⟩, value := { primary := some ⟨1⟩ } },
    { name := "rank", owner := ⟨0⟩ },
    { name := "city", owner := ⟨1⟩, value := { primary := some ⟨2⟩ } },
    { name := "zip", owner := ⟨2⟩ },
    { name := "home", owner := ⟨3⟩ }]
  variants := #[.generic]

theorem supers_homes : homes.Supers ⟨3⟩ [⟨3⟩, ⟨0⟩] := .step rfl (.top rfl)

/-- The rank is inherited, and nothing is in its way. -/
theorem readers_agree_iff_homes :
    let p : Path := ⟨"rank", [], by decide⟩
    ((homes.hasPath ⟨3⟩ p = true ↔ (homes.itemAt? ⟨3⟩ p).isSome = true) ∧
      homes.nestedAt? ⟨3⟩ p =
        (homes.itemAt? ⟨3⟩ p).bind fun i => (homes.item i).value.primary) ∧
    homes.itemAt? ⟨3⟩ p = some ⟨1⟩ := by
  refine ⟨(readers_agree_iff supers_homes _).2 ?_, rfl⟩
  rw [shadowed_iff]
  exact fun hshadowed => Option.some_ne_none _ hshadowed.2

/-- **The city of the home is shadowed**: it is known, its group is that of the super group, and
yet it has no item. -/
theorem readers_disagree :
    let p : Path := ⟨"home", ["city"], by decide⟩
    homes.EndsAbove ⟨3⟩ ∧ homes.hasPath ⟨3⟩ p = true ∧ homes.itemAt? ⟨3⟩ p = none ∧
      homes.nestedAt? ⟨3⟩ p = some ⟨2⟩ :=
  ⟨⟨_, supers_homes⟩, rfl, rfl, rfl⟩

end AttributeGraph.Heap
