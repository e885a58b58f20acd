/-
Reading a path level by level.

The levels of a read are a group and its super groups.  At each of them the path is
walked through the items of one group and of the groups nested in it, and the walk
ends in one of three ways.  `WalkEnds` says which, by the names that lead to where
it ends: at the item of the last name, before a name that is missing, or at an item
that nests nothing though the path goes on.  Every walk ends in exactly one way
(`walkEnds_iff`).

The readers look for different levels.  To have the path, some level must be found;
the nested group comes from the first level that is; the item comes from the first
level that is not missing, if that one is found (`read_by_levels`).
-/
import AttributeGraph.Proofs.Inheritance
import AttributeGraph.Proofs.PathReaders

namespace AttributeGraph.Heap

variable {h : Heap} {g x y : GroupId} {l : List GroupId} {p : Path} {i : ItemId} {m n : String}
  {q s rest : List String} {r : Reached}

/-! ### Where a walk ends -/

/-- A walk along names ends at the item of the last one, or before a name that is missing in the
group that the names before it lead to, or at an item before the last one that nests no group. -/
def WalkEnds (h : Heap) (g : GroupId) (s : List String) : Reached → Prop
  | .found i => ∃ q n, s = q ++ [n] ∧ h.itemBelow g q n = some i
  | .missing => ∃ q n rest x, s = q ++ n :: rest ∧ h.follow g q = some x ∧
      (h.group x).items.find? n = none
  | .blocked => ∃ q n rest i, s = q ++ n :: rest ∧ rest ≠ [] ∧ h.itemBelow g q n = some i ∧
      (h.item i).value.primary = none

/-- A walk ends where it ends from the nested group that the first name leads to. -/
theorem WalkEnds.cons (hy : h.primaryAt g m = some y) (hr : h.WalkEnds y s r) :
    h.WalkEnds g (m :: s) r := by
  cases r with
  | found i =>
    obtain ⟨q, n, rfl, hi⟩ := hr
    exact ⟨m :: q, n, rfl, by rw [itemBelow_cons, hy, Option.bind_some, hi]⟩
  | missing =>
    obtain ⟨q, n, rest, x, rfl, hx, hn⟩ := hr
    exact ⟨m :: q, n, rest, x, rfl, by rw [follow, hy, Option.bind_some, hx], hn⟩
  | blocked =>
    obtain ⟨q, n, rest, i, rfl, hne, hi, hbare⟩ := hr
    exact ⟨m :: q, n, rest, i, rfl, hne, by rw [itemBelow_cons, hy, Option.bind_some, hi], hbare⟩

/-- Every walk ends in the way that it is located. -/
theorem walkEnds_locate (tail : List String) : ∀ (g : GroupId) (head : String),
    h.WalkEnds g (head :: tail) (h.locate g head tail) := by
  induction tail with
  | nil =>
    intro g head
    rw [locate]
    cases hi : (h.group g).items.find? head with
    | none => exact ⟨[], head, [], g, rfl, rfl, hi⟩
    | some i => exact ⟨[], head, rfl, hi⟩
  | cons next rest ih =>
    intro g head
    rw [locate]
    cases hi : (h.group g).items.find? head with
    | none => exact ⟨[], head, next :: rest, g, rfl, rfl, hi⟩
    | some i =>
      cases hy : (h.item i).value.primary with
      | none => simpa [hy] using ⟨[], head, next :: rest, i, rfl, List.cons_ne_nil _ _, hi, hy⟩
      | some y =>
        have hlead : h.primaryAt g head = some y := primaryAt_eq_some_iff.2 ⟨i, hi, hy⟩
        simpa [hy] using (ih y next).cons hlead

/-- Where names lead to a group, a walk along them goes on from that group. -/
theorem locate_of_follow (q : List String) : ∀ {g : GroupId} {head : String} {tail : List String},
    head :: tail = q ++ n :: rest → h.follow g q = some x →
    h.locate g head tail = h.locate x n rest := by
  induction q with
  | nil =>
    intro g head tail heq hx
    obtain ⟨rfl, rfl⟩ := List.cons.inj heq
    obtain rfl := Option.some.inj hx
    rfl
  | cons m q ih =>
    intro g head tail heq hx
    obtain ⟨rfl, htail⟩ := List.cons.inj heq
    obtain ⟨y, hy, hx⟩ := Option.bind_eq_some_iff.1 hx
    obtain ⟨i, hi, hy⟩ := primaryAt_eq_some_iff.1 hy
    cases tail with
    | nil => simp at htail
    | cons next tail =>
      rw [locate, hi]
      simp only [hy]
      exact ih htail hx

/-- **A walk ends in exactly one way**, the one that it is located to. -/
theorem walkEnds_iff : h.WalkEnds g p.segments r ↔ h.locate g p.head p.tail = r := by
  constructor
  · intro hr
    cases r with
    | found i =>
      obtain ⟨q, n, heq, hi⟩ := hr
      exact (locate_eq_found_iff p.tail heq).2 hi
    | missing =>
      obtain ⟨q, n, rest, x, heq, hx, hn⟩ := hr
      rw [locate_of_follow q heq hx]
      cases rest <;> simp [locate, hn]
    | blocked =>
      obtain ⟨q, n, rest, i, heq, hne, hi, hbare⟩ := hr
      obtain ⟨x, hx, hi⟩ := itemBelow_eq_some_iff.1 hi
      obtain ⟨next, rest, rfl⟩ := List.exists_cons_of_ne_nil hne
      rw [locate_of_follow q heq hx]
      simp [locate, hi, hbare]
  · rintro rfl
    exact walkEnds_locate p.tail g p.head

/-! ### The level that gives the nested group -/

/-- A level that does not find the item is passed over. -/
theorem groupAlong_cons_of_not_found (hg : ∀ i, h.locate g p.head p.tail ≠ .found i) :
    h.groupAlong p (g :: l) = h.groupAlong p l := by
  rw [groupAlong, resolveAlong]
  cases hr : h.locate g p.head p.tail with
  | found i => exact absurd hr (hg i)
  | blocked => rfl
  | missing =>
    cases hi : h.resolveAlong p l with
    | none => rfl
    | some i => exact (groupAlong_of_resolveAlong hi).symm

theorem groupAlong_cons_of_found (hg : h.locate g p.head p.tail = .found i) :
    h.groupAlong p (g :: l) = (h.item i).value.primary := by
  rw [groupAlong, resolveAlong, hg]

/-- **The nested group comes from the first level that finds the item.** -/
theorem groupAlong_eq_some_iff :
    h.groupAlong p l = some x ↔ ∃ before y above i, l = before ++ y :: above ∧
      (∀ z ∈ before, ∀ j, h.locate z p.head p.tail ≠ .found j) ∧
      h.locate y p.head p.tail = .found i ∧ (h.item i).value.primary = some x := by
  induction l with
  | nil => simp [groupAlong]
  | cons g l ih =>
    by_cases hg : ∃ i, h.locate g p.head p.tail = .found i
    · obtain ⟨i, hi⟩ := hg
      rw [groupAlong_cons_of_found hi]
      constructor
      · intro hx
        exact ⟨[], g, l, i, rfl, fun z hz => absurd hz List.not_mem_nil, hi, hx⟩
      · rintro ⟨before, y, above, j, heq, hbefore, hj, hx⟩
        cases before with
        | nil =>
          obtain ⟨rfl, -⟩ := List.cons.inj heq
          obtain rfl := Reached.found.inj (hi.symm.trans hj)
          exact hx
        | cons z before =>
          obtain ⟨rfl, -⟩ := List.cons.inj heq
          exact absurd hi (hbefore _ List.mem_cons_self i)
    · have hno : ∀ i, h.locate g p.head p.tail ≠ .found i := fun i hi => hg ⟨i, hi⟩
      rw [groupAlong_cons_of_not_found hno, ih]
      constructor
      · rintro ⟨before, y, above, j, rfl, hbefore, hj, hx⟩
        exact ⟨g :: before, y, above, j, rfl, List.forall_mem_cons.2 ⟨hno, hbefore⟩, hj, hx⟩
      · rintro ⟨before, y, above, j, heq, hbefore, hj, hx⟩
        cases before with
        | nil =>
          obtain ⟨rfl, -⟩ := List.cons.inj heq
          exact absurd hj (hno j)
        | cons z before =>
          obtain ⟨rfl, rfl⟩ := List.cons.inj heq
          exact ⟨before, y, above, j, rfl, (List.forall_mem_cons.1 hbefore).2, hj, hx⟩

/-! ### The rule -/

/-- **Reading through the super groups.**  Every level has one end of the walk.  The path is there
exactly if some level finds its item, its nested group is that of the item at the first level that
finds one, and its item is the one at the first level that is not missing, if that level finds
one. -/
theorem read_by_levels (hl : h.Supers g l) (p : Path) :
    (∀ y, ∃! r, h.WalkEnds y p.segments r) ∧
    (h.hasPath g p = true ↔ ∃ y ∈ l, ∃ i, h.WalkEnds y p.segments (.found i)) ∧
    (∀ x, h.nestedAt? g p = some x ↔ ∃ before y above i, l = before ++ y :: above ∧
      (∀ z ∈ before, ∀ j, ¬ h.WalkEnds z p.segments (.found j)) ∧
      h.WalkEnds y p.segments (.found i) ∧ (h.item i).value.primary = some x) ∧
    ∀ i, h.itemAt? g p = some i ↔ ∃ before y above, l = before ++ y :: above ∧
      (∀ z ∈ before, h.WalkEnds z p.segments .missing) ∧
      h.WalkEnds y p.segments (.found i) := by
  simp only [walkEnds_iff, hasPath, nestedAt?, itemAt?, hl.superChain_eq]
  exact ⟨fun y => ⟨_, rfl, fun _ hr => hr.symm⟩, containsAlong_iff,
    fun x => groupAlong_eq_some_iff, fun i => resolveAlong_eq_some_iff⟩

/-- Three levels: the lowest has no home, the middle one has a home that nests nothing, and the home
of the base nests a group with a city. -/
def tiers : Heap where
  groups := #[
    { name := "base", items := .ofList [("home", ⟨0⟩)] },
    { name := "home", nestedIn := some ⟨0⟩, items := .ofList [("city", ⟨1⟩)] },
    { name := "city", nestedIn := some ⟨1⟩ },
    { name := "middle", above := some ⟨0⟩, items := .ofList [("home", ⟨2⟩)] },
    { name := "lowest", above := some ⟨3⟩, items := .ofList [("rank", ⟨3⟩)] }]
  items := #[
    { name := "home", owner := ⟨0⟩, value := { primary := some ⟨1⟩ } },
    { name := "city", owner := ⟨1⟩, value := { primary := some ⟨2⟩ } },
    { name := "home", owner := ⟨3⟩ },
    { name := "rank", owner := ⟨4⟩ }]
  variants := #[.generic]

/-- The city of the home is there, and the base gives its nested group; the middle level ends the
search for its item. -/
theorem read_by_levels_tiers :
    let p : Path := ⟨"home", ["city"], by decide⟩
    tiers.Supers ⟨4⟩ [⟨4⟩, ⟨3⟩, ⟨0⟩] ∧
      tiers.WalkEnds ⟨4⟩ p.segments .missing ∧ tiers.WalkEnds ⟨3⟩ p.segments .blocked ∧
      tiers.WalkEnds ⟨0⟩ p.segments (.found ⟨1⟩) ∧
      tiers.hasPath ⟨4⟩ p = true ∧ tiers.nestedAt? ⟨4⟩ p = some ⟨2⟩ ∧
      tiers.itemAt? ⟨4⟩ p = none := by
  intro p
  have hl : tiers.Supers ⟨4⟩ [⟨4⟩, ⟨3⟩, ⟨0⟩] := .step rfl (.step rfl (.top rfl))
  have hlowest : tiers.WalkEnds ⟨4⟩ p.segments .missing := walkEnds_iff.2 rfl
  have hmiddle : tiers.WalkEnds ⟨3⟩ p.segments .blocked := walkEnds_iff.2 rfl
  have hbase : tiers.WalkEnds ⟨0⟩ p.segments (.found ⟨1⟩) := walkEnds_iff.2 rfl
  obtain ⟨hends, hpath, hnested, -⟩ := read_by_levels hl p
  refine ⟨hl, hlowest, hmiddle, hbase, hpath.2 ⟨⟨0⟩, by decide, _, hbase⟩,
    (hnested _).2 ⟨[⟨4⟩, ⟨3⟩], ⟨0⟩, [], ⟨1⟩, rfl, fun z hz j hj => ?_, hbase, rfl⟩, rfl⟩
  rcases List.mem_pair.1 hz with rfl | rfl
  · cases (hends _).unique hj hlowest
  · cases (hends _).unique hj hmiddle

end AttributeGraph.Heap
