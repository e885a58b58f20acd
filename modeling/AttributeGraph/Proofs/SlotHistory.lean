/-
What the slots of an item hold, told from the groups registered in them.

A slot files the last group of each tag.  Its primary group depends on more than the
last registration: a group without a tag takes the place at once, the next group with
a tag takes it over, and from then on only groups with that same tag do.  So the
primary group is the last one with the tag that came first behind the last group
without one.  `Slot.Recalls` says this of a slot and of the groups registered in it,
oldest first, and one more registration keeps it (`Slot.Recalls.register`).

A path that is created through an item may install a primary group for its value,
and this group has no tag: it counts as registered (`Slot.Recalls.materialises`).
A `Course` of an item is any mix of both with steps that leave the slots alone, as
long as no group registered before changes its tag.
-/
import AttributeGraph.Proofs.Materialising

namespace AttributeGraph

namespace Slot

variable {tagOf tagOf' : GroupId → Option TypeTag} {s : Slot} {past : List GroupId}
  {g p : GroupId} {k l : TypeTag}

/-! ### Registered groups -/

/-- The last one with a tag of the groups that have been registered, oldest first. -/
def lastWith (tagOf : GroupId → Option TypeTag) (past : List GroupId) (k : TypeTag) :
    Option GroupId :=
  past.reverse.find? fun g => tagOf g = some k

theorem lastWith_concat : lastWith tagOf (past ++ [g]) k =
    if tagOf g = some k then some g else lastWith tagOf past k := by
  rw [lastWith, List.reverse_concat, List.find?_cons]
  by_cases hg : tagOf g = some k
  · simp [hg]
  · simp [hg, lastWith]

theorem tag_of_lastWith (hp : lastWith tagOf past k = some p) : tagOf p = some k := by
  have hfound := List.find?_some hp
  exact of_decide_eq_true hfound

theorem lastWith_congr (htags : ∀ g ∈ past, tagOf' g = tagOf g) (k : TypeTag) :
    lastWith tagOf' past k = lastWith tagOf past k := by
  refine find?_congr ?_
  intro g hg
  rw [htags g (List.mem_reverse.1 hg)]

/-- A slot in which the groups of `past` have been registered, oldest first. -/
structure Recalls (tagOf : GroupId → Option TypeTag) (past : List GroupId) (s : Slot) :
    Prop where
  filed : ∀ k, s.find? k = lastWith tagOf past k
  empty : past = [] → s.primary = none
  /-- There is a primary group, and if it has a tag, it is filed under it. -/
  present : past ≠ [] → ∃ p ∈ past, s.primary = some p ∧
    ∀ k, tagOf p = some k → s.find? k = some p
  /-- A group without a tag that was registered last is the primary one. -/
  untyped : ∀ before g, past = before ++ [g] → tagOf g = none → s.primary = some g
  /-- Otherwise the first group behind the last one without a tag says what the tag of the primary
  group is. -/
  typed : ∀ before first after k, past = before ++ first :: after →
    (∀ u ∈ before.getLast?, tagOf u = none) → tagOf first = some k →
    (∀ g ∈ after, tagOf g ≠ none) → s.primary = lastWith tagOf past k

namespace Recalls

/-- A new slot recalls nothing. -/
theorem nil (tagOf : GroupId → Option TypeTag) : Recalls tagOf [] {} where
  filed k := rfl
  empty _ := rfl
  present hne := absurd rfl hne
  untyped before g heq := by simp at heq
  typed before first after k heq := by simp at heq

/-- Only the tags of the registered groups matter. -/
theorem congr (hs : Recalls tagOf past s) (htags : ∀ g ∈ past, tagOf' g = tagOf g) :
    Recalls tagOf' past s where
  filed k := (hs.filed k).trans (lastWith_congr htags k).symm
  empty := hs.empty
  present hne := by
    obtain ⟨p, hp, hprimary, hfound⟩ := hs.present hne
    exact ⟨p, hp, hprimary, htags p hp ▸ hfound⟩
  untyped before g heq hg := by
    refine hs.untyped before g heq ?_
    rw [← htags g (by simp [heq])]
    exact hg
  typed before first after k heq hbefore hfirst hafter := by
    have hin : ∀ g, g ∈ before ∨ g = first ∨ g ∈ after → tagOf' g = tagOf g := by
      intro g hg
      refine htags g ?_
      simpa [heq] using hg
    rw [lastWith_congr htags]
    refine hs.typed before first after k heq ?_ ?_ ?_
    · intro u hu
      rw [← hin u (.inl (List.mem_of_getLast? hu))]
      exact hbefore u hu
    · rw [← hin first (.inr (.inl rfl))]
      exact hfirst
    · intro g hg
      rw [← hin g (.inr (.inr hg))]
      exact hafter g hg

end Recalls

/-! ### One more registration -/

theorem register_of_untyped (hg : tagOf g = none) :
    s.register tagOf g = { s with primary := some g } := by
  rw [register, hg]

/-- A group with a tag leaves a primary group with another tag in its place. -/
theorem primary_register_of_other (hg : tagOf g = some k) (hp : s.primary = some p)
    (hl : tagOf p = some l) (hne : l ≠ k) : (s.register tagOf g).primary = some p := by
  simp [register, hg, hp, hl, hne]

/-- Otherwise it takes that place. -/
theorem primary_register_of_free (hg : tagOf g = some k)
    (hfree : ∀ p l, s.primary = some p → tagOf p = some l → l = k) :
    (s.register tagOf g).primary = some g := by
  rw [register, hg]
  cases hp : s.primary with
  | none => rfl
  | some p =>
    cases hl : tagOf p with
    | none => simp [hl]
    | some l => simp [hl, hfree p l hp hl]

/-- An element of a list that has got one more at its end is this one, or lies before it. -/
theorem split_concat {before after : List GroupId} {first : GroupId}
    (heq : past ++ [g] = before ++ first :: after) :
    after = [] ∧ before = past ∧ first = g ∨
      ∃ rest, after = rest ++ [g] ∧ past = before ++ first :: rest := by
  rcases List.eq_nil_or_concat' after with rfl | ⟨rest, last, rfl⟩
  · obtain ⟨hpast, hg⟩ := List.append_inj' heq rfl
    exact .inl ⟨rfl, hpast.symm, (List.singleton_inj.1 hg).symm⟩
  · rw [← List.cons_append, ← List.append_assoc] at heq
    obtain ⟨hpast, hg⟩ := List.append_inj' heq rfl
    exact .inr ⟨rest, by rw [List.singleton_inj.1 hg], hpast⟩

namespace Recalls

/-- A group without a tag becomes the primary one. -/
theorem register_untyped (hs : Recalls tagOf past s) (hg : tagOf g = none) :
    Recalls tagOf (past ++ [g]) (s.register tagOf g) := by
  rw [register_of_untyped hg]
  refine ⟨?_, by simp, ?_, ?_, ?_⟩
  · intro k
    rw [lastWith_concat, if_neg (by simp [hg])]
    exact hs.filed k
  · intro _
    refine ⟨g, by simp, rfl, ?_⟩
    intro k hk
    rw [hg] at hk
    cases hk
  · intro before u heq _
    rw [List.singleton_inj.1 (List.append_inj' heq rfl).2]
  · intro before first after k heq _ hfirst hafter
    rcases split_concat heq with ⟨-, -, rfl⟩ | ⟨rest, rfl, -⟩
    · rw [hg] at hfirst
      cases hfirst
    · exact absurd hg (hafter g (by simp))

/-- A group with a tag is filed under it. -/
theorem filed_register (hs : Recalls tagOf past s) (hg : tagOf g = some k) (l : TypeTag) :
    (s.register tagOf g).find? l = lastWith tagOf (past ++ [g]) l := by
  rw [find?_register hg, lastWith_concat, hg, hs.filed l]
  simp only [Option.some.injEq, eq_comm]

/-- A group with a tag becomes the primary one where none with another tag is. -/
theorem register_free (hs : Recalls tagOf past s) (hg : tagOf g = some k)
    (hfree : ∀ p l, s.primary = some p → tagOf p = some l → l = k) :
    Recalls tagOf (past ++ [g]) (s.register tagOf g) := by
  have hprimary := primary_register_of_free hg hfree
  refine ⟨hs.filed_register hg, by simp, ?_, ?_, ?_⟩
  · intro _
    refine ⟨g, by simp, hprimary, ?_⟩
    intro l hl
    rw [hs.filed_register hg, lastWith_concat, if_pos hl]
  · intro before u heq _
    rw [hprimary, List.singleton_inj.1 (List.append_inj' heq rfl).2]
  · intro before first after l heq hbefore hfirst hafter
    rw [hprimary, lastWith_concat]
    rcases split_concat heq with ⟨-, -, rfl⟩ | ⟨rest, rfl, rfl⟩
    · rw [if_pos hfirst]
    · -- the primary group so far has the tag of the first one, so it has this one's
      have hlast : s.primary = lastWith tagOf (before ++ first :: rest) l :=
        hs.typed before first rest l rfl hbefore hfirst
          fun x hx => hafter x (List.mem_append_left _ hx)
      obtain ⟨p, -, hp, -⟩ := hs.present (by simp)
      have hl : tagOf p = some l := tag_of_lastWith (hlast.symm.trans hp)
      rw [hg, hfree p l hp hl, if_pos rfl]

/-- A group with a tag leaves a primary group with another tag where it is. -/
theorem register_other (hs : Recalls tagOf past s) (hg : tagOf g = some k)
    (hp : s.primary = some p) (hl : tagOf p = some l) (hne : l ≠ k) :
    Recalls tagOf (past ++ [g]) (s.register tagOf g) := by
  have hprimary := primary_register_of_other hg hp hl hne
  have hpast : past ≠ [] := by
    intro hnil
    rw [hs.empty hnil] at hp
    cases hp
  refine ⟨hs.filed_register hg, by simp, ?_, ?_, ?_⟩
  · intro _
    obtain ⟨q, hin, hq, hfound⟩ := hs.present hpast
    obtain rfl := Option.some.inj (hp.symm.trans hq)
    refine ⟨p, List.mem_append_left _ hin, hprimary, ?_⟩
    intro m hm
    obtain rfl := Option.some.inj (hl.symm.trans hm)
    rw [find?_register hg, if_neg hne]
    exact hfound l hl
  · intro before u heq hu
    rw [← List.singleton_inj.1 (List.append_inj' heq rfl).2, hg] at hu
    cases hu
  · intro before first after m heq hbefore hfirst hafter
    rw [hprimary, lastWith_concat, ← hp]
    rcases split_concat heq with ⟨-, rfl, rfl⟩ | ⟨rest, rfl, rfl⟩
    · -- the primary group would be the last one before, which has no tag
      exfalso
      obtain ⟨earlier, u, rfl⟩ := (List.eq_nil_or_concat' before).resolve_left hpast
      have hu : tagOf u = none := hbefore u (by simp)
      rw [hs.untyped earlier u rfl hu] at hp
      rw [Option.some.inj hp, hl] at hu
      cases hu
    · have hlast : s.primary = lastWith tagOf (before ++ first :: rest) m :=
        hs.typed before first rest m rfl hbefore hfirst
          fun x hx => hafter x (List.mem_append_left _ hx)
      have hm : tagOf p = some m := tag_of_lastWith (hlast.symm.trans hp)
      obtain rfl := Option.some.inj (hl.symm.trans hm)
      rw [if_neg (by simpa [hg] using hne.symm), hlast]

/-- **One more registration is recalled.** -/
theorem register (hs : Recalls tagOf past s) (g : GroupId) :
    Recalls tagOf (past ++ [g]) (s.register tagOf g) := by
  cases hg : tagOf g with
  | none => exact hs.register_untyped hg
  | some k =>
    by_cases hfree : ∀ p l, s.primary = some p → tagOf p = some l → l = k
    · exact hs.register_free hg hfree
    · simp only [not_forall] at hfree
      obtain ⟨p, l, hp, hl, hne⟩ := hfree
      exact hs.register_other hg hp hl hne

/-- **Further registrations are recalled.** -/
theorem registerAll (gs : List GroupId) : ∀ {past : List GroupId} {s : Slot},
    Recalls tagOf past s → Recalls tagOf (past ++ gs) (gs.foldl (Slot.register tagOf) s) := by
  induction gs with
  | nil =>
    intro past s hs
    rw [List.append_nil]
    exact hs
  | cons g gs ih =>
    intro past s hs
    rw [List.append_cons]
    exact ih (hs.register g)

end Recalls

end Slot

theorem Item.mapSlot_mapSlot (side : Side) (f f' : Slot → Slot) (j : Item) :
    (j.mapSlot side f).mapSlot side f' = j.mapSlot side fun s => f' (f s) := by
  cases side <;> rfl

namespace Heap

variable {h h' h₁ h₂ : Heap} {i : ItemId} {g : GroupId} {side : Side}

theorem tag?_registerAll (gs : List GroupId) : ∀ h : Heap,
    (h.registerAll side i gs).tag? = h.tag? := by
  induction gs with
  | nil =>
    intro h
    rfl
  | cons g gs ih =>
    intro h
    exact (ih (h.register side i g)).trans (tag?_register h side i g)

/-- Registering groups in an item changes one of its slots. -/
theorem item_registerAll (side : Side) (gs : List GroupId) : ∀ {h : Heap}, h.HasItem i →
    (h.registerAll side i gs).HasItem i ∧ (h.registerAll side i gs).item i =
      (h.item i).mapSlot side fun s => gs.foldl (Slot.register h.tag?) s := by
  induction gs with
  | nil =>
    intro h hi
    refine ⟨hi, ?_⟩
    cases side <;> rfl
  | cons g gs ih =>
    intro h hi
    obtain ⟨hin, hitem⟩ := ih (h := h.register side i g) (hasItem_alterItem.2 hi)
    refine ⟨hin, hitem.trans ?_⟩
    rw [item_register hi, tag?_register, Item.mapSlot_mapSlot]
    rfl

/-! ### Groups that a path installs -/

/-- A change to a heap that keeps all tags and an item, except that a group without a tag may become
the primary one for the value of the item, where it had none. -/
structure Installs (i : ItemId) (h h' : Heap) : Prop where
  tags : h'.tag? = h.tag?
  inHeap : h'.HasItem i
  item : h'.item i = h.item i ∨ (h.item i).value.primary = none ∧
    ∃ y, h.tag? y = none ∧ h'.item i = (h.item i).mapSlot .value (·.register h.tag? y)

theorem primary_mapSlot_untyped {j : Item} {y : GroupId} (hy : h.tag? y = none) :
    (j.mapSlot .value (·.register h.tag? y)).value.primary = some y := by
  simp only [Slot.register_of_untyped hy]
  rfl

namespace Installs

theorem refl (hi : h.HasItem i) : Installs i h h := ⟨rfl, hi, .inl rfl⟩

theorem trans (hfst : Installs i h h₁) (hsnd : Installs i h₁ h₂) : Installs i h h₂ := by
  refine ⟨hsnd.tags.trans hfst.tags, hsnd.inHeap, ?_⟩
  rcases hfst.item with hsame | ⟨hbare, y, hy, hset⟩
  · have hitem := hsnd.item
    rw [hsame, hfst.tags] at hitem
    exact hitem
  · rcases hsnd.item with hsame | ⟨hbare', -⟩
    · exact .inr ⟨hbare, y, hy, hsame.trans hset⟩
    · -- an item that has got a primary group does not get another one
      rw [hset, primary_mapSlot_untyped hy] at hbare'
      cases hbare'

end Installs

theorem tag?_allocGroup_untyped (h : Heap) (n : String) (v : Variant) :
    (h.allocGroup { name := n } v).2.tag? = h.tag? := by
  funext x
  by_cases hx : x = (h.allocGroup { name := n } v).1
  · have hno : ¬ h.HasGroup x := by
      rw [hx]
      exact Nat.lt_irrefl _
    rw [tag?, tag?, group_of_not_hasGroup hno, hx, group_allocGroup_self]
    rfl
  · rw [tag?, tag?, group_allocGroup hx]

/-- A new item has an address of its own. -/
theorem installs_ensureItem (hi : h.HasItem i) (g : GroupId) (n : String) :
    Installs i h (h.ensureItem g n).2 := by
  cases hn : (h.group g).items.find? n with
  | some j =>
    rw [ensureItem_of_find? hn]
    exact .refl hi
  | none =>
    rw [ensureItem_of_none hn]
    refine ⟨?_, hasItem_alterGroup.2 (hasItem_allocItem.2 (.inl hi)), .inl ?_⟩
    · funext x
      refine tag?_eq (group_alterGroup_field Group.type ?_ g x)
        (group_alterGroup_field Group.typeName ?_ g x)
      · exact fun _ => rfl
      · exact fun _ => rfl
    · rw [item_alterGroup, item_allocItem]
      intro heq
      rw [heq] at hi
      exact Nat.lt_irrefl _ hi

/-- A group that is created for a name has no tag. -/
theorem installs_ensureNested (hi : h.HasItem i) (g : GroupId) (j : ItemId) (n : String) :
    Installs i h (h.ensureNested g j n).2 := by
  cases hj : (h.item j).value.primary with
  | some y =>
    rw [ensureNested_of_primary hj]
    exact .refl hi
  | none =>
    rw [ensureNested_of_bare hj]
    have htags : ∀ v, ((h.allocGroup { name := n } v).2.setRoot .value j ⟨h.groups.size⟩).tag? =
        h.tag? := by
      intro v
      rw [← tag?_allocGroup_untyped h n v]
      exact tag?_setNestedIn _ _ _
    refine ⟨htags _, hasItem_alterItem.2 hi, ?_⟩
    by_cases hij : i = j
    · subst hij
      have hnew : h.tag? ⟨h.groups.size⟩ = none := by
        have hno : ¬ h.HasGroup ⟨h.groups.size⟩ := Nat.lt_irrefl _
        rw [tag?, group_of_not_hasGroup hno]
        rfl
      refine .inr ⟨hj, ⟨h.groups.size⟩, hnew, ?_⟩
      have hset : ((h.allocGroup { name := n } (h.variantOf g)).2.setRoot .value i
          ⟨h.groups.size⟩).item i = (h.item i).mapSlot .value
            fun s => { s with primary := some ⟨h.groups.size⟩ } :=
        item_setRoot (show Heap.HasItem _ i from hi)
      simp only [Slot.register_of_untyped hnew]
      exact hset
    · exact .inl (item_alterItem_of_ne hij _)

/-- A path that is created keeps an item, or installs a primary group in it. -/
theorem installs_ensurePath (tail : List String) : ∀ {h : Heap} (g : GroupId) (head : String),
    h.HasItem i → Installs i h (h.ensurePath g head tail).2 := by
  induction tail with
  | nil =>
    intro h g head hi
    exact installs_ensureItem hi g head
  | cons next rest ih =>
    intro h g head hi
    rw [ensurePath_cons]
    have hfst := installs_ensureItem hi g head
    have hsnd := installs_ensureNested hfst.inHeap g (h.ensureItem g head).1 head
    exact (hfst.trans hsnd).trans (ih _ next hsnd.inHeap)

/-! ### Courses -/

/-- The group that a change has made the primary one for the value of an item that had none. -/
def installed (i : ItemId) (h h' : Heap) : List GroupId :=
  if (h.item i).value.primary = none then (h'.item i).value.primary.toList else []

/-- Further groups registered on a side. -/
def further (past : Side → List GroupId) (side : Side) (gs : List GroupId) :
    Side → List GroupId := fun side' => if side' = side then past side' ++ gs else past side'

/-- What may become of an item, with the groups registered on each side so far, oldest first.  A
group that is installed for the value on the way along a path counts as registered. -/
inductive Course (i : ItemId) : (Side → List GroupId) → Heap → Prop
  | start {h : Heap} (hi : h.HasItem i) (hnew : ∀ side, (h.item i).slot side = {}) :
      Course i (fun _ => []) h
  | registerAll {past : Side → List GroupId} {h : Heap} (hc : Course i past h) (side : Side)
      (gs : List GroupId) : Course i (further past side gs) (h.registerAll side i gs)
  | ensurePath {past : Side → List GroupId} {h : Heap} (hc : Course i past h) (g : GroupId)
      (head : String) (tail : List String) :
      Course i (further past .value (installed i h (h.ensurePath g head tail).2))
        (h.ensurePath g head tail).2
  | elsewhere {past : Side → List GroupId} {h h' : Heap} (hc : Course i past h)
      (hi : h'.HasItem i) (hslots : ∀ side, (h'.item i).slot side = (h.item i).slot side)
      (htags : ∀ side, ∀ g ∈ past side, h'.tag? g = h.tag? g) : Course i past h'

/-- An item whose slots recall the groups registered on their sides. -/
structure Remembers (i : ItemId) (past : Side → List GroupId) (h : Heap) : Prop where
  inHeap : h.HasItem i
  slots : ∀ side, ((h.item i).slot side).Recalls h.tag? (past side)

namespace Remembers

variable {past : Side → List GroupId}

/-- A slot in which groups are registered recalls them, and the other slot stays. -/
theorem mapSlot (hm : Remembers i past h) (htags : h'.tag? = h.tag?) (hi : h'.HasItem i)
    {gs : List GroupId}
    (hitem : h'.item i = (h.item i).mapSlot side fun s => gs.foldl (Slot.register h.tag?) s) :
    Remembers i (further past side gs) h' := by
  refine ⟨hi, ?_⟩
  intro side'
  rw [hitem, Item.slot_mapSlot, further, htags]
  by_cases hside : side' = side
  · rw [if_pos hside, if_pos hside]
    exact (hm.slots side').registerAll gs
  · rw [if_neg hside, if_neg hside]
    exact hm.slots side'

/-- What a path installs is recalled. -/
theorem installs (hm : Remembers i past h) (hinstall : Installs i h h') :
    Remembers i (further past .value (installed i h h')) h' := by
  rcases hinstall.item with hsame | ⟨hbare, y, hy, hset⟩
  · have hnone : installed i h h' = [] := by
      unfold installed
      split_ifs with hbare
      · rw [hsame, hbare]
        rfl
      · rfl
    rw [hnone]
    refine hm.mapSlot hinstall.tags hinstall.inHeap (hsame.trans ?_)
    rfl
  · have hone : installed i h h' = [y] := by
      rw [installed, if_pos hbare, hset, primary_mapSlot_untyped hy]
      rfl
    rw [hone]
    exact hm.mapSlot hinstall.tags hinstall.inHeap hset

end Remembers

/-- **Whatever becomes of an item, its slots recall what was registered.** -/
theorem Course.remembers {past : Side → List GroupId} (hc : Course i past h) :
    Remembers i past h := by
  induction hc with
  | start hi hnew =>
    refine ⟨hi, ?_⟩
    intro side
    rw [hnew side]
    exact .nil _
  | registerAll _ side gs ih =>
    obtain ⟨hin, hitem⟩ := item_registerAll side gs ih.inHeap
    exact ih.mapSlot (tag?_registerAll gs _) hin hitem
  | ensurePath _ g head tail ih => exact ih.installs (installs_ensurePath tail g head ih.inHeap)
  | elsewhere _ hi hslots htags ih =>
    refine ⟨hi, ?_⟩
    intro side
    rw [hslots side]
    exact (ih.slots side).congr (htags side)

/-- **What a slot holds after any course of registrations.**  Every group is filed under its own
tag, and is the last one registered with it.  There is a primary group as soon as a group has been
registered; if it has a tag, it is the one filed under it.  The primary group is the last registered
one if that has no tag, and otherwise the last one with the tag of the first group behind the last
one without a tag. -/
theorem slot_of_course {past : Side → List GroupId} (hc : Course i past h) (side : Side) :
    (∀ k g, ((h.item i).slot side).find? k = some g → h.tag? g = some k) ∧
    (∀ k, ((h.item i).slot side).find? k = Slot.lastWith h.tag? (past side) k) ∧
    (past side ≠ [] → ∃ p ∈ past side, ((h.item i).slot side).primary = some p) ∧
    (∀ p k, ((h.item i).slot side).primary = some p → h.tag? p = some k →
      ((h.item i).slot side).find? k = some p) ∧
    (∀ before g, past side = before ++ [g] → h.tag? g = none →
      ((h.item i).slot side).primary = some g) ∧
    ∀ before first after k, past side = before ++ first :: after →
      (∀ u ∈ before.getLast?, h.tag? u = none) → h.tag? first = some k →
      (∀ g ∈ after, h.tag? g ≠ none) →
      ((h.item i).slot side).primary = Slot.lastWith h.tag? (past side) k := by
  have hs := hc.remembers.slots side
  refine ⟨?_, hs.filed, ?_, ?_, hs.untyped, hs.typed⟩
  · intro k g hg
    rw [hs.filed] at hg
    exact Slot.tag_of_lastWith hg
  · intro hne
    obtain ⟨p, hp, hprimary, -⟩ := hs.present hne
    exact ⟨p, hp, hprimary⟩
  · intro p k hp hk
    have hne : past side ≠ [] := by
      intro hnil
      rw [hs.empty hnil] at hp
      cases hp
    obtain ⟨q, -, hq, hfound⟩ := hs.present hne
    obtain rfl := Option.some.inj (hp.symm.trans hq)
    exact hfound k hk

/-- A play with a lead for whom nothing is known yet, two actors for it and a guest. -/
def play : Heap :=
  let actor := ObjectType.root "Actor" "Actor"
  { groups := #[
      { name := "play", items := .ofList [("lead", ⟨0⟩)] },
      { name := "first", type := some actor },
      { name := "guest", typeName := some "Guest" },
      { name := "second", type := some actor }]
    items := #[{ name := "lead", owner := ⟨0⟩ }]
    variants := #[.generic] }

/-- The name of the lead brings a group without a tag, the first actor takes its place, and the
guest does not; the second actor replaces the first one. -/
theorem slot_of_course_play :
    let named := (play.ensurePath ⟨0⟩ "lead" ["name"]).2
    let filled := named.registerAll .value ⟨0⟩ [⟨1⟩, ⟨2⟩, ⟨3⟩]
    ∃ past, filled.Course ⟨0⟩ past ∧ past .value = [⟨4⟩, ⟨1⟩, ⟨2⟩, ⟨3⟩] ∧
      (filled.item ⟨0⟩).value.primary = some ⟨3⟩ ∧
      (filled.item ⟨0⟩).value.find? (.name "Guest") = some ⟨2⟩ := by
  intro named filled
  have hstart : play.Course ⟨0⟩ fun _ => [] := by
    refine .start (by decide) ?_
    intro side
    cases side <;> rfl
  have hcourse := (hstart.ensurePath ⟨0⟩ "lead" ["name"]).registerAll .value [⟨1⟩, ⟨2⟩, ⟨3⟩]
  obtain ⟨-, hfiled, -, -, -, hprimary⟩ := slot_of_course hcourse .value
  refine ⟨_, hcourse, by decide, ?_, ?_⟩
  · refine (hprimary [⟨4⟩] ⟨1⟩ [⟨2⟩, ⟨3⟩] (.type (.root "Actor" "Actor")) ?_ ?_ ?_ ?_).trans ?_
    all_goals decide
  · exact (hfiled _).trans (by decide)

end Heap

end AttributeGraph
