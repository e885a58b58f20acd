/-
Equal groups cover each other.

Equality asks for the same attributes with matching nested groups, the super groups
included; coverage asks one side only, and never for the super groups.  But the two
walk a graph differently.  Equality goes by the size of typed groups and takes
absent ones for none at all, and for it a pair that was met once counts as equal
everywhere; coverage stops at absent typed groups and forgets a pair once it has
been compared.

So the two are compared as relations and not as runs: every bisimulation, together
with the identity, is a coverage (`isCoverage_of_bisimulation`).  The one place
where the scan of matching items may stop is a side that files no group per type
where the other one has no such place, and there it stops with a yes.
-/
import AttributeGraph.Proofs.Equality
import AttributeGraph.Proofs.FullCoverage

namespace AttributeGraph

variable {S : GroupId → GroupId → Prop}

/-- Nothing stops the scan of typed groups that match if both sides have some or both have none. -/
theorem typedScan_proceed {s t : Slot} (hshape : s.byType.isSome = t.byType.isSome)
    (htyped : ∀ k, Option.Rel S (s.find? k) (t.find? k)) :
    TypedScan S s.byType t.byType .proceed := by
  cases hs : s.byType with
  | none => exact .untyped _
  | some mine =>
    cases ht : t.byType with
    | none => simp [hs, ht] at hshape
    | some theirs =>
      refine .compared fun k a hk => ?_
      have hrel := htyped k
      simp only [Slot.find?, hs, ht, Option.bind_some, hk] at hrel
      exact exists_left_of_rel (rel_swap hrel) rfl

/-- The scan of typed groups that match goes on, or stops where only one side has some. -/
theorem exists_typedScan {s t : Slot} (htyped : ∀ k, Option.Rel S (s.find? k) (t.find? k)) :
    TypedScan S s.byType t.byType .proceed ∨ TypedScan S s.byType t.byType .shortCircuit := by
  by_cases hshape : s.byType.isSome = t.byType.isSome
  · exact .inl (typedScan_proceed hshape htyped)
  · cases hs : s.byType with
    | none => exact .inl (.untyped _)
    | some mine =>
      cases ht : t.byType with
      | none => exact .inr (.missing _)
      | some theirs => simp [hs, ht] at hshape

/-- Slots that go on or stop let a scan go on or stop. -/
theorem exists_slotsScan {slots : List (SlotVerdict → Prop)}
    (hslots : ∀ slot ∈ slots, slot .proceed ∨ slot .shortCircuit) :
    SlotsScan slots .proceed ∨ SlotsScan slots .shortCircuit := by
  induction slots with
  | nil => exact .inl .done
  | cons slot rest ih =>
    rw [List.forall_mem_cons] at hslots
    rcases hslots.1 with hproceed | hstop
    · exact (ih hslots.2).imp (.next hproceed) (.next hproceed)
    · exact .inr (.stop rest hstop)

theorem ItemsMatch.exists_itemScan {x y : Item} (hm : ItemsMatch S x y) :
    ItemScan S x y .proceed ∨ ItemScan S x y .shortCircuit := by
  refine exists_slotsScan ?_
  simp only [List.forall_mem_cons, List.not_mem_nil, false_imp_iff, implies_true, and_true]
  exact ⟨.inl (primaryScan_proceed_iff.2 hm.value.primary),
    .inl (primaryScan_proceed_iff.2 hm.key.primary), exists_typedScan hm.value.typed,
    exists_typedScan hm.key.typed⟩

namespace Heap

variable {h : Heap} {R : GroupId → GroupId → Prop} {a b : GroupId}

/-- Scanning the items of a matching group in their order comes to an end or to a stop. -/
theorem GroupsMatch.itemsScan (hm : h.GroupsMatch S a b) {entries : List (String × ItemId)}
    (hsub : ∀ e ∈ entries, (h.group b).items.find? e.1 = some e.2) : h.ItemsScan S a entries := by
  induction entries with
  | nil => exact .done
  | cons e rest ih =>
    rw [List.forall_mem_cons] at hsub
    obtain ⟨i, hi, hij⟩ := exists_left_of_rel (hm.items e.1) hsub.1
    rcases hij.exists_itemScan with hproceed | hstop
    · exact .next hi hproceed (ih hsub.2)
    · exact .stop rest hi hstop

theorem GroupsMatch.passes (hm : h.GroupsMatch S a b) : h.Passes S a b := by
  cases hb : (h.group b).hasAttributes with
  | false => exact .inr (.inl hb)
  | true =>
    obtain ⟨n, j, hj⟩ := hasAttributes_iff.1 hb
    obtain ⟨i, hi, -⟩ := exists_left_of_rel (hm.items n) hj
    have ha : (h.group a).hasAttributes = true := hasAttributes_iff.2 ⟨n, i, hi⟩
    exact .inr (.inr ⟨ha, hb, hm.itemsScan fun e he => OrderedMap.find?_eq_some_iff.2 he⟩)

/-- **A bisimulation, together with the identity, is a coverage.** -/
theorem isCoverage_of_bisimulation (hR : h.Bisimulation R) :
    h.IsCoverage (Relation.ReflGen R) := by
  intro a b hab
  cases hab with
  | refl => exact .inl rfl
  | single hab =>
    rcases hR a b hab with heq | hm
    · exact .inl heq
    · exact hm.passes

theorem covers_of_bisimulation (hR : h.Bisimulation R) (hab : R a b) :
    (h.coverage a (some b)).1 = true :=
  coverage_iff.2 ⟨Relation.ReflGen R, .single hab,
    fun x y hxy => .inr (isCoverage_of_bisimulation hR x y hxy)⟩

/-- The items that two groups declare under one name have places for typed groups on the same
sides. -/
def SameShape (h : Heap) (a b : GroupId) : Prop :=
  ∀ n i j, (h.group a).items.find? n = some i → (h.group b).items.find? n = some j →
    ∀ side, ((h.item i).slot side).byType.isSome = ((h.item j).slot side).byType.isSome

theorem GroupsMatch.includes (hm : h.GroupsMatch S a b) (hshape : h.SameShape a b) :
    h.Includes S a b := by
  intro n j hj
  obtain ⟨i, hi, hij⟩ := exists_left_of_rel (hm.items n) hj
  have hslots : ∀ side, SlotsMatch S ((h.item i).slot side) ((h.item j).slot side) := by
    intro side
    cases side with
    | value => exact hij.value
    | key => exact hij.key
  exact ⟨i, hi, itemScan_proceed_iff.2 ⟨fun side => (hslots side).primary,
    fun side => typedScan_proceed (hshape n i j hi hj side) (hslots side).typed⟩⟩

/-- The pairs of a bisimulation cover each other without a diagnostic if they are of the same
shape. -/
theorem coverage_eq_silent_of_bisimulation (hR : h.Bisimulation R)
    (hshape : ∀ x y, R x y → h.SameShape x y) (hab : R a b) :
    h.coverage a (some b) = (true, []) := by
  refine coverage_eq_silent_iff.2 ⟨Relation.ReflGen R, fun x y hxy => ?_, .single hab⟩
  cases hxy with
  | refl => exact .inl rfl
  | single hxy => exact (hR x y hxy).imp_right fun hm => hm.includes (hshape x y hxy)

/-- **Equal groups cover each other**, and the relation found between them is equality: whatever
order their attributes are in, whatever they share and whatever cycles they form. -/
theorem covers_of_groupsAgree (hagree : h.groupsAgree (some a) (some b) = true) :
    (h.coverage a (some b)).1 = true ∧ (h.coverage b (some a)).1 = true ∧
      h.relation a b = .equal := by
  obtain ⟨R, hR, hab⟩ := bisimulation_of_groupsAgree hagree
  have hcovers : (h.coverage a (some b)).1 = true := covers_of_bisimulation hR hab
  have hcovered : (h.coverage b (some a)).1 = true := covers_of_bisimulation hR.swap hab
  refine ⟨hcovers, hcovered, ?_⟩
  simp [relation, hcovers, hcovered, Relation.ofCoverage]

/-- Two groups with the same attributes in different orders: one is nested in itself, the other one
in the first, and only one of them has a place for typed keys, in which nothing is filed. -/
def mirrors : Heap where
  groups := #[
    { name := "left", items := .ofList [("size", ⟨0⟩), ("next", ⟨1⟩)] },
    { name := "right", items := .ofList [("next", ⟨2⟩), ("size", ⟨3⟩)] }]
  items := #[
    { name := "size", owner := ⟨0⟩ },
    { name := "next", owner := ⟨0⟩
      value := { primary := some ⟨0⟩, byType := some (.ofList [(.name "Right", ⟨1⟩)]) } },
    { name := "next", owner := ⟨1⟩
      value := { primary := some ⟨0⟩, byType := some (.ofList [(.name "Right", ⟨0⟩)]) }
      key := { byType := some .empty } },
    { name := "size", owner := ⟨1⟩ }]
  variants := #[.generic]

/-- Where the right group is to cover the left one, the scan stops at the empty place for keys. -/
theorem covers_of_groupsAgree_mirrors :
    mirrors.groupsAgree (some ⟨0⟩) (some ⟨1⟩) = true ∧
      (mirrors.coverage ⟨0⟩ (some ⟨1⟩)).1 = true ∧ (mirrors.coverage ⟨1⟩ (some ⟨0⟩)).1 = true ∧
        mirrors.relation ⟨0⟩ ⟨1⟩ = .equal := by
  have hagree : mirrors.groupsAgree (some ⟨0⟩) (some ⟨1⟩) = true := by decide
  exact ⟨hagree, covers_of_groupsAgree hagree⟩

end Heap

end AttributeGraph
