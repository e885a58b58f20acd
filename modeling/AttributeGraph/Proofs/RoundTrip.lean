/-
Restoring undoes describing.

A description is read, built and, if the options ask for it, its type names are
resolved.  What has been built records the same description as the group that
was described, so the two are mates; it remains to see that they come to have
the same types.  Without resolving neither has one.  With resolving a restored
group gets the type that its name stands for, which is the type of its mate, and
filing the groups anew leaves every slot as the one that was described.
-/
import AttributeGraph.Description.Restoration
import AttributeGraph.Proofs.Mates
import AttributeGraph.Proofs.Reading

namespace AttributeGraph

/-! ### Types that can be restored -/

/-- A group has the type that its type name stands for, or neither of them. -/
def Group.TypedBy (resolver : Resolver) (x : Group) : Prop :=
  (x.typeName = none ∧ x.type = none) ∨
    ∃ n t, x.typeName = some n ∧ x.type = some t ∧ resolver n = .ok t

theorem Group.typeName_resolved (resolver : Resolver) (z : Group) :
    (z.resolved resolver).typeName = z.typeName :=
  (Group.of_core (z.core_resolved resolver)).2.1

theorem Group.TypedBy.resolvable {resolver : Resolver} {x z : Group} (hx : x.TypedBy resolver)
    (hname : x.typeName = z.typeName) : z.Resolvable resolver := by
  intro _ n hn
  rcases hx with ⟨hnone, -⟩ | ⟨m, t, hm, -, ht⟩
  · rw [hname, hn] at hnone
    cases hnone
  · rw [hname, hn] at hm
    exact ⟨t, Option.some.inj hm ▸ ht⟩

/-- A group without a type gets the type of one that has the same type name. -/
theorem Group.TypedBy.type_resolved {resolver : Resolver} {x z : Group} (hx : x.TypedBy resolver)
    (hname : x.typeName = z.typeName) (hz : z.type = none) :
    (z.resolved resolver).type = x.type := by
  rcases hx with ⟨hnone, htype⟩ | ⟨n, t, hn, htype, ht⟩
  · rw [hname] at hnone
    simp only [Group.resolved, hz, hnone, htype]
  · rw [hname] at hn
    simp only [Group.resolved, hz, hn, ht, htype]

theorem Group.TypedBy.tag?_resolved {resolver : Resolver} {x z : Group} (hx : x.TypedBy resolver)
    (hname : x.typeName = z.typeName) (hz : z.type = none) :
    (z.resolved resolver).tag? = x.tag? := by
  unfold Group.tag?
  rw [hx.type_resolved hname hz, Group.typeName_resolved, hname]

namespace Heap

variable {h F₀ F : Heap} {g y : GroupId} {d : Description} {resolver : Resolver}

/-- Restoring with these options gives the groups of a tree their types: none of them has one and
type names are not resolved, or each has the type that the resolver finds for its type name. -/
inductive Revives (h : Heap) (g : GroupId) (o : Options) : Option Resolver → Prop
  | deferred {resolver : Option Resolver} (ho : o.restore.resolvesNames = false)
      (htypes : ∀ x, h.Within g x → (h.group x).type = none) : Revives h g o resolver
  | resolved {resolver : Resolver} (ho : o.restore.resolvesNames = true)
      (htypes : ∀ x, h.Within g x → (h.group x).TypedBy resolver) : Revives h g o (some resolver)

/-! ### What has been built -/

/-- A group has been built in a heap from a description that records another group of the heap. -/
structure Rebuilt (h F₀ : Heap) (g y : GroupId) (d : Description) : Prop where
  grows : Grows Nothing Nothing h F₀
  tidy : Tidy h F₀
  recorded : h.Records [] g d
  built : ∀ F, Retains 0 0 Nothing F₀ F → Built h F y d
  above : (F₀.group y).above = none
  below : (F₀.group y).below = none

namespace Rebuilt

variable (hbuilt : Rebuilt h F₀ g y d)

include hbuilt

theorem root (hF : Retains 0 0 Nothing F₀ F) : Twins h F [] g y :=
  ⟨d, hbuilt.recorded, hbuilt.built F hF⟩

/-- Groups that have a description in common are not the same one, and the second has no type. -/
theorem fresh {among : List GroupId} {x z : GroupId} (hxz : Twins h F₀ among x z) :
    ¬ h.HasGroup z ∧ (F₀.group z).type = none := by
  obtain ⟨e, -, hz⟩ := hxz
  exact ⟨hz.group.fresh, hbuilt.tidy.untyped z hz.group.fresh⟩

/-- Where no group has a type, nothing remains to be done. -/
theorem finished_deferred (hstore : h.Storable g)
    (htypes : ∀ x, h.Within g x → (h.group x).type = none) : Finished h F₀ g y where
  grows := hbuilt.grows
  root := hbuilt.root (.refl F₀)
  above := hbuilt.above
  types x z hxz := by
    obtain ⟨among, htwins⟩ := hxz.twins hstore (hbuilt.root (.refl F₀))
    rw [(hbuilt.fresh htwins).2, htypes x hxz.within]
  filed x z hxz j hj side := by
    obtain ⟨n, i, -, -, hij⟩ := hxz.exists_item hstore (hbuilt.root (.refl F₀)) hj
    exact hbuilt.tidy.filed j hij.fresh side

end Rebuilt

/-! ### Resolving what has been built -/

section Resolve

variable (hbuilt : Rebuilt h F₀ g y d) (hstore : h.Storable g) (hg : (h.group g).above = none)

include hbuilt hstore hg

/-- Only restored groups are visited. -/
theorem Rebuilt.exists_mate {z : GroupId} (hz : F₀.Visited y z) : ∃ x, Mates h F₀ g y x z := by
  induction hz with
  | refl => exact ⟨g, .root⟩
  | tail _ hstep ih =>
    obtain ⟨x, hxz⟩ := ih
    exact hxz.exists_mate hstore (hbuilt.root (.refl F₀)) hg hbuilt.above hbuilt.below hstep

theorem Rebuilt.fresh_visited {z : GroupId} (hz : F₀.Visited y z) : ¬ h.HasGroup z := by
  obtain ⟨x, hxz⟩ := hbuilt.exists_mate hstore hg hz
  obtain ⟨among, htwins⟩ := hxz.twins hstore (hbuilt.root (.refl F₀))
  exact (hbuilt.fresh htwins).1

theorem Rebuilt.fresh_visitedItem {i : ItemId} (hi : F₀.VisitedItem y i) : ¬ h.HasItem i := by
  obtain ⟨z, hz, hi⟩ := hi
  obtain ⟨x, hxz⟩ := hbuilt.exists_mate hstore hg hz
  obtain ⟨n, j, -, -, hij⟩ := hxz.exists_item hstore (hbuilt.root (.refl F₀)) hi
  exact hij.fresh

variable (htypes : ∀ x, h.Within g x → (h.group x).TypedBy resolver)

include htypes

theorem Rebuilt.resolvable {z : GroupId} (hz : F₀.Visited y z) :
    (F₀.group z).Resolvable resolver := by
  obtain ⟨x, hxz⟩ := hbuilt.exists_mate hstore hg hz
  obtain ⟨among, htwins⟩ := hxz.twins hstore (hbuilt.root (.refl F₀))
  exact (htypes x hxz.within).resolvable htwins.typeName

/-- The groups of a restored slot come to have the tags of the groups that were described. -/
theorem Rebuilt.distinguishes {i : ItemId} (hi : F₀.VisitedItem y i) (side : Side) :
    ((F₀.item i).slot side).Distinguishes fun z => ((F₀.group z).resolved resolver).tag? := by
  obtain ⟨z, hz, hi⟩ := hi
  obtain ⟨x, hxz⟩ := hbuilt.exists_mate hstore hg hz
  obtain ⟨n, j, hj, -, hij⟩ := hxz.exists_item hstore (hbuilt.root (.refl F₀)) hi
  obtain ⟨ts, ps, hst⟩ := hij.slots side
  have hwithin : ∀ v ∈ typedInOrder ((h.item j).slot side), h.Within g v := fun v hv =>
    hxz.within.tail
      ⟨side, mem_itemIds_of_find? hj, Slot.mem_groups.2 (.inr (mem_typedInOrder.1 hv))⟩
  have htags : (typedInOrder ((h.item j).slot side)).map h.tag? =
      ((F₀.item i).slot side).typed.map fun z => ((F₀.group z).resolved resolver).tag? := by
    rw [hst.filed, List.map_map]
    refine map_eq_of_forall₂ (fun v r hv => ?_) ((List.forall₂_and_left _ _).2 ⟨hwithin, hst.typed⟩)
    exact ((htypes v hv.1).tag?_resolved hv.2.twins.typeName (hbuilt.fresh hv.2.twins).2).symm
  have hslot := ((hxz.slotStorable hstore hj side).filed)
  have hold : ((h.item j).slot side).Distinguishes h.tag? :=
    Slot.Filed.distinguishes fun k v hv => (hslot k v hv).1
  have hperm := (typedInOrder_perm ((h.item j).slot side)).map h.tag?
  constructor
  · intro z hz
    have hmem := List.mem_map_of_mem (f := fun z => ((F₀.group z).resolved resolver).tag?) hz
    rw [← htags, hperm.mem_iff] at hmem
    obtain ⟨v, hv, hvz⟩ := List.mem_map.1 hmem
    rw [← hvz]
    exact hold.tagged v hv
  · rw [← htags, hperm.nodup_iff]
    exact hold.distinct

end Resolve

/-- Mates in the resolved heap have been visited. -/
theorem Resolved.visited {G : GroupId → Prop} {I : ItemId → Prop} (hF : Resolved F₀ resolver G I F)
    {x z : GroupId} (hxz : Mates h F g y x z) : F₀.Visited y z := by
  induction hxz with
  | root => exact .refl
  | nested side _ _ hj halike ih =>
    have hnests : F.Nests _ _ := ⟨side, mem_itemIds_of_find? hj, halike.right⟩
    exact ih.tail (.nested (hF.nests hnests))

/-- When the names have been resolved, mates have the same types. -/
theorem Rebuilt.finished_resolved (hbuilt : Rebuilt h F₀ g y d) (hstore : h.Storable g)
    (hg : (h.group g).above = none) (htypes : ∀ x, h.Within g x → (h.group x).TypedBy resolver)
    (hF : Resolved F₀ resolver (F₀.Visited y) (F₀.VisitedItem y) F) : Finished h F g y where
  grows := by
    refine hbuilt.grows.trans hF.grows ?_ ?_
    · exact fun z hin hz => hbuilt.fresh_visited hstore hg hz hin
    · exact fun i hin hi => hbuilt.fresh_visitedItem hstore hg hi hin
  root := hbuilt.root hF.retains
  above := (hF.links y).1.trans hbuilt.above
  types x z hxz := by
    have hz := hF.visited hxz
    obtain ⟨among, htwins⟩ := hxz.twins hstore (hbuilt.root hF.retains)
    have hname : (h.group x).typeName = (F₀.group z).typeName :=
      htwins.typeName.trans (Group.of_core (hF.core z)).2.1
    have huntyped := hbuilt.tidy.untyped z (hbuilt.fresh_visited hstore hg hz)
    rw [hF.group z hz]
    exact (htypes x hxz.within).type_resolved hname huntyped
  filed x z hxz j hj side k w hw := by
    rw [hF.itemIds] at hj
    have hvisited : F₀.VisitedItem y j := ⟨z, hF.visited hxz, hj⟩
    have hnested : w ∈ (F₀.item j).nested := by
      rw [Item.mem_nested]
      refine ⟨side, ?_⟩
      rw [← ((hF.same j).slot side).groups]
      exact Slot.mem_groups_of_find? hw
    unfold tag?
    rw [hF.group w (hvisited.visited hnested)]
    exact hF.filed j hvisited side k w hw

/-! ### Restoring -/

/-- A description that has been read is built. -/
theorem exists_rebuilt (hstore : h.Storable g) (hrec : h.Records [] g d) (hierarchy : Hierarchy) :
    ∃ y F₀ ds, h.restoreDescription d hierarchy = (y, ⟨F₀, ds⟩) ∧ Rebuilt h F₀ g y d := by
  obtain ⟨y, F₀, ds, hrun, hgrows, hmade⟩ :=
    exists_made (fun s => hrec.makes s hstore .refl) h hierarchy
  refine ⟨y, F₀, ds, hrun, hgrows, hmade.tidy, hrec, fun F hF => hmade.built F ?_, hmade.above,
    hmade.below⟩
  exact hF.mono (Nat.zero_le _) (Nat.zero_le _) fun _ _ _ hno => hno.elim

section Outcome

variable {input v : Value} {options : RawOptions} {o : Options} {ds : List Diagnostic}
  (ho : options.resolve = .ok o) (hread : Description.read input = .ok (v, d))
  (hsuper : d.superTypeName = none) (hrun : h.restoreDescription d o.hierarchy = (y, ⟨F₀, ds⟩))

include ho hread hsuper hrun

/-- Without resolving, what has been built is the answer. -/
theorem restore_deferred (hdefer : o.restore.resolvesNames = false) (resolver : Option Resolver) :
    h.restore input options resolver = { heap := F₀, diagnostics := ds, answer := .ok y } := by
  unfold restore
  simp only [ho, hdefer, hread, hsuper, hrun]
  cases resolver <;> rfl

/-- With resolving, the names of what has been built are resolved. -/
theorem restore_resolved (hresolve : o.restore.resolvesNames = true) (resolver : Resolver) :
    h.restore input options (some resolver) =
      { heap := (F₀.resolveNames y resolver).heap
        diagnostics := ds
        answer := (F₀.resolveNames y resolver).answer.map fun _ => y } := by
  unfold restore
  simp only [ho, hresolve, hread, hsuper, hrun]
  rfl

end Outcome

theorem answer_of_toOption {α : Type} {r : Except Error α} {a : α} (hr : r.toOption = some a) :
    r = .ok a := by
  cases r with
  | ok b => exact congrArg Except.ok (Option.some.inj hr)
  | error e => cases hr

/-- Where there is an answer, the options are valid, a description that has no super type has been
read, and there is a resolver if type names are resolved. -/
theorem exists_read_of_restore {input : Value} {options : RawOptions} {resolver : Option Resolver}
    (hanswer : (h.restore input options resolver).answer = .ok y) :
    ∃ o v d, options.resolve = .ok o ∧ (o.restore.resolvesNames = true → resolver.isSome = true) ∧
      Description.read input = .ok (v, d) ∧ d.superTypeName = none := by
  unfold restore at hanswer
  cases ho : options.resolve with
  | error e =>
    simp only [ho] at hanswer
    cases hanswer
  | ok o =>
    by_cases hconfig : o.restore.resolvesNames ∧ resolver.isNone
    · simp only [ho, hconfig, and_self, if_true] at hanswer
      cases hanswer
    cases hread : Description.read input with
    | error e =>
      simp only [ho, if_neg hconfig, hread] at hanswer
      cases hanswer
    | ok r =>
      obtain ⟨v, d⟩ := r
      cases hsuper : d.superTypeName with
      | some n =>
        simp only [ho, if_neg hconfig, hread, hsuper, Option.isSome_some, if_true] at hanswer
        cases hanswer
      | none =>
        refine ⟨o, v, d, rfl, fun hresolve => ?_, rfl, hsuper⟩
        rw [Option.isSome_iff_ne_none]
        exact fun hnone => hconfig ⟨hresolve, by rw [hnone]; rfl⟩

/-- **What is restored is finished.** -/
theorem exists_finished (hg : (h.group g).above = none) (hstore : h.Storable g)
    (hrec : h.Records [] g d) {input v : Value} {options : RawOptions} {o : Options}
    {resolver : Option Resolver} (ho : options.resolve = .ok o) (htypes : h.Revives g o resolver)
    (hread : Description.read input = .ok (v, d)) :
    ∃ y, (h.restore input options resolver).answer = .ok y ∧
      Finished h (h.restore input options resolver).heap g y := by
  obtain ⟨y, F₀, ds, hrun, hbuilt⟩ := exists_rebuilt hstore hrec o.hierarchy
  have hsuper : d.superTypeName = none := by
    rw [hrec.recorded.super, siblingTypeName, hg]
    rfl
  refine ⟨y, ?_⟩
  cases htypes with
  | deferred hdefer htypes =>
    rw [restore_deferred ho hread hsuper hrun hdefer]
    exact ⟨rfl, hbuilt.finished_deferred hstore htypes⟩
  | resolved hresolve htypes =>
    obtain ⟨F, hF, hresolved⟩ := resolveNames_resolved
      (fun _ hz => hbuilt.resolvable hstore hg htypes hz)
      fun _ hi side => hbuilt.distinguishes hstore hg htypes hi side
    rw [restore_resolved ho hread hsuper hrun hresolve, hF]
    exact ⟨rfl, hbuilt.finished_resolved hstore hg htypes hresolved⟩

/-- **Restoring undoes describing**: a group that can be stored has a description, and restoring
this, stored as data or as text, gives a group that equals the first one, with the same name, type
name, flag and kind wherever the two correspond.  The heap keeps what it held before.

That the tree of the group is well formed is the invariant of the operations: they build no other
trees (`Reachable.wellFormedBelow`). -/
theorem restore_description (hwf : h.WellFormedBelow g) (hg : (h.group g).above = none)
    (hstore : h.Storable g) {options : RawOptions} {o : Options} {resolver : Option Resolver}
    (ho : options.resolve = .ok o) (htypes : h.Revives g o resolver) :
    ∃ d, h.description g = .ok d ∧ ∀ input, Stores input d →
      ∃ y F, (h.restore input options resolver).answer = .ok y ∧
        (h.restore input options resolver).heap = F ∧ Grows Nothing Nothing h F ∧
        F.groupsAgree (some y) (some g) = true ∧
        ∀ x z, F.Corresponds g y x z →
          (F.group z).name = (F.group x).name ∧ (F.group z).typeName = (F.group x).typeName ∧
          (F.group z).validated = (F.group x).validated ∧
          (F.variantOf z).kind = (F.variantOf x).kind := by
  obtain ⟨d, hd, hrec⟩ := description_records (fun x hx => (hstore.group x hx).noProto)
    hstore.acyclic
  refine ⟨d, hd, fun input hinput => ?_⟩
  obtain ⟨d', hread, hrec'⟩ := hrec.read_stored hstore.writable hinput
  obtain ⟨y, hanswer, hF⟩ := exists_finished hg hstore hrec' ho htypes hread
  exact ⟨y, _, hanswer, rfl, hF.grows, hF.equal hwf hg hstore,
    fun x z hxz => hF.surface hwf hg hstore hxz⟩

/-- An order with lines of two types, one of them extending the other, and with keys; `typeOf` tells
which type names are resolved. -/
def order (typeOf : String → Option ObjectType) : Heap :=
  let tag (n : String) : TypeTag := ((typeOf n).map TypeTag.type).getD (.name n)
  { groups := #[
      { name := "order", typeName := some "Order", type := typeOf "Order",
        items := .ofList [("lines", ⟨0⟩)] },
      { name := "line", typeName := some "Line", type := typeOf "Line", validated := true,
        below := some (.ofList [⟨2⟩]), nestedIn := some ⟨0⟩, variant := ⟨1⟩,
        items := .ofList [("price", ⟨1⟩)] },
      { name := "gift", typeName := some "Gift", type := typeOf "Gift", above := some ⟨1⟩,
        nestedIn := some ⟨0⟩, items := .ofList [("card", ⟨2⟩)] },
      { name := "position", nestedIn := some ⟨0⟩, items := .ofList [("number", ⟨3⟩)] }]
    items := #[
      { name := "lines", owner := ⟨0⟩, key := { primary := some ⟨3⟩ },
        value := ⟨some ⟨1⟩, some (.ofList [(tag "Gift", ⟨2⟩), (tag "Line", ⟨1⟩)])⟩ },
      { name := "price", owner := ⟨1⟩ },
      { name := "card", owner := ⟨2⟩ },
      { name := "number", owner := ⟨3⟩ }]
    variants := #[.generic, .load] }

theorem restore_description_order :
    (∃ d y, let h := order fun _ => none
      let r := h.restore d.toValue {} none
      h.description ⟨0⟩ = .ok d ∧ r.answer = .ok y ∧
        r.heap.groupsAgree (some y) (some ⟨0⟩) = true) ∧
    ∃ d y, let h := order fun n => some (.root n n)
      let r := h.restore (.text (Json.toText d.toValue))
        { restore := [("resolveTypes", .bool true)] }
        (some fun n => .ok (.root n n))
      h.description ⟨0⟩ = .ok d ∧ r.answer = .ok y ∧
        r.heap.groupsAgree (some y) (some ⟨0⟩) = true := by
  constructor
  · have hwf : (order fun _ => none).WellFormed := by decide
    have hstore : (order fun _ => none).Storable ⟨0⟩ :=
      storable_of_later hwf.closed (by decide) (by decide)
    have hdefer : (order fun _ => none).Revives ⟨0⟩ {} none :=
      .deferred rfl fun x _ => forall_group (P := fun x => x.type = none) rfl (by decide) x
    have hoptions : ({} : RawOptions).resolve = .ok {} := rfl
    obtain ⟨d, hd, hrestored⟩ :=
      restore_description (hwf.below (by decide)) rfl hstore hoptions hdefer
    obtain ⟨y, F, hanswer, rfl, -, hequal, -⟩ := hrestored _ (.inl rfl)
    exact ⟨d, y, hd, hanswer, hequal⟩
  · have hwf : (order fun n => some (.root n n)).WellFormed := by decide
    have hstore : (order fun n => some (.root n n)).Storable ⟨0⟩ :=
      storable_of_later hwf.closed (by decide) (by decide)
    have htyped : ∀ x, ((order fun n => some (.root n n)).group x).type =
        ((order fun n => some (.root n n)).group x).typeName.map fun n => .root n n := fun x =>
      forall_group (P := fun x => x.type = x.typeName.map fun n => .root n n) rfl (by decide) x
    have hresolve :
        (order fun n => some (.root n n)).Revives ⟨0⟩ { restore := { resolvesNames := true } }
          (some fun n => .ok (.root n n)) := by
      refine .resolved rfl fun x _ => ?_
      cases hn : ((order fun n => some (.root n n)).group x).typeName with
      | none => exact .inl ⟨hn, by rw [htyped, hn]; rfl⟩
      | some n => exact .inr ⟨n, .root n n, hn, by rw [htyped, hn]; rfl, rfl⟩
    have hoptions : ({ restore := [("resolveTypes", .bool true)] } : RawOptions).resolve =
      .ok { restore := { resolvesNames := true } } := rfl
    obtain ⟨d, hd, hrestored⟩ :=
      restore_description (hwf.below (by decide)) rfl hstore hoptions hresolve
    obtain ⟨y, F, hanswer, rfl, -, hequal, -⟩ := hrestored _ (.inr rfl)
    exact ⟨d, y, hd, hanswer, hequal⟩

end Heap

end AttributeGraph
