/-
Super groups of what has been restored.

A restored group lies below the first other group of its slot that has the type
name that its description names.  The links are made one by one from these names,
and nothing asks where they lead: descriptions that name each other give groups
each of which is the super group of the other one (`super_groups_tangled`).

Whether this happens can be told from the description alone.  `superPlace` is
where a link leads in a slot, and a description is `Untangled` if in every slot
the links come to an end.  Building follows them place by place
(`SlotBuilt.above`), so the groups have chains of super groups that end exactly if
the description is untangled (`endsAbove_iff_untangled`).
-/
import AttributeGraph.Proofs.Inheritance
import AttributeGraph.Proofs.Maintenance
import AttributeGraph.Proofs.Redescribing

namespace AttributeGraph

/-! ### Places in a slot -/

namespace Description

/-- The place of the description that the one at a place extends: the first other one with the type
name that it names. -/
def superPlace (ds : List Description) (i : Nat) : Option Nat :=
  (ds[i]?.bind superTypeName).bind fun n =>
    (ds.zipIdx.find? fun e => e.2 ≠ i && e.1.typeName = some n).map Prod.snd

/-- Going on from a description to the one that it extends comes to an end. -/
inductive SupersEnd (ds : List Description) : Nat → Prop
  | top {i : Nat} (hi : superPlace ds i = none) : SupersEnd ds i
  | step {i j : Nat} (hi : superPlace ds i = some j) (hj : SupersEnd ds j) : SupersEnd ds i

/-- In every slot, at every depth, going on from a description to the one that it extends comes to
an end. -/
def Untangled (d : Description) : Prop :=
  d.Everywhere fun d => ∀ a ∈ d.fields, ∀ side i, SupersEnd (a.2.groups side) i

end Description

namespace Heap

open Description (superPlace SupersEnd)

variable {base F h : Heap}

section Slot

variable {P : GroupId → Description → Prop} {s : Slot} {typed : List Description}
  {lone : Option Description} {ts ps : List BuiltGroup}

/-- A built group is linked below the one at the place of the description that its own extends. -/
theorem rel_superAmong {rs : List BuiltGroup} {ds : List Description}
    (hbuilt : List.Forall₂ (fun r d => r.superTypeName = d.superTypeName ∧
      (F.group r.group).typeName = d.typeName) rs ds)
    (hdistinct : (rs.map BuiltGroup.group).Nodup) {i : Nat} {r : BuiltGroup}
    (hr : rs[i]? = some r) :
    Option.Rel (fun j g => ∃ q, rs[j]? = some q ∧ q.group = g) (superPlace ds i)
      (F.superAmong rs r) := by
  obtain ⟨d, hd, hsuper, -⟩ := exists_right_of_getElem? hbuilt hr
  rw [superAmong, hsuper, superPlace, hd, Option.bind_some]
  cases d.superTypeName with
  | none => exact .none
  | some n =>
    rw [Option.bind_some, Option.bind_some, find?_other hdistinct hr, Option.map_map]
    -- what is built has the type name that is described
    have hfound := rel_find?_other (p := fun c => (F.group c.group).typeName = some n)
      (q := fun e => e.typeName = some n) (fun c e hce => by rw [hce.2]) hbuilt i
    refine rel_map (rel_swap hfound) ?_
    rintro ⟨e, k⟩ ⟨c, j⟩ ⟨hc, -, rfl⟩
    exact ⟨c, hc, rfl⟩

/-- **The super group of a built group stands where the description that it extends does.** -/
theorem SlotBuilt.above_rel (hs : SlotBuilt F P s typed lone ts ps)
    (hnames : ∀ z e, P z e → (F.group z).typeName = e.typeName) {i : Nat} {r : BuiltGroup}
    (hr : (ts ++ ps)[i]? = some r) :
    Option.Rel (fun j g => ∃ q, (ts ++ ps)[j]? = some q ∧ q.group = g)
      (superPlace (typed ++ lone.toList) i) (F.group r.group).above := by
  rw [hs.above r (List.mem_of_getElem? hr)]
  exact rel_superAmong (hs.built.imp fun c e hce => ⟨hce.1, hnames c.group e hce.2⟩) hs.distinct hr

/-- A built group has a chain of super groups that ends exactly if going on from its description
comes to an end. -/
theorem SlotBuilt.endsAbove_iff (hs : SlotBuilt F P s typed lone ts ps)
    (hnames : ∀ z e, P z e → (F.group z).typeName = e.typeName) {i : Nat} {r : BuiltGroup}
    (hr : (ts ++ ps)[i]? = some r) :
    F.EndsAbove r.group ↔ SupersEnd (typed ++ lone.toList) i := by
  constructor
  · rintro ⟨l, hl⟩
    generalize hg : r.group = g at hl
    induction hl generalizing i r with
    | top htop =>
      have habove := hs.above_rel hnames hr
      rw [hg, htop] at habove
      exact .top (rel_none_iff.1 habove)
    | step hstep _ ih =>
      have habove := hs.above_rel hnames hr
      rw [hg, hstep] at habove
      obtain ⟨j, hj, q, hq, hqg⟩ := exists_left_of_rel habove rfl
      exact .step hj (ih hq hqg)
  · intro hi
    induction hi generalizing r with
    | top hi =>
      have habove := hs.above_rel hnames hr
      rw [hi] at habove
      exact endsAbove_of_top (rel_none_iff.1 (rel_swap habove))
    | step hi _ ih =>
      have habove := hs.above_rel hnames hr
      obtain ⟨g, hg, q, hq, rfl⟩ := exists_left_of_rel (rel_swap habove) hi
      exact (Heap.endsAbove_iff hg).2 (ih hq)

end Slot

/-! ### Built groups -/

/-- The groups built for a slot of an untangled description, at any depth, have chains that end. -/
theorem BuiltInside.endsAbove {d : Description} {x : GroupId} (hx : BuiltInside base F d x)
    (hd : d.Untangled) : F.EndsAbove x := by
  induction hx with
  | slot ha hs hx =>
    obtain ⟨r, hr, rfl⟩ := List.mem_map.1 hx
    obtain ⟨i, hi⟩ := List.mem_iff_getElem?.1 hr
    obtain ⟨here, -⟩ := hd
    exact (hs.endsAbove_iff (fun _ _ hz => hz.group.typeName) hi).2 (here _ ha _ i)
  | nested ha he _ ih =>
    obtain ⟨-, nested⟩ := hd
    exact ih (nested _ ha _ _ he)

/-- A description is untangled if what has been built from it has chains that end. -/
theorem Built.untangled {Q : Description → Prop} {y : GroupId} {d : Description}
    (hd : d.Everywhere Q) (hy : Built base F y d)
    (hends : ∀ x, F.HasGroup x → ¬ base.HasGroup x → F.EndsAbove x) : d.Untangled := by
  induction hd generalizing y with
  | @intro d _ _ ih =>
    have hslots : ∀ a ∈ d.fields, ∀ side, ∃ ts ps s,
        SlotBuilt F (Built base F) s (a.2.typed side) (a.2.lone side) ts ps := by
      intro a ha side
      obtain ⟨e, -, -, hitem⟩ := exists_right_of_mem hy.group.items ha
      obtain ⟨ts, ps, hs⟩ := hitem.slots side
      exact ⟨ts, ps, _, hs⟩
    refine .intro (fun a ha side i => ?_) fun a ha side e he => ?_
    · obtain ⟨ts, ps, s, hs⟩ := hslots a ha side
      cases hr : (ts ++ ps)[i]? with
      | none =>
        -- behind the last place nothing is extended
        have hlength := hs.built.length_eq
        have hnone : (a.2.groups side)[i]? = none := by
          rw [List.getElem?_eq_none_iff] at hr ⊢
          exact Nat.le_trans (Nat.le_of_eq hlength.symm) hr
        refine .top ?_
        rw [superPlace, hnone]
        rfl
      | some r =>
        obtain ⟨e, -, -, hr'⟩ := exists_right_of_mem hs.built (List.mem_of_getElem? hr)
        refine (hs.endsAbove_iff (fun _ _ hz => hz.group.typeName) hr).1 (hends _ ?_ ?_)
        · exact hr'.group.inHeap
        · exact hr'.group.fresh
    · obtain ⟨ts, ps, s, hs⟩ := hslots a ha side
      obtain ⟨r, -, -, hr⟩ := exists_left_of_mem hs.built he
      exact ih a ha side e he hr

/-! ### Resolving type names -/

/-- Types have changed, and slots may hold fewer groups, but there are the same groups with the same
super groups and items, nested in the same items, items have the same owners, and groups and items
have the same names. -/
structure Retyped (a b : Heap) : Prop where
  hasGroup : ∀ x, b.HasGroup x ↔ a.HasGroup x
  hasItem : ∀ i, b.HasItem i ↔ a.HasItem i
  name : ∀ x, (b.group x).name = (a.group x).name
  above : ∀ x, (b.group x).above = (a.group x).above
  nestedIn : ∀ x, (b.group x).nestedIn = (a.group x).nestedIn
  itemIds : ∀ x, (b.group x).itemIds = (a.group x).itemIds
  itemName : ∀ i, (b.item i).name = (a.item i).name
  owner : ∀ i, (b.item i).owner = (a.item i).owner
  groups : ∀ i side, ∀ x ∈ ((b.item i).slot side).groups, x ∈ ((a.item i).slot side).groups

namespace Retyped

variable {a b c : Heap}

theorem refl (a : Heap) : Retyped a a :=
  ⟨fun _ => Iff.rfl, fun _ => Iff.rfl, fun _ => rfl, fun _ => rfl, fun _ => rfl, fun _ => rfl,
    fun _ => rfl, fun _ => rfl, fun _ _ _ hx => hx⟩

theorem trans (hab : Retyped a b) (hbc : Retyped b c) : Retyped a c where
  hasGroup x := (hbc.hasGroup x).trans (hab.hasGroup x)
  hasItem i := (hbc.hasItem i).trans (hab.hasItem i)
  name x := (hbc.name x).trans (hab.name x)
  above x := (hbc.above x).trans (hab.above x)
  nestedIn x := (hbc.nestedIn x).trans (hab.nestedIn x)
  itemIds x := (hbc.itemIds x).trans (hab.itemIds x)
  itemName i := (hbc.itemName i).trans (hab.itemName i)
  owner i := (hbc.owner i).trans (hab.owner i)
  groups i side x hx := hab.groups i side x (hbc.groups i side x hx)

theorem setType (a : Heap) (g : GroupId) (t : Option ObjectType) : Retyped a (a.setType g t) where
  hasGroup _ := hasGroup_alterGroup
  hasItem _ := Iff.rfl
  name x := group_alterGroup_field Group.name (by exact fun _ => rfl) g x
  above x := group_alterGroup_field Group.above (by exact fun _ => rfl) g x
  nestedIn x := group_alterGroup_field Group.nestedIn (by exact fun _ => rfl) g x
  itemIds x := group_alterGroup_field Group.itemIds (by exact fun _ => rfl) g x
  itemName _ := rfl
  owner _ := rfl
  groups _ _ _ hx := hx

theorem refileItem (a : Heap) (i : ItemId) : Retyped a (a.alterItem i a.refileItem) where
  hasGroup _ := Iff.rfl
  hasItem _ := hasItem_alterItem
  name _ := rfl
  above _ := rfl
  nestedIn _ := rfl
  itemIds _ := rfl
  itemName j := by
    rw [item_alterItem]
    by_cases hj : i = j ∧ a.HasItem j
    · rw [if_pos hj]
      rfl
    · rw [if_neg hj]
  owner j := by
    rw [item_alterItem]
    by_cases hj : i = j ∧ a.HasItem j
    · rw [if_pos hj]
      rfl
    · rw [if_neg hj]
  groups j side x hx := by
    rw [item_alterItem] at hx
    by_cases hj : i = j ∧ a.HasItem j
    · rw [if_pos hj, slot_refileItem] at hx
      exact mem_groups_refile hx
    · rwa [if_neg hj] at hx

theorem applyAll (resolver : Resolver) (changes : List Change) :
    Retyped a (a.applyAll resolver changes).heap :=
  keeps_applyAll (fun h g t hah => hah.trans (setType h g t))
    (fun h i hah => hah.trans (refileItem h i)) resolver changes (refl a)

theorem nests (hab : Retyped a b) {x y : GroupId} (hxy : b.Nests x y) : a.Nests x y := by
  obtain ⟨side, hi, hy⟩ := hxy
  rw [hab.itemIds] at hi
  exact ⟨side, hi, hab.groups _ side y hy⟩

theorem within (hab : Retyped a b) {x y : GroupId} (hxy : b.Within x y) : a.Within x y :=
  Relation.ReflTransGen.mono (fun _ _ => hab.nests) x y hxy

end Retyped

/-! ### Restored groups -/

variable {input v : Value} {d : Description} {options : RawOptions} {resolver : Option Resolver}
  {y : GroupId}

/-- An answer is a group that has been built; after that type names have been resolved at most. -/
theorem exists_of_restore (hread : Description.read input = .ok (v, d))
    (hanswer : (h.restore input options resolver).answer = .ok y) :
    ∃ o F ds, options.resolve = .ok o ∧ h.restoreDescription d o.hierarchy = (y, ⟨F, ds⟩) ∧
      Retyped F (h.restore input options resolver).heap := by
  obtain ⟨o, v', d', ho, hresolver, hread', hsuper⟩ := exists_read_of_restore hanswer
  obtain ⟨rfl, rfl⟩ := Prod.mk.inj (Except.ok.inj (hread.symm.trans hread'))
  obtain ⟨⟨z, F, ds⟩, hrun⟩ : ∃ r, h.restoreDescription d o.hierarchy = r := ⟨_, rfl⟩
  cases hresolve : o.restore.resolvesNames with
  | false =>
    rw [restore_deferred ho hread hsuper hrun hresolve] at hanswer ⊢
    obtain rfl := Except.ok.inj hanswer
    exact ⟨o, F, ds, ho, hrun, .refl F⟩
  | true =>
    obtain ⟨resolver, rfl⟩ := Option.isSome_iff_exists.1 (hresolver hresolve)
    rw [restore_resolved ho hread hsuper hrun hresolve] at hanswer ⊢
    have hz : y = z := by
      cases hdone : (F.resolveNames z resolver).answer with
      | ok u =>
        rw [hdone] at hanswer
        exact (Except.ok.inj hanswer).symm
      | error e =>
        rw [hdone] at hanswer
        cases hanswer
    exact ⟨o, F, ds, ho, hz ▸ hrun, .applyAll resolver _⟩

/-- **Following super groups comes to an end from every group that has been restored exactly if the
description is untangled.**  The groups below the root are among those that have been restored. -/
theorem endsAbove_iff_untangled (h : Heap) (hinput : input.Regular)
    (hread : Description.read input = .ok (v, d))
    (hanswer : (h.restore input options resolver).answer = .ok y) :
    (∀ x, (h.restore input options resolver).heap.Within y x →
      (h.restore input options resolver).heap.HasGroup x ∧ ¬ h.HasGroup x) ∧
    (d.Untangled ↔ ∀ x, (h.restore input options resolver).heap.HasGroup x → ¬ h.HasGroup x →
      (h.restore input options resolver).heap.EndsAbove x) := by
  obtain ⟨o, F, ds, -, hrun, hretyped⟩ := exists_of_restore hread hanswer
  obtain ⟨-, hparsed⟩ := Description.sameGroup_of_read hinput hread
  obtain ⟨y', F', ds', hrun', -, hmade⟩ := exists_made (fun s => hparsed.makes s) h o.hierarchy
  obtain ⟨rfl, heq⟩ := Prod.mk.inj (hrun.symm.trans hrun')
  obtain ⟨rfl, -⟩ := Restoration.mk.inj heq
  have hbuilt := hmade.built F (.refl F)
  have hends := endsAbove_congr hretyped.above
  simp only [hretyped.hasGroup, hends]
  refine ⟨fun x hx => ?_, fun hd x hx hnew => ?_, fun hall => hbuilt.untangled hparsed hall⟩
  · obtain ⟨e, -, he⟩ := hbuilt.within hparsed (hretyped.within hx)
    exact ⟨he.group.inHeap, he.group.fresh⟩
  · rcases hmade.inside F (.refl F) x hx hnew with rfl | hinside
    · exact endsAbove_of_top hmade.above
    · exact hinside.endsAbove hd

/-- A receipt with gifts, which extend the lines, and with lines, which may extend a type too. -/
def receipt (extended : Option String) : Value :=
  .object [
    ("name", .text "receipt"),
    ("attributes", .object [
      ("lines", .object [
        ("typeGroups", .array [
          .object [("name", .text "gift"), ("typeName", .text "Gift"),
            ("superTypeName", .text "Line")],
          .object ([("name", .text "line"), ("typeName", .text "Line")] ++
            Value.property "superTypeName" (extended.map .text))])])])]

/-- The gifts and the lines of the receipt. -/
def receiptLines (extended : Option String) : NestedDescription :=
  { typeGroups := some [
      { name := "gift", typeName := some "Gift", superTypeName := some "Line" },
      { name := "line", typeName := some "Line", superTypeName := extended }] }

/-- What the receipt is read as. -/
def receiptDescription (extended : Option String) : Description :=
  { name := "receipt", attributes := some [("lines", receiptLines extended)] }

theorem regular_receipt : (receipt none).Regular := by decide +kernel

theorem untangled_receiptDescription : (receiptDescription none).Untangled := by
  have hline : SupersEnd ((receiptLines none).groups .value) 1 := .top rfl
  refine .intro (List.forall_mem_singleton.2 fun side i => ?_)
    (List.forall_mem_singleton.2 fun side e he => ?_)
  · match side, i with
    | .value, 0 => exact .step rfl hline
    | .value, 1 => exact hline
    | .value, _ + 2 => exact .top rfl
    | .key, _ => exact .top rfl
  · -- nothing is nested in the lines
    have hbare : e.fields = [] := by
      cases side with
      | value =>
        rcases List.mem_cons.1 he with rfl | he
        · rfl
        · obtain rfl := List.mem_singleton.1 he
          rfl
      | key => cases he
    refine .intro ?_ ?_
    · rw [hbare]
      exact fun a ha => absurd ha List.not_mem_nil
    · rw [hbare]
      exact fun a ha => absurd ha List.not_mem_nil

/-- Where the lines extend nothing, the gifts lie below the lines, and that is the end. -/
theorem endsAbove_iff_untangled_receipt :
    let restored := Heap.empty.restore (receipt none) {} none
    restored.answer = .ok ⟨0⟩ ∧ (restored.heap.group ⟨1⟩).above = some ⟨2⟩ ∧
      ∀ x, restored.heap.HasGroup x → ¬ Heap.empty.HasGroup x → restored.heap.EndsAbove x :=
  ⟨rfl, rfl, (endsAbove_iff_untangled (d := receiptDescription none) .empty regular_receipt rfl
    rfl).2.1 untangled_receiptDescription⟩

/-- **Lines and gifts that name each other are the super groups of each other**: above either of
them there is no end. -/
theorem super_groups_tangled :
    let restored := Heap.empty.restore (receipt (some "Gift")) {} none
    restored.answer = .ok ⟨0⟩ ∧ restored.heap.Within ⟨0⟩ ⟨1⟩ ∧
      (restored.heap.group ⟨1⟩).above = some ⟨2⟩ ∧ (restored.heap.group ⟨2⟩).above = some ⟨1⟩ ∧
      ¬ restored.heap.EndsAbove ⟨1⟩ := by
  intro restored
  have hgift : (restored.heap.group ⟨1⟩).above = some ⟨2⟩ := rfl
  have hline : (restored.heap.group ⟨2⟩).above = some ⟨1⟩ := rfl
  refine ⟨rfl, .single (.intro .value (i := ⟨0⟩) (by decide) (by decide)), hgift, hline, ?_⟩
  rintro ⟨l, hl⟩
  cases hl with
  | top htop => cases htop
  | step hstep hl =>
    obtain rfl := Option.some.inj (hgift.symm.trans hstep)
    cases hl with
    | top htop => cases htop
    | step hstep hl =>
      obtain rfl := Option.some.inj (hline.symm.trans hstep)
      -- two steps further the chain would be the same one
      have hlength := congrArg List.length (hl.unique (.step hgift (.step hline hl)))
      rw [List.length_cons, List.length_cons] at hlength
      omega

end Heap

end AttributeGraph
