/-
Items of heaps that grow by operations alone.

`Operation` has one entry that gives an item to a group by hand, and it can take
the item from a group that goes on listing it.  Without it every operation keeps
items at home (`ItemsAtHome.perform`), so in every heap that the others lead to an
item is listed under its name, by its owner and by no other group; removing a path
drops what finding it tells; and what is restored there comes to lie where its
path says (`ReachableByRules.custody`).
-/
import AttributeGraph.Proofs.RestoredPlaces

namespace AttributeGraph

variable {h : Heap}

/-- Whether an operation gives an item to a group by hand. -/
def Operation.FilesItem : Operation → Prop
  | .fileItem _ _ => True
  | _ => False

namespace Heap

theorem ItemsAtHome.afterwards (hhome : h.ItemsAtHome) {r : Except Error Heap}
    (hr : ∀ c, r = .ok c → c.ItemsAtHome) : (h.afterwards r).ItemsAtHome := by
  cases r with
  | ok c => exact hr c rfl
  | error e => exact hhome

/-- **An operation keeps items at home** unless it files one by hand. -/
theorem ItemsAtHome.perform (hhome : h.ItemsAtHome) {op : Operation} (hop : ¬ op.FilesItem) :
    (h.perform op).ItemsAtHome := by
  have hkept := KeepsHomes.refl h
  cases op with
  | create name type typeName validated v => exact (hkept.allocGroup rfl v).itemsAtHome hhome
  | setName g | setValidated g | setType g | setTypeName g | setAbove g | setBelow g =>
    exact (hkept.relink g (by exact fun _ => rfl)).itemsAtHome hhome
  | setVariant g f => exact hhome
  | setRoot side i g => exact (hkept.setRoot side i g).itemsAtHome hhome
  | registerAll side i gs => exact (hkept.registerAll side i gs).itemsAtHome hhome
  | fileItem g i => exact absurd trivial hop
  | reachItem g input create =>
    refine hhome.afterwards fun c hc => ?_
    cases hr : h.reachItem g input create with
    | error e =>
      rw [hr] at hc
      cases hc
    | ok found =>
      rw [hr] at hc
      rw [← Except.ok.inj hc]
      exact hhome.reachItem hr
  | addNested side g input nested => exact hhome.afterwards fun c hc => hhome.addNested hc
  | addPaths g paths => exact hhome.addPaths g paths
  | removePath g input =>
    exact hhome.afterwards fun c hc => (keepsHomes_of_removePath hc).itemsAtHome hhome
  | insertBelow relation parent g => exact (hkept.insertBelow relation parent g).itemsAtHome hhome
  | resolveNames g resolver => exact (Retyped.applyAll resolver _).itemsAtHome hhome
  | resolveItemNames i resolver => exact (Retyped.applyAll resolver _).itemsAtHome hhome
  | copyFor root f => exact hhome.copyFor root f
  | forFetch g => exact hhome.convert g .fetch _
  | forLoad g => exact hhome.convert g .load _
  | forCopy g copies =>
    cases copies with
    | some copies => exact hhome.convert g .copy _
    | none => exact ItemsAtHome.convert (b := h.allocCopyRegistry.2) hhome g .copy _
  | validate g profileOf policy => exact (KeepsHomes.validate g profileOf policy).itemsAtHome hhome
  | restore input options resolver => exact hhome.restore input options resolver

/-- The heaps that operations lead to if none of them files an item by hand, starting from the one
without nodes. -/
inductive ReachableByRules : Heap → Prop
  | empty : ReachableByRules empty
  | step {h : Heap} {op : Operation} (hreach : ReachableByRules h) (hop : h.Admits op)
      (hfile : ¬ op.FilesItem) : ReachableByRules (h.perform op)

namespace ReachableByRules

theorem reachable (hreach : h.ReachableByRules) : h.Reachable := by
  induction hreach with
  | empty => exact .empty
  | step _ hop _ ih => exact .step ih hop

/-- **Items are at home in every heap that such operations lead to.** -/
theorem itemsAtHome (hreach : h.ReachableByRules) : h.ItemsAtHome := by
  induction hreach with
  | empty => exact fun g i hi => absurd (hasGroup_of_mem_itemIds hi) (Nat.not_lt_zero _)
  | step _ _ hfile ih => exact ih.perform hfile

/-- **Items are listed under their names by their owners** and by no other groups, removing a path
drops the item that is found there, and restored groups are in their places. -/
theorem custody (hreach : h.ReachableByRules) :
    (∀ g, ∀ e ∈ (h.group g).items.entries, (h.item e.2).name = e.1 ∧ (h.item e.2).owner = g) ∧
    (∀ i x y, i ∈ (h.group x).itemIds → i ∈ (h.group y).itemIds → x = y) ∧
    (∀ g input, h.RemovesFound g input) ∧
    ∀ input options resolver root, (h.restore input options resolver).answer = .ok root →
      (h.restore input options resolver).heap.InPlaceBelow root := by
  have hhome := hreach.itemsAtHome
  have hwf := hreach.reachable.wellFormed
  refine ⟨fun g e he => ?_, fun i x y hx hy => hhome.eq_of_mem hx hy,
    hhome.removesFound hwf.named, fun input options resolver root hanswer =>
      hhome.inPlaceBelow_restore hwf hanswer⟩
  have hfound := OrderedMap.find?_eq_some_iff.2 he
  exact ⟨hwf.named g e.1 e.2 hfound, (hhome g e.2 (mem_itemIds_of_find? hfound)).2⟩

end ReachableByRules

/-- A contract with a client and a sum. -/
def contract : Heap :=
  (empty.perform (.create "contract" none none false .generic)).perform
    (.addPaths ⟨0⟩ ["client.name", "sum"])

/-- The contract without the client, and a copy for a fetch engine that was made before. -/
def contracts : Heap :=
  (contract.perform (.forFetch ⟨0⟩)).perform (.removePath ⟨0⟩ (.text "client"))

theorem reachable_contracts : contracts.ReachableByRules := by
  have hcreated : (empty.perform (.create "contract" none none false .generic)).ReachableByRules :=
    .step .empty trivial id
  have hin : (empty.perform (.create "contract" none none false .generic)).HasGroup ⟨0⟩ := by decide
  have hcontract : contract.ReachableByRules := .step hcreated hin id
  have hcopied : (contract.perform (.forFetch ⟨0⟩)).ReachableByRules := .step hcontract trivial id
  exact .step hcopied trivial id

/-- A parcel with a sender, whose homes have places for keys. -/
def parcel : Value :=
  .object [
    ("name", .text "parcel"),
    ("attributes", .object [
      ("sender", .object [
        ("group", .object [
          ("name", .text "person"),
          ("attributes", .object [
            ("home", .object [("keyGroup", .object [("name", .text "place")])])])])])])]

/-- In the copy the client's name belongs to the client, and removing its path drops it there.  The
place lies below the sender's home. -/
theorem custody_contracts :
    contracts.ReachableByRules ∧ (contracts.item ⟨4⟩).owner = ⟨3⟩ ∧
      (∃ h', contracts.removePath ⟨2⟩ (.text "client.name") = .ok h' ∧ contracts.Dropped ⟨4⟩ h') ∧
      (contracts.restore parcel {} none).answer = .ok ⟨4⟩ ∧
      ((contracts.restore parcel {} none).heap.group ⟨6⟩).nestedIn = some ⟨7⟩ ∧
      (contracts.restore parcel {} none).heap.pathTo ⟨6⟩ = Path.format ["sender", "home"] := by
  have hanswer : (contracts.restore parcel {} none).answer = .ok ⟨4⟩ :=
    answer_of_toOption (by decide +kernel)
  have hfound : contracts.reachItem ⟨2⟩ (.text "client.name") false = .ok (some ⟨4⟩, contracts) :=
    answer_of_toOption (by decide +kernel)
  have hsender : (contracts.restore parcel {} none).heap.Descends ⟨4⟩ ["sender"] ⟨5⟩ :=
    .step (q := []) .value .root (i := ⟨6⟩) (by decide +kernel) (by decide +kernel)
  obtain ⟨hlisted, -, hremoves, hrestores⟩ := reachable_contracts.custody
  have hname := hlisted ⟨3⟩ ("name", ⟨4⟩) (by decide +kernel)
  obtain ⟨-, hremoved⟩ := (hremoves ⟨2⟩ (.text "client.name")).found ⟨4⟩ contracts hfound
  have hplace := hrestores parcel {} none ⟨4⟩ hanswer ["sender"] ⟨5⟩ "home" ⟨7⟩ hsender
    (by decide +kernel) .key ⟨6⟩ (by decide +kernel)
  exact ⟨reachable_contracts, hname.2, hremoved, hanswer, hplace⟩

end Heap

end AttributeGraph
