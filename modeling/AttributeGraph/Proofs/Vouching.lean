/-
What the flag of a group vouches for.

A validation flags a group when the groups nested in it have brought no failure.  It
does not bring them all: groups may be nested too deep, have types that nobody can
describe, or have been entered before and be passed over.  Along the nested groups that
a validation does look into (`LooksInto`), flags go from group to group, and so no item
of a group that is reached from a flagged one is reported (`not_reported_of_flagged`).
Along others a flagged group may well lead to a group with a failure, in each of the
three ways (`flag_misleads`).
-/
import AttributeGraph.Proofs.Encounters

namespace AttributeGraph

open ValidationState

namespace Heap

variable {h : Heap} {profileOf : ObjectType → Option TypeProfile} {maxDepth : Nat}
  {root x y z : GroupId} {policy : ValidationPolicy}

/-- A group is nested in another one, and a validation does not leave it out there, or flags it all
the same. -/
def LooksInto (h : Heap) (profileOf : ObjectType → Option TypeProfile) (maxDepth : Nat)
    (root x y : GroupId) : Prop :=
  h.Nests x y ∧ (LeavesOut h profileOf maxDepth [.group root none 0] { heap := h } x y →
    (h.validationEnd root profileOf maxDepth).heap.Flagged y)

/-- The flag of a group goes on to the groups that a validation looks into from there. -/
theorem flagged_of_looksInto (hclosed : h.Closed) (hin : h.HasGroup root)
    (hunflagged : ∀ x, ¬ h.Flagged x)
    (hx : (h.validationEnd root profileOf maxDepth).heap.Flagged x)
    (hxy : h.LooksInto profileOf maxDepth root x y) :
    (h.validationEnd root profileOf maxDepth).heap.Flagged y := by
  have hrun := checks_validationEnd hclosed hin (.refl h) profileOf maxDepth
  rcases hrun.flagged_or_leavesOut (.refl h) hx (hunflagged x) hxy.1 with hy | hleft
  · exact hy
  · exact hxy.2 hleft

/-- **From a flagged group a validation has looked into no group with a failure.**  The groups that
are reached are flagged, and none of their items is among those that the failures are about. -/
theorem not_reported_of_flagged (hclosed : h.Closed) (hin : h.HasGroup root)
    (hunflagged : ∀ x, ¬ h.Flagged x) (hx : (h.validate root profileOf policy).heap.Flagged x)
    (hreach : Relation.ReflTransGen (h.LooksInto profileOf policy.maxDepth root) x z) :
    (h.validate root profileOf policy).heap.Flagged z ∧
      (∀ i d, ¬ h.Reported profileOf policy.maxDepth root z i d) ∧
      ∀ f, f ∈ (h.validationEnd root profileOf policy.maxDepth).failures ↔
        ∃ y i d, h.Reported profileOf policy.maxDepth root y i d ∧
          f = h.unknownAttribute y i d := by
  rw [heap_validate] at hx ⊢
  have hrun := checks_validationEnd hclosed hin (.refl h) profileOf policy.maxDepth
  have hz : (h.validationEnd root profileOf policy.maxDepth).heap.Flagged z := by
    induction hreach with
    | refl => exact hx
    | tail _ hyz ih => exact flagged_of_looksInto hclosed hin hunflagged ih hyz
  exact ⟨hz, fun i d hreports => hreports.not_flagged hrun hz,
    fun _ => mem_failures_validationEnd hclosed hin⟩

/-- Sites have a main building and a wing, which are sites again. -/
def siteTypes : Registry :=
  let site := .root "Site" "Site"
  (default : Registry).register site none
    [⟨"main", some site, none⟩, ⟨"wing", some site, none⟩, ⟨"name", none, none⟩]

/-- A site with a main building that has a wing of its own, and with a gate, which no site has. -/
def estate : Heap where
  groups := #[
    { name := "site", type := some (.root "Site" "Site")
      items := .ofList [("main", ⟨0⟩), ("gate", ⟨1⟩)] },
    { name := "main", nestedIn := some ⟨0⟩, items := .ofList [("wing", ⟨2⟩)] },
    { name := "wing", nestedIn := some ⟨2⟩, items := .ofList [("name", ⟨3⟩)] }]
  items := #[
    { name := "main", owner := ⟨0⟩, value := { primary := some ⟨1⟩ } },
    { name := "gate", owner := ⟨0⟩ },
    { name := "wing", owner := ⟨1⟩, value := { primary := some ⟨2⟩ } },
    { name := "name", owner := ⟨2⟩ }]
  variants := #[.generic]

/-- The main building is flagged, and its wing is looked into. -/
theorem not_reported_of_flagged_estate :
    let policy : ValidationPolicy := { reaction := .warn }
    let outcome := estate.validate ⟨0⟩ siteTypes.profile? policy
    (estate.Closed ∧ (∀ x, ¬ estate.Flagged x) ∧ outcome.heap.Flagged ⟨1⟩ ∧
        estate.LooksInto siteTypes.profile? policy.maxDepth ⟨0⟩ ⟨1⟩ ⟨2⟩) ∧
      outcome.answer = .ok [{
        path := "gate"
        message := "Attribute 'gate' is not defined on Site"
        typeName := some "Site" }] ∧
      ∀ i d, ¬ estate.Reported siteTypes.profile? policy.maxDepth ⟨0⟩ ⟨2⟩ i d := by
  have hunflagged : ∀ x, ¬ estate.Flagged x :=
    forall_group (P := fun x => ¬ x.validated = true) (by decide) (by decide)
  have hlooks : estate.LooksInto siteTypes.profile? 32 ⟨0⟩ ⟨1⟩ ⟨2⟩ :=
    ⟨.intro .value (i := ⟨2⟩) (by decide) (by decide), fun _ => by decide⟩
  have hflag : (estate.validate ⟨0⟩ siteTypes.profile? { reaction := .warn }).heap.Flagged ⟨1⟩ := by
    decide
  obtain ⟨-, hnone, -⟩ := not_reported_of_flagged (by decide) (by decide) hunflagged hflag
    (.single hlooks)
  exact ⟨⟨by decide, hunflagged, hflag, hlooks⟩, rfl, hnone⟩

/-! ### What is left out -/

/-- A validation of a heap without flags flags a group from which nested groups lead to one of which
it reports an item. -/
def FlagMisleads (h : Heap) (root : GroupId) (policy : ValidationPolicy) : Prop :=
  h.Closed ∧ (∀ x, ¬ h.Flagged x) ∧ ∃ x z i d,
    (h.validate root siteTypes.profile? policy).heap.Flagged x ∧ h.Within x z ∧
      h.Reported siteTypes.profile? policy.maxDepth root z i d

/-- A site with the given items, which shares its wing with the main building.  The wing has a
gate. -/
def sharedWing (items : List (String × ItemId)) : Heap where
  groups := #[
    { name := "site", type := some (.root "Site" "Site"), items := .ofList items },
    { name := "main", nestedIn := some ⟨0⟩, items := .ofList [("wing", ⟨2⟩)] },
    { name := "wing", nestedIn := some ⟨1⟩, items := .ofList [("gate", ⟨3⟩)] }]
  items := #[
    { name := "main", owner := ⟨0⟩, value := { primary := some ⟨1⟩ } },
    { name := "wing", owner := ⟨0⟩, value := { primary := some ⟨2⟩ } },
    { name := "wing", owner := ⟨1⟩, value := { primary := some ⟨2⟩ } },
    { name := "gate", owner := ⟨2⟩ }]
  variants := #[.generic]

/-- A site that shares its wing with the wing of the main building, of whose type nothing is
known. -/
def hiddenWing : Heap where
  groups := #[
    { name := "site", type := some (.root "Site" "Site")
      items := .ofList [("main", ⟨0⟩), ("wing", ⟨1⟩)] },
    { name := "main", nestedIn := some ⟨0⟩, items := .ofList [("wing", ⟨2⟩)] },
    { name := "annex", type := some (.root "Annex" "Annex"), nestedIn := some ⟨2⟩
      items := .ofList [("wing", ⟨3⟩)] },
    { name := "wing", nestedIn := some ⟨1⟩, items := .ofList [("gate", ⟨4⟩)] }]
  items := #[
    { name := "main", owner := ⟨0⟩, value := { primary := some ⟨1⟩ } },
    { name := "wing", owner := ⟨0⟩, value := { primary := some ⟨3⟩ } },
    { name := "wing", owner := ⟨1⟩, value := { primary := some ⟨2⟩ } },
    { name := "wing", owner := ⟨2⟩, value := { primary := some ⟨3⟩ } },
    { name := "gate", owner := ⟨3⟩ }]
  variants := #[.generic]

theorem flagMisleads_of {i : ItemId} (hclosed : h.Closed)
    (hunflagged : ∀ g ∈ h.groupIds, ¬ h.Flagged g)
    (hx : (h.validate root siteTypes.profile? policy).heap.Flagged x) (hxz : h.Within x z)
    (hreported : ∃ d, h.Reported siteTypes.profile? policy.maxDepth root z i d) :
    h.FlagMisleads root policy := by
  obtain ⟨d, hreported⟩ := hreported
  exact ⟨hclosed, forall_group (P := fun x => ¬ x.validated = true) (by decide) hunflagged,
    x, z, i, d, hx, hxz, hreported⟩

/-- **The flag of a group need not vouch for all groups below it.**  The main building is flagged
each time, although the gate of the wing is reported: the wing lies too deep there, or behind a
group that cannot be described, or has been entered before. -/
theorem flag_misleads :
    (sharedWing [("main", ⟨0⟩), ("wing", ⟨1⟩)]).FlagMisleads ⟨0⟩ { maxDepth := 1 } ∧
      hiddenWing.FlagMisleads ⟨0⟩ {} ∧
      (sharedWing [("wing", ⟨1⟩), ("main", ⟨0⟩)]).FlagMisleads ⟨0⟩ {} := by
  -- the wing is entered from the site, after the main building or before it
  have hdeep : ∃ d, (sharedWing [("main", ⟨0⟩), ("wing", ⟨1⟩)]).Reported siteTypes.profile? 1 ⟨0⟩
      ⟨2⟩ ⟨3⟩ d :=
    ⟨_, _, _, _, .items (by decide) rfl (.later (.known rfl (.enter (by decide) (by decide) rfl
      (.known rfl (.nil _) (.nil _)) (.nil _) (.nil _)) (.nil _))
      (.nested rfl (.here (by decide)))), rfl, by decide, rfl⟩
  have hhidden : ∃ d, hiddenWing.Reported siteTypes.profile? 32 ⟨0⟩ ⟨3⟩ ⟨4⟩ d :=
    ⟨_, _, _, _, .items (by decide) rfl (.later (.known rfl (.enter (by decide) (by decide) rfl
      (.known rfl (.unresolved (by decide) (by decide) rfl (.nil _)) (.nil _)) (.nil _) (.nil _))
      (.nil _)) (.nested rfl (.here (by decide)))), rfl, by decide, rfl⟩
  have hagain : ∃ d, (sharedWing [("wing", ⟨1⟩), ("main", ⟨0⟩)]).Reported siteTypes.profile? 32 ⟨0⟩
      ⟨2⟩ ⟨3⟩ d :=
    ⟨_, _, _, _, .items (by decide) rfl (.nested rfl (.here (by decide))), rfl, by decide, rfl⟩
  have hnests (items : List (String × ItemId)) : (sharedWing items).Nests ⟨1⟩ ⟨2⟩ :=
    .intro .value (i := ⟨2⟩) List.mem_cons_self List.mem_cons_self
  have hwithin : hiddenWing.Within ⟨1⟩ ⟨3⟩ :=
    .head (b := ⟨2⟩) (.intro .value (i := ⟨2⟩) (by decide) (by decide))
      (.single (.intro .value (i := ⟨3⟩) (by decide) (by decide)))
  exact ⟨flagMisleads_of (by decide) (by decide) (by decide) (.single (hnests _)) hdeep,
    flagMisleads_of (by decide) (by decide) (by decide) hwithin hhidden,
    flagMisleads_of (by decide) (by decide) (by decide) (.single (hnests _)) hagain⟩

end Heap

end AttributeGraph
