/-
When a validation enters a group, and what becomes of it.

`EntersAt` follows a run into its tasks up to a moment at which a group is entered.
A group that is entered under a profile has each of its items looked up, and an item
whose attribute the profile does not have is reported (`ReportsItem`).

A run changes its state in a few places only.  So whatever holds at its end and did not
at its start comes about when a group is entered or settled, or when something is
reported (`Checks.turns`).  Of failures this says that they are those of the reported
items (`Checks.reports_of_mem_failures`), and of flags that a group gets one at the end
of looking up its items, if no failure was added meanwhile
(`Checks.exists_enters_of_flagged`); so none of its items is reported
(`ReportsItem.not_flagged`).  While no failure is added, every group that is entered
gets flagged unless its type cannot be described (`Checks.flagged_or_unresolved`).
-/
import AttributeGraph.Proofs.Walks

namespace AttributeGraph

open ValidationState

variable {h : Heap} {profileOf : ObjectType → Option TypeProfile} {maxDepth depth depth' : Nat}
  {ts : List CheckTask} {t : CheckTask} {r r₁ r' s s' : ValidationState} {root g x y : GroupId}
  {i : ItemId} {d : TypeProfile} {implied implied' : Option ObjectType} {f : Failure}

/-! ### Entering a group -/

/-- A run of the given tasks enters a group: as which type, at which depth, and in what state. -/
inductive EntersAt (h : Heap) (profileOf : ObjectType → Option TypeProfile) (maxDepth : Nat) :
    List CheckTask → ValidationState → GroupId → Option ObjectType → Nat → ValidationState → Prop
  /-- The group is the first task. -/
  | here {g : GroupId} {implied : Option ObjectType} {depth : Nat} {rest : List CheckTask}
      {r : ValidationState} (hnew : ¬ r.Done g) :
      EntersAt h profileOf maxDepth (.group g implied depth :: rest) r g implied depth r
  /-- It is entered when the first task is done. -/
  | later {t : CheckTask} {rest : List CheckTask} {r r₁ s : ValidationState} {x : GroupId}
      {implied : Option ObjectType} {depth : Nat} (hfirst : Checks h profileOf maxDepth [t] r r₁)
      (hrest : EntersAt h profileOf maxDepth rest r₁ x implied depth s) :
      EntersAt h profileOf maxDepth (t :: rest) r x implied depth s
  /-- It is entered while the items of another group are looked up. -/
  | items {g x : GroupId} {implied implied' : Option ObjectType} {depth depth' : Nat}
      {rest : List CheckTask} {d : TypeProfile} {r s : ValidationState} (hnew : ¬ r.Done g)
      (hprofile : h.profileFor profileOf g implied = some d)
      (hitems : EntersAt h profileOf maxDepth (h.itemChecks g d depth) (r.enter g) x implied'
        depth' s) :
      EntersAt h profileOf maxDepth (.group g implied depth :: rest) r x implied' depth' s
  /-- It is entered from a group below or above it. -/
  | links {g x : GroupId} {implied implied' : Option ObjectType} {depth depth' : Nat}
      {rest : List CheckTask} {d : TypeProfile} {r r₁ s : ValidationState} (hnew : ¬ r.Done g)
      (hprofile : h.profileFor profileOf g implied = some d)
      (hitems : Checks h profileOf maxDepth (h.itemChecks g d depth) (r.enter g) r₁)
      (hlinks : EntersAt h profileOf maxDepth (h.linkChecks g d depth)
        (r₁.settle g r.failures.length) x implied' depth' s) :
      EntersAt h profileOf maxDepth (.group g implied depth :: rest) r x implied' depth' s
  /-- It is nested in an item. -/
  | nested {g x : GroupId} {i : ItemId} {d : TypeProfile} {implied' : Option ObjectType}
      {depth depth' : Nat} {rest : List CheckTask} {a : AttributeInfo} {r s : ValidationState}
      (hsome : d.attribute? (h.item i).name = some a)
      (hnested : EntersAt h profileOf maxDepth (h.nestedChecks maxDepth i a depth) r x implied'
        depth' s) :
      EntersAt h profileOf maxDepth (.item g i d depth :: rest) r x implied' depth' s

/-- A run of the given tasks reports an item: it enters the group under a profile that does not have
the attribute. -/
def ReportsItem (h : Heap) (profileOf : ObjectType → Option TypeProfile) (maxDepth : Nat)
    (ts : List CheckTask) (r : ValidationState) (x : GroupId) (i : ItemId) (d : TypeProfile) :
    Prop :=
  ∃ implied depth s, EntersAt h profileOf maxDepth ts r x implied depth s ∧
    h.profileFor profileOf x implied = some d ∧ i ∈ (h.group x).itemIds ∧
    d.attribute? (h.item i).name = none

/-- How a state goes on for a group that has been entered and left: it is not flagged any more. -/
structure Outlasts (x : GroupId) (r r' : ValidationState) : Prop where
  heap : r.heap.Flagging r'.heap
  visited : r.visited ⊆ r'.visited
  failures : r.failures <+: r'.failures
  flagged : r'.heap.Flagged x ↔ r.heap.Flagged x

namespace Outlasts

theorem trans (h₁ : Outlasts x r r₁) (h₂ : Outlasts x r₁ r') : Outlasts x r r' :=
  ⟨h₁.heap.trans h₂.heap, List.Subset.trans h₁.visited h₂.visited, h₁.failures.trans h₂.failures,
    h₂.flagged.trans h₁.flagged⟩

theorem of_extends (hext : r.Extends r') (hx : x ∈ r.visited) : Outlasts x r r' :=
  ⟨hext.heap, hext.visited, hext.failures, hext.flagged_iff hx⟩

/-- Settling another group does not matter. -/
theorem settle (r : ValidationState) (hne : x ≠ g) (n : Nat) : Outlasts x r (r.settle g n) := by
  have hvisited : (r.settle g n).visited = r.visited := visited_settle
  have hfailures : (r.settle g n).failures = r.failures := failures_settle
  refine ⟨heap_settle r g n, fun y hy => hvisited.symm ▸ hy, hfailures ▸ List.prefix_rfl,
    flagged_settle.trans ⟨fun hx => ?_, .inl⟩⟩
  exact hx.resolve_right fun hno => hne hno.1

end Outlasts

namespace EntersAt

variable (henters : EntersAt h profileOf maxDepth ts r x implied depth s)

include henters

/-- The group has not been entered before. -/
theorem new : ¬ s.Done x := by
  induction henters with
  | here hnew => exact hnew
  | later _ _ ih | items _ _ _ ih | links _ _ _ _ ih | nested _ _ ih => exact ih

/-- **Whatever a run enters it also leaves**, and after that the group is not flagged any more. -/
theorem exists_run (hrun : Checks h profileOf maxDepth ts r r') :
    ∃ s', Checks h profileOf maxDepth [.group x implied depth] s s' ∧ r.Extends s ∧
      x ∈ s'.visited ∧ Outlasts x s' r' := by
  induction henters generalizing r' with
  | @here g implied depth rest r hnew =>
    obtain ⟨s', hfirst, hrest⟩ := hrun.exists_of_cons
    have hx : g ∈ s'.visited := by
      rcases hfirst.done_of_mem List.mem_cons_self with hflag | hx
      · exact ((hfirst.extension.flagged g hflag).resolve_left fun hno => hnew (.inl hno)).1
      · exact hx
    exact ⟨s', hfirst, .refl r, hx, .of_extends hrest.extension hx⟩
  | later hfirst _ ih =>
    obtain ⟨r₁, hfirst', hrest⟩ := hrun.exists_of_cons
    obtain rfl := hfirst.unique hfirst'
    obtain ⟨s', hrun', hext, hx, hout⟩ := ih hrest
    exact ⟨s', hrun', hfirst.extension.trans hext, hx, hout⟩
  | @items g x implied implied' depth depth' rest d r s hnew hprofile hitems ih =>
    obtain ⟨r₁, r₂, -, hitems', hlinks, hrest⟩ := hrun.exists_of_enter hnew hprofile
    obtain ⟨s', hrun', hext, hx, hout⟩ := ih hitems'
    have hne : x ≠ g := by
      rintro rfl
      exact hitems.new (.inr (hext.visited List.mem_cons_self))
    have hx₁ : x ∈ (r₁.settle g r.failures.length).visited := by
      rw [visited_settle]
      exact hout.visited hx
    exact ⟨s', hrun', (Extends.enter r g).trans hext, hx,
      (hout.trans (.settle r₁ hne _)).trans
        (.of_extends (hlinks.extension.trans hrest.extension) hx₁)⟩
  | @links g x implied implied' depth depth' rest d r r₁ s hnew hprofile hitems _ ih =>
    obtain ⟨_, r₂, -, hitems', hlinks, hrest⟩ := hrun.exists_of_enter hnew hprofile
    obtain rfl := hitems.unique hitems'
    obtain ⟨s', hrun', hext, hx, hout⟩ := ih hlinks
    exact ⟨s', hrun', (hitems.extension.settle (fun hno => hnew (.inr hno)) _).trans hext, hx,
      hout.trans (.of_extends hrest.extension (hout.visited hx))⟩
  | @nested g x i d implied' depth depth' rest a r s hsome _ ih =>
    obtain ⟨r₁, hnested, hrest⟩ := hrun.exists_of_known hsome
    obtain ⟨s', hrun', hext, hx, hout⟩ := ih hnested
    exact ⟨s', hrun', hext, hx, hout.trans (.of_extends hrest.extension (hout.visited hx))⟩

/-- What is entered while the items of an entered group are looked up is entered by the run. -/
theorem trans_items (hprofile : h.profileFor profileOf x implied = some d)
    (hitems : EntersAt h profileOf maxDepth (h.itemChecks x d depth) (s.enter x) y implied' depth'
      s') :
    EntersAt h profileOf maxDepth ts r y implied' depth' s' := by
  induction henters with
  | here hnew => exact .items hnew hprofile hitems
  | later hfirst _ ih => exact .later hfirst (ih hprofile hitems)
  | items hnew hprofile' _ ih => exact .items hnew hprofile' (ih hprofile hitems)
  | links hnew hprofile' hitems' _ ih => exact .links hnew hprofile' hitems' (ih hprofile hitems)
  | nested hsome _ ih => exact .nested hsome (ih hprofile hitems)

/-- A group is entered on a way from the root. -/
theorem exists_way (hts : ∀ t ∈ ts, OnWay h profileOf maxDepth root r.visited t) :
    ∃ trail, h.Way profileOf maxDepth root (x :: trail) implied depth := by
  induction henters with
  | here hnew =>
    obtain ⟨trail, hway, -⟩ := (hts _ List.mem_cons_self).enter fun hno => hnew (.inr hno)
    exact ⟨trail, hway⟩
  | later hfirst _ ih =>
    exact ih fun t ht => (hts t (List.mem_cons_of_mem _ ht)).mono hfirst.extension.visited
  | items hnew hprofile _ ih =>
    obtain ⟨trail, hway, hnodup, hentered⟩ :=
      (hts _ List.mem_cons_self).enter fun hno => hnew (.inr hno)
    exact ih (onWay_enter hway hnodup hentered hprofile).1
  | links hnew hprofile hitems _ ih =>
    obtain ⟨trail, hway, hnodup, hentered⟩ :=
      (hts _ List.mem_cons_self).enter fun hno => hnew (.inr hno)
    refine ih fun t ht => ((onWay_enter hway hnodup hentered hprofile).2 t ht).mono ?_
    rw [visited_settle]
    exact hitems.extension.visited
  | @nested g x i d implied' depth depth' rest a r s hsome _ ih =>
    refine ih fun t ht => ?_
    obtain ⟨hdepth, side, y, hy, rfl⟩ := mem_nestedChecks ht
    cases hts _ List.mem_cons_self with
    | item hway hnodup hentered hprofile hi =>
      exact .group (.nested hway hprofile hi hsome hdepth side hy) hnodup hentered

end EntersAt

/-! ### What is reported -/

/-- Looking up an item that is not known adds its failure at some moment. -/
theorem Checks.exists_fail (hrun : Checks h profileOf maxDepth ts r r')
    (ht : .item x i d depth ∈ ts) (hnone : d.attribute? (h.item i).name = none) :
    ∃ s, r.Extends s ∧ (s.fail (h.unknownAttribute x i d)).Extends r' := by
  obtain ⟨before, after, rfl⟩ := List.append_of_mem ht
  obtain ⟨s, hbefore, hrun⟩ := hrun.exists_of_append
  cases hrun with
  | unknown _ hrest => exact ⟨s, hbefore.extension, hrest.extension⟩
  | known hsome =>
    rw [hnone] at hsome
    cases hsome

/-- An item that is not known adds to the failures. -/
theorem Checks.failures_ne (hrun : Checks h profileOf maxDepth ts r r')
    (ht : .item x i d depth ∈ ts) (hnone : d.attribute? (h.item i).name = none) :
    r'.failures.length ≠ r.failures.length := by
  obtain ⟨s, hbefore, hafter⟩ := hrun.exists_fail ht hnone
  have hle := hbefore.failures.length_le
  have hlt := hafter.failures.length_le
  rw [ValidationState.fail, List.length_append, List.length_singleton] at hlt
  omega

theorem mem_itemChecks (hi : i ∈ (h.group x).itemIds) :
    .item x i d depth ∈ h.itemChecks x d depth := List.mem_map.2 ⟨i, hi, rfl⟩

/-- An entry of a group under a profile, in full: its items are looked up, and it is settled. -/
theorem EntersAt.exists_items (henters : EntersAt h profileOf maxDepth ts r x implied depth s)
    (hrun : Checks h profileOf maxDepth ts r r')
    (hprofile : h.profileFor profileOf x implied = some d) :
    ∃ s₁, h.HasGroup x ∧ Checks h profileOf maxDepth (h.itemChecks x d depth) (s.enter x) s₁ ∧
      Outlasts x (s₁.settle x s.failures.length) r' := by
  obtain ⟨s', hrun', -, -, hout⟩ := henters.exists_run hrun
  obtain ⟨s₁, s₂, hin, hitems, hlinks, hrest⟩ := hrun'.exists_of_enter henters.new hprofile
  have hlater := hlinks.extension.trans hrest.extension
  refine ⟨s₁, hin, hitems, Outlasts.trans (.of_extends hlater ?_) hout⟩
  rw [visited_settle]
  exact hitems.extension.visited List.mem_cons_self

/-- **A group with a reported item is not flagged.** -/
theorem ReportsItem.not_flagged (hreports : ReportsItem h profileOf maxDepth ts r x i d)
    (hrun : Checks h profileOf maxDepth ts r r') : ¬ r'.heap.Flagged x := by
  obtain ⟨implied, depth, s, henters, hprofile, hi, hnone⟩ := hreports
  obtain ⟨s₁, -, hitems, hout⟩ := henters.exists_items hrun hprofile
  have hne : s₁.failures.length ≠ s.failures.length := hitems.failures_ne (mem_itemChecks hi) hnone
  rw [hout.flagged, settle_of_ne hne, hitems.extension.flagged_iff List.mem_cons_self]
  exact fun hno => henters.new (.inl hno)

/-- What is reported is a failure. -/
theorem ReportsItem.mem_failures (hreports : ReportsItem h profileOf maxDepth ts r x i d)
    (hrun : Checks h profileOf maxDepth ts r r') : h.unknownAttribute x i d ∈ r'.failures := by
  obtain ⟨implied, depth, s, henters, hprofile, hi, hnone⟩ := hreports
  obtain ⟨s₁, -, hitems, hout⟩ := henters.exists_items hrun hprofile
  obtain ⟨s₂, -, hafter⟩ := hitems.exists_fail (mem_itemChecks hi) hnone
  refine hout.failures.subset ?_
  rw [failures_settle]
  exact hafter.failures.subset (List.mem_append_right _ (List.mem_singleton.2 rfl))

/-! ### Where a property comes about -/

/-- A moment of a run at which its state gets a property: a group is entered or settled, or there is
something to report. -/
inductive Turns (h : Heap) (profileOf : ObjectType → Option TypeProfile) (maxDepth : Nat)
    (ts : List CheckTask) (r : ValidationState) (p : ValidationState → Prop) : Prop
  | enter {x : GroupId} {implied : Option ObjectType} {depth : Nat} {s : ValidationState}
      (henters : EntersAt h profileOf maxDepth ts r x implied depth s) (hbefore : ¬ p s)
      (hafter : p (s.enter x))
  /-- The type of a group cannot be described. -/
  | emit {x : GroupId} {implied : Option ObjectType} {depth : Nat} {s : ValidationState}
      (henters : EntersAt h profileOf maxDepth ts r x implied depth s)
      (hnone : h.profileFor profileOf x implied = none) (hbefore : ¬ p (s.enter x))
      (hafter : p ((s.enter x).emit (h.unresolvedType x implied)))
  /-- The items of a group have been looked up. -/
  | settle {x : GroupId} {implied : Option ObjectType} {depth : Nat} {d : TypeProfile}
      {s s₁ : ValidationState} (henters : EntersAt h profileOf maxDepth ts r x implied depth s)
      (hprofile : h.profileFor profileOf x implied = some d)
      (hitems : Checks h profileOf maxDepth (h.itemChecks x d depth) (s.enter x) s₁)
      (hbefore : ¬ p s₁) (hafter : p (s₁.settle x s.failures.length))
  /-- An item of a group that is entered, or one among the tasks, is not known. -/
  | fail {x : GroupId} {i : ItemId} {d : TypeProfile} {s : ValidationState}
      (hitem : ReportsItem h profileOf maxDepth ts r x i d ∨
        (∃ depth, .item x i d depth ∈ ts) ∧ d.attribute? (h.item i).name = none)
      (hbefore : ¬ p s) (hafter : p (s.fail (h.unknownAttribute x i d)))

/-- A moment of a part of a run is one of the run. -/
theorem Turns.imp {p : ValidationState → Prop} {ts' : List CheckTask} {s : ValidationState}
    (hturns : Turns h profileOf maxDepth ts r p)
    (henters : ∀ {x implied depth s₁}, EntersAt h profileOf maxDepth ts r x implied depth s₁ →
      EntersAt h profileOf maxDepth ts' s x implied depth s₁)
    (hitems : ∀ {x i d depth}, .item x i d depth ∈ ts → d.attribute? (h.item i).name = none →
      ReportsItem h profileOf maxDepth ts' s x i d ∨ ∃ depth, .item x i d depth ∈ ts') :
    Turns h profileOf maxDepth ts' s p := by
  cases hturns with
  | enter hx hbefore hafter => exact .enter (henters hx) hbefore hafter
  | emit hx hnone hbefore hafter => exact .emit (henters hx) hnone hbefore hafter
  | settle hx hprofile hrun hbefore hafter =>
    exact .settle (henters hx) hprofile hrun hbefore hafter
  | fail hitem hbefore hafter =>
    refine .fail ?_ hbefore hafter
    rcases hitem with ⟨implied, depth, s₁, hx, hrest⟩ | ⟨⟨depth, ht⟩, hnone⟩
    · exact .inl ⟨implied, depth, s₁, henters hx, hrest⟩
    · exact (hitems ht hnone).imp_right fun ht => ⟨ht, hnone⟩

theorem Turns.later {p : ValidationState → Prop} (hfirst : Checks h profileOf maxDepth [t] r r₁)
    (hrest : Turns h profileOf maxDepth ts r₁ p) : Turns h profileOf maxDepth (t :: ts) r p :=
  hrest.imp (.later hfirst) fun ht _ => .inr ⟨_, List.mem_cons_of_mem t ht⟩

/-- **What holds at the end of a run and not at its start comes about at some moment.** -/
theorem Checks.turns {p : ValidationState → Prop} (hrun : Checks h profileOf maxDepth ts r r')
    (hbefore : ¬ p r) (hafter : p r') : Turns h profileOf maxDepth ts r p := by
  induction hrun with
  | nil r => exact absurd hafter hbefore
  | skip hdone _ ih => exact .later (.skip hdone (.nil _)) (ih hbefore hafter)
  | @unresolved g implied depth rest r r' hin hnew hnone _ ih =>
    by_cases hentered : p (r.enter g)
    · exact .enter (.here hnew) hbefore hentered
    by_cases hemitted : p ((r.enter g).emit (h.unresolvedType g implied))
    · exact .emit (.here hnew) hnone hentered hemitted
    · exact .later (.unresolved hin hnew hnone (.nil _)) (ih hemitted hafter)
  | @enter g implied depth rest d r r₁ r₂ r' hin hnew hprofile hitems hlinks _ ihitems ihlinks
      ihrest =>
    by_cases hentered : p (r.enter g)
    · exact .enter (.here hnew) hbefore hentered
    by_cases hlooked : p r₁
    · refine (ihitems hentered hlooked).imp (.items hnew hprofile) fun ht hnone => .inl ?_
      obtain ⟨i, hi, heq⟩ := List.mem_map.1 ht
      obtain ⟨rfl, rfl, rfl, -⟩ := CheckTask.item.inj heq
      exact ⟨implied, depth, r, .here hnew, hprofile, hi, hnone⟩
    by_cases hsettled : p (r₁.settle g r.failures.length)
    · exact .settle (.here hnew) hprofile hitems hlooked hsettled
    by_cases hlinked : p r₂
    · refine (ihlinks hsettled hlinked).imp (.links hnew hprofile hitems) fun ht _ => ?_
      rcases List.mem_append.1 ht with ht | ht <;>
        (obtain ⟨_, _, hno⟩ := List.mem_map.1 ht; cases hno)
    · exact .later (.enter hin hnew hprofile hitems hlinks (.nil _)) (ihrest hlinked hafter)
  | @unknown g i d depth rest r r' hnone _ ih =>
    by_cases hfailed : p (r.fail (h.unknownAttribute g i d))
    · exact .fail (.inr ⟨⟨depth, List.mem_cons_self⟩, hnone⟩) hbefore hfailed
    · exact .later (.unknown hnone (.nil _)) (ih hfailed hafter)
  | @known g i d depth rest a r r₁ r' hsome hnested _ ihnested ihrest =>
    by_cases hdone : p r₁
    · refine (ihnested hbefore hdone).imp (.nested hsome) fun ht _ => ?_
      obtain ⟨_, _, _, _, hno⟩ := mem_nestedChecks ht
      cases hno
    · exact .later (.known hsome hnested (.nil _)) (ihrest hdone hafter)

/-- A failure is an earlier one, or an item of a group or among the tasks is not known. -/
theorem Checks.reports_of_mem_failures (hrun : Checks h profileOf maxDepth ts r r')
    (hbefore : f ∉ r.failures) (hf : f ∈ r'.failures) :
    ∃ x i d, f = h.unknownAttribute x i d ∧ (ReportsItem h profileOf maxDepth ts r x i d ∨
      (∃ depth, .item x i d depth ∈ ts) ∧ d.attribute? (h.item i).name = none) := by
  cases hrun.turns (p := fun r => f ∈ r.failures) hbefore hf with
  | enter _ hno hf => exact absurd hf hno
  | emit _ _ hno hf => exact absurd hf hno
  | settle _ _ _ hno hf =>
    rw [failures_settle] at hf
    exact absurd hf hno
  | @fail x i d s hitem hno hf =>
    refine ⟨x, i, d, ?_, hitem⟩
    exact List.mem_singleton.1 ((List.mem_append.1 hf).resolve_left hno)

/-! ### What is flagged -/

/-- **A group is flagged when looking up its items has added no failure.** -/
theorem Checks.exists_enters_of_flagged (hrun : Checks h profileOf maxDepth ts r r')
    (hx : r'.heap.Flagged x) (hnew : ¬ r.heap.Flagged x) :
    ∃ implied depth s s₁ d, EntersAt h profileOf maxDepth ts r x implied depth s ∧
      h.profileFor profileOf x implied = some d ∧
      Checks h profileOf maxDepth (h.itemChecks x d depth) (s.enter x) s₁ ∧
      s₁.failures = s.failures ∧ s₁.heap.Flagging r'.heap := by
  cases hrun.turns (p := fun r => r.heap.Flagged x) hnew hx with
  | enter _ hno hflag => exact absurd hflag hno
  | emit _ _ hno hflag => exact absurd hflag hno
  | @settle g implied depth d s s₁ henters hprofile hitems hno hflag =>
    obtain ⟨rfl, hlength, -⟩ := (flagged_settle.1 hflag).resolve_left hno
    obtain ⟨_, -, hitems', hout⟩ := henters.exists_items hrun hprofile
    obtain rfl := hitems.unique hitems'
    have hfailures := hitems.extension.failures.eq_of_length hlength.symm
    exact ⟨implied, depth, s, s₁, d, henters, hprofile, hitems, hfailures.symm,
      (heap_settle _ _ _).trans hout.heap⟩
  | fail _ hno hflag => exact absurd hflag hno

/-- A group that has been entered was entered at some moment. -/
theorem Checks.exists_enters (hrun : Checks h profileOf maxDepth ts r r') (hx : x ∈ r'.visited)
    (hnew : x ∉ r.visited) :
    ∃ implied depth s, EntersAt h profileOf maxDepth ts r x implied depth s := by
  cases hrun.turns (p := fun r => x ∈ r.visited) hnew hx with
  | @enter g implied depth s henters hno hx =>
    obtain rfl := (List.mem_cons.1 hx).resolve_right hno
    exact ⟨implied, depth, s, henters⟩
  | emit _ _ hno hx => exact absurd hx hno
  | settle _ _ _ hno hx =>
    rw [visited_settle] at hx
    exact absurd hx hno
  | fail _ hno hx => exact absurd hx hno

/-- A run enters a group whose type cannot be described. -/
def EntersUnresolved (h : Heap) (profileOf : ObjectType → Option TypeProfile) (maxDepth : Nat)
    (ts : List CheckTask) (r : ValidationState) (x : GroupId) : Prop :=
  ∃ implied depth s, EntersAt h profileOf maxDepth ts r x implied depth s ∧
    h.profileFor profileOf x implied = none

/-- **While no failure is added, the groups that are entered get flagged**, unless their types
cannot be described. -/
theorem Checks.flagged_or_unresolved (hrun : Checks h profileOf maxDepth ts r r')
    (hheap : h.Flagging r.heap) (hclean : r'.failures = r.failures) (hx : x ∈ r'.visited)
    (hnew : x ∉ r.visited) :
    r'.heap.Flagged x ∨ EntersUnresolved h profileOf maxDepth ts r x := by
  obtain ⟨implied, depth, s, henters⟩ := hrun.exists_enters hx hnew
  cases hprofile : h.profileFor profileOf x implied with
  | none => exact .inr ⟨implied, depth, s, henters, hprofile⟩
  | some d =>
    obtain ⟨_, -, hbefore, -, -⟩ := henters.exists_run hrun
    obtain ⟨s₁, hin, hitems, hout⟩ := henters.exists_items hrun hprofile
    -- no failure has been added up to the end, so none while the items are looked up
    have hlength : s₁.failures.length = s.failures.length := by
      have hle := hbefore.failures.length_le
      have hle₁ : s.failures.length ≤ s₁.failures.length := hitems.extension.failures.length_le
      have hle₂ := hout.failures.length_le
      rw [failures_settle, hclean] at hle₂
      omega
    have hheap₁ : h.Flagging s₁.heap := (hheap.trans hbefore.heap).trans hitems.extension.heap
    exact .inl (hout.heap.flags x
      (flagged_settle.2 (.inr ⟨rfl, hlength, (hheap₁.hasGroup x).2 hin⟩)))

/-! ### Reaching further from flagged groups -/

/-- A run leaves a group out of what it takes the flag of another one to say, though the group is
nested there: it does not look at groups nested so deep, or the group cannot be described, or it was
entered before. -/
def LeavesOut (h : Heap) (profileOf : ObjectType → Option TypeProfile) (maxDepth : Nat)
    (ts : List CheckTask) (r : ValidationState) (x y : GroupId) : Prop :=
  ∃ implied depth s, EntersAt h profileOf maxDepth ts r x implied depth s ∧
    (maxDepth ≤ depth ∨ EntersUnresolved h profileOf maxDepth ts r y ∨ y ∈ s.visited)

/-- Looking up an item that is known enters the groups nested in it, unless it has been done. -/
theorem Checks.done_of_item {a : AttributeInfo} (hrun : Checks h profileOf maxDepth ts r r')
    (ht : .item x i d depth ∈ ts) (hsome : d.attribute? (h.item i).name = some a)
    (hdepth : depth + 1 ≤ maxDepth) {side : Side} (hy : y ∈ ((h.item i).slot side).groups) :
    r'.Done y := by
  obtain ⟨before, after, rfl⟩ := List.append_of_mem ht
  obtain ⟨s, -, hrun⟩ := hrun.exists_of_append
  obtain ⟨r₁, hnested, hrest⟩ := hrun.exists_of_known hsome
  exact hrest.extension.done (hnested.done_of_mem (group_mem_nestedChecks hdepth side hy))

/-- **Groups nested in a flagged group are flagged, or they are left out.** -/
theorem Checks.flagged_or_leavesOut (hrun : Checks h profileOf maxDepth ts r r')
    (hheap : h.Flagging r.heap) (hx : r'.heap.Flagged x) (hnew : ¬ r.heap.Flagged x)
    (hxy : h.Nests x y) :
    r'.heap.Flagged y ∨ LeavesOut h profileOf maxDepth ts r x y := by
  obtain ⟨implied, depth, s, s₁, d, henters, hprofile, hitems, hclean, hlast⟩ :=
    hrun.exists_enters_of_flagged hx hnew
  obtain ⟨s', -, hbefore, -⟩ := henters.exists_run hrun
  obtain ⟨side, hi, hy⟩ := hxy
  cases ha : d.attribute? (h.item _).name with
  | none => exact absurd (congrArg List.length hclean) (hitems.failures_ne (mem_itemChecks hi) ha)
  | some a =>
    by_cases hdepth : depth + 1 ≤ maxDepth
    · rcases hitems.done_of_item (mem_itemChecks hi) ha hdepth hy with hflag | hvisited
      · exact .inl (hlast.flags y hflag)
      · by_cases hentered : y ∈ (s.enter x).visited
        · rcases List.mem_cons.1 hentered with rfl | hentered
          · exact .inl hx
          · exact .inr ⟨implied, depth, s, henters, .inr (.inr hentered)⟩
        · rcases hitems.flagged_or_unresolved (hheap.trans hbefore.heap) hclean hvisited hentered
            with hflag | hunresolved
          · exact .inl (hlast.flags y hflag)
          · obtain ⟨implied', depth', s', henters', hnone⟩ := hunresolved
            exact .inr ⟨implied, depth, s, henters,
              .inr (.inl ⟨implied', depth', s', henters.trans_items hprofile henters', hnone⟩)⟩
    · exact .inr ⟨implied, depth, s, henters, .inl (by omega)⟩

/-! ### Validations -/

namespace Heap

/-- A validation reports an item of a group, looked up in a profile. -/
def Reported (h : Heap) (profileOf : ObjectType → Option TypeProfile) (maxDepth : Nat)
    (root x : GroupId) (i : ItemId) (d : TypeProfile) : Prop :=
  ReportsItem h profileOf maxDepth [.group root none 0] { heap := h } x i d

/-- **The failures of a validation are those of the items that it reports.** -/
theorem mem_failures_validationEnd (hclosed : h.Closed) (hin : h.HasGroup root) :
    f ∈ (h.validationEnd root profileOf maxDepth).failures ↔
      ∃ x i d, h.Reported profileOf maxDepth root x i d ∧ f = h.unknownAttribute x i d := by
  have hrun := checks_validationEnd hclosed hin (.refl h) profileOf maxDepth
  constructor
  · intro hf
    obtain ⟨x, i, d, rfl, hreports | ⟨⟨depth, hno⟩, -⟩⟩ :=
      hrun.reports_of_mem_failures List.not_mem_nil hf
    · exact ⟨x, i, d, hreports, rfl⟩
    · cases List.mem_singleton.1 hno
  · rintro ⟨x, i, d, hreports, rfl⟩
    exact hreports.mem_failures hrun

end Heap

end AttributeGraph
