/-
What a validation does, task by task.

A validation works off tasks: a group to enter under an implied type, or an item
to look up in the profile of its group's type.  `Checks` has a constructor for
everything that may happen to the first of them, and no fuel.  A validation only
sets flags (`Flagging`), so all else that it reads of a group is read from the
heap that it started with.

Every validation of a closed heap ends with such a run (`checks_validationEnd`):
a group that is entered is marked first, so the depth left is never less than the
number of groups without a mark.  There is no other run (`Checks.unique`).  How a
later state extends an earlier one, `Extends`, is all that most facts about runs
need.
-/
import AttributeGraph.Heap.Validation
import AttributeGraph.Proofs.Exploration
import AttributeGraph.Proofs.Growth

namespace AttributeGraph

/-! ### Tasks -/

/-- What a validation still has to do: enter a group, or look up an item of a group. -/
inductive CheckTask where
  | group (g : GroupId) (implied : Option ObjectType) (depth : Nat)
  | item (g : GroupId) (i : ItemId) (d : TypeProfile) (depth : Nat)

/-- The type that an attribute leads to on one side. -/
def AttributeInfo.targetOn (a : AttributeInfo) : Side → Option ObjectType
  | .value => a.target
  | .key => a.keyTarget

namespace Heap

/-- The profile of the type in force for a group: of its own type, or else of the implied one. -/
def profileFor (h : Heap) (profileOf : ObjectType → Option TypeProfile) (g : GroupId)
    (implied : Option ObjectType) : Option TypeProfile :=
  ((h.group g).type.or implied).bind profileOf

/-- The items of a group, to be looked up. -/
def itemChecks (h : Heap) (g : GroupId) (d : TypeProfile) (depth : Nat) : List CheckTask :=
  (h.group g).itemIds.map fun i => .item g i d depth

/-- The groups nested in an item on one side, to be entered. -/
def sideChecks (h : Heap) (side : Side) (i : ItemId) (a : AttributeInfo) (depth : Nat) :
    List CheckTask :=
  ((h.item i).slot side).groups.map fun y => .group y (a.targetOn side) (depth + 1)

/-- The groups nested in an item, to be entered unless they lie too deep. -/
def nestedChecks (h : Heap) (maxDepth : Nat) (i : ItemId) (a : AttributeInfo) (depth : Nat) :
    List CheckTask :=
  if depth + 1 ≤ maxDepth then h.sideChecks .value i a depth ++ h.sideChecks .key i a depth else []

/-- The super group and the sub groups of a group, to be entered. -/
def linkChecks (h : Heap) (g : GroupId) (d : TypeProfile) (depth : Nat) : List CheckTask :=
  ((h.group g).above.toList.map fun s => .group s (d.parent?.map TypeProfile.type) depth) ++
    (h.group g).subs.map fun s => .group s none depth

/-- What is said of an attribute that a type does not have. -/
def unknownAttribute (h : Heap) (g : GroupId) (i : ItemId) (d : TypeProfile) : Failure where
  path := Path.join (h.pathTo g) (h.item i).name
  message := s!"Attribute '{(h.item i).name}' is not defined on {d.type.name}"
  typeName := some d.type.name

/-- What is said of a group without a profile. -/
def unresolvedType (h : Heap) (g : GroupId) (implied : Option ObjectType) : Diagnostic :=
  .typeUnresolved (h.pathTo g) (h.group g).name
    ((h.group g).typeName.or (((h.group g).type.or implied).map ObjectType.name))

/-- A group is flagged as checked. -/
def Flagged (h : Heap) (g : GroupId) : Prop := (h.group g).validated = true

instance (h : Heap) (g : GroupId) : Decidable (h.Flagged g) :=
  inferInstanceAs (Decidable (_ = true))

end Heap

/-! ### States -/

namespace ValidationState

variable {r r₁ r₂ : ValidationState} {g x : GroupId} {n : Nat}

/-- A group is not entered again. -/
def Done (r : ValidationState) (g : GroupId) : Prop := r.heap.Flagged g ∨ g ∈ r.visited

instance (r : ValidationState) (g : GroupId) : Decidable (r.Done g) :=
  inferInstanceAs (Decidable (_ ∨ _))

/-- Mark a group as entered. -/
def enter (r : ValidationState) (g : GroupId) : ValidationState :=
  { r with visited := g :: r.visited }

/-- Add a failure. -/
def fail (r : ValidationState) (f : Failure) : ValidationState :=
  { r with failures := r.failures ++ [f] }

/-- Add a diagnostic. -/
def emit (r : ValidationState) (d : Diagnostic) : ValidationState :=
  { r with diagnostics := r.diagnostics ++ [d] }

/-- Flag a group if there are no more failures than before. -/
def settle (r : ValidationState) (g : GroupId) (before : Nat) : ValidationState :=
  if r.failures.length = before then { r with heap := r.heap.setValidated g true } else r

end ValidationState

/-- The runs of a validation: from what state the given tasks lead to what state. -/
inductive Checks (h : Heap) (profileOf : ObjectType → Option TypeProfile) (maxDepth : Nat) :
    List CheckTask → ValidationState → ValidationState → Prop
  /-- Nothing is left to do. -/
  | nil (r : ValidationState) : Checks h profileOf maxDepth [] r r
  /-- The group is flagged or has been entered. -/
  | skip {g : GroupId} {implied : Option ObjectType} {depth : Nat} {rest : List CheckTask}
      {r r' : ValidationState} (hdone : r.Done g) (hrest : Checks h profileOf maxDepth rest r r') :
      Checks h profileOf maxDepth (.group g implied depth :: rest) r r'
  /-- The type of the group cannot be described. -/
  | unresolved {g : GroupId} {implied : Option ObjectType} {depth : Nat} {rest : List CheckTask}
      {r r' : ValidationState} (hin : h.HasGroup g) (hnew : ¬ r.Done g)
      (hnone : h.profileFor profileOf g implied = none)
      (hrest : Checks h profileOf maxDepth rest
        ((r.enter g).emit (h.unresolvedType g implied)) r') :
      Checks h profileOf maxDepth (.group g implied depth :: rest) r r'
  /-- The items are looked up, the group is flagged if all is well, and the groups above and below
  it are entered. -/
  | enter {g : GroupId} {implied : Option ObjectType} {depth : Nat} {rest : List CheckTask}
      {d : TypeProfile} {r r₁ r₂ r' : ValidationState} (hin : h.HasGroup g) (hnew : ¬ r.Done g)
      (hprofile : h.profileFor profileOf g implied = some d)
      (hitems : Checks h profileOf maxDepth (h.itemChecks g d depth) (r.enter g) r₁)
      (hlinks : Checks h profileOf maxDepth (h.linkChecks g d depth)
        (r₁.settle g r.failures.length) r₂)
      (hrest : Checks h profileOf maxDepth rest r₂ r') :
      Checks h profileOf maxDepth (.group g implied depth :: rest) r r'
  /-- The type does not have the attribute. -/
  | unknown {g : GroupId} {i : ItemId} {d : TypeProfile} {depth : Nat} {rest : List CheckTask}
      {r r' : ValidationState} (hnone : d.attribute? (h.item i).name = none)
      (hrest : Checks h profileOf maxDepth rest (r.fail (h.unknownAttribute g i d)) r') :
      Checks h profileOf maxDepth (.item g i d depth :: rest) r r'
  /-- The type has the attribute, and the groups nested in the item are entered. -/
  | known {g : GroupId} {i : ItemId} {d : TypeProfile} {depth : Nat} {rest : List CheckTask}
      {a : AttributeInfo} {r r₁ r' : ValidationState}
      (hsome : d.attribute? (h.item i).name = some a)
      (hnested : Checks h profileOf maxDepth (h.nestedChecks maxDepth i a depth) r r₁)
      (hrest : Checks h profileOf maxDepth rest r₁ r') :
      Checks h profileOf maxDepth (.item g i d depth :: rest) r r'

/-! ### Flags -/

namespace Heap

/-- One heap has the nodes of another one, with more flags. -/
structure Flagging (a b : Heap) : Prop where
  items : b.items = a.items
  size : b.groups.size = a.groups.size
  group : ∀ g, b.group g = { a.group g with validated := (b.group g).validated }
  flags : ∀ g, a.Flagged g → b.Flagged g

variable {a b c : Heap} {g x : GroupId}

namespace Flagging

theorem refl (a : Heap) : a.Flagging a := ⟨rfl, rfl, fun _ => rfl, fun _ hg => hg⟩

theorem trans (hab : a.Flagging b) (hbc : b.Flagging c) : a.Flagging c :=
  ⟨hbc.items.trans hab.items, hbc.size.trans hab.size,
    fun g => by rw [hbc.group g, hab.group g], fun g hg => hbc.flags g (hab.flags g hg)⟩

theorem setValidated (a : Heap) (g : GroupId) : a.Flagging (a.setValidated g true) := by
  refine ⟨rfl, Array.size_modify .., fun x => ?_, fun x hx => ?_⟩
  · rw [Heap.setValidated, group_alterGroup]
    split_ifs <;> rfl
  · rw [Flagged, Heap.setValidated, group_alterGroup]
    split_ifs
    · rfl
    · exact hx

variable (hab : a.Flagging b)

include hab

theorem hasGroup (g : GroupId) : b.HasGroup g ↔ a.HasGroup g := by
  rw [HasGroup, HasGroup, hab.size]

theorem item (i : ItemId) : b.item i = a.item i := by
  rw [Heap.item, Heap.item, hab.items]

theorem climbOwners (fuel : Nat) : ∀ (seen : List GroupId) (g : GroupId) (names : List String),
    b.climbOwners fuel seen g names = a.climbOwners fuel seen g names := by
  induction fuel with
  | zero => exact fun _ _ _ => rfl
  | succ fuel ih =>
    intro seen g names
    rw [Heap.climbOwners, Heap.climbOwners, hab.group g]
    simp only [hab.item, ih]

theorem pathTo (g : GroupId) : b.pathTo g = a.pathTo g := by
  rw [Heap.pathTo, Heap.pathTo, hab.size, hab.climbOwners]

end Flagging

theorem flagged_setValidated :
    (a.setValidated g true).Flagged x ↔ a.Flagged x ∨ x = g ∧ a.HasGroup g := by
  rw [Flagged, setValidated, group_alterGroup]
  by_cases hx : g = x ∧ a.HasGroup x
  · rw [if_pos hx]
    obtain ⟨rfl, hin⟩ := hx
    exact ⟨fun _ => .inr ⟨rfl, hin⟩, fun _ => rfl⟩
  · rw [if_neg hx]
    refine ⟨.inl, fun hflag => hflag.resolve_right fun hno => hx ?_⟩
    exact ⟨hno.1.symm, hno.1 ▸ hno.2⟩

end Heap

/-! ### How a state extends another one -/

namespace ValidationState

variable {r r₁ r₂ : ValidationState} {g x : GroupId} {n : Nat}

/-- What lies between two states of a run. -/
structure Extends (r r' : ValidationState) : Prop where
  heap : r.heap.Flagging r'.heap
  visited : r.visited ⊆ r'.visited
  /-- Only groups that are entered in between are flagged. -/
  flagged : ∀ g, r'.heap.Flagged g → r.heap.Flagged g ∨ g ∈ r'.visited ∧ g ∉ r.visited
  failures : r.failures <+: r'.failures
  diagnostics : r.diagnostics <+: r'.diagnostics

namespace Extends

theorem refl (r : ValidationState) : r.Extends r :=
  ⟨.refl _, List.Subset.refl _, fun _ hg => .inl hg, List.prefix_rfl, List.prefix_rfl⟩

theorem trans (h₁ : r.Extends r₁) (h₂ : r₁.Extends r₂) : r.Extends r₂ := by
  refine ⟨h₁.heap.trans h₂.heap, List.Subset.trans h₁.visited h₂.visited, fun g hg => ?_,
    h₁.failures.trans h₂.failures, h₁.diagnostics.trans h₂.diagnostics⟩
  rcases h₂.flagged g hg with hg | ⟨hin, hnew⟩
  · exact (h₁.flagged g hg).imp_right fun hg => ⟨h₂.visited hg.1, hg.2⟩
  · exact .inr ⟨hin, fun hno => hnew (h₁.visited hno)⟩

theorem enter (r : ValidationState) (g : GroupId) : r.Extends (r.enter g) :=
  ⟨.refl _, fun _ hx => List.mem_cons_of_mem g hx, fun _ hx => .inl hx, List.prefix_rfl,
    List.prefix_rfl⟩

theorem fail (r : ValidationState) (f : Failure) : r.Extends (r.fail f) :=
  ⟨.refl _, List.Subset.refl _, fun _ hx => .inl hx, List.prefix_append .., List.prefix_rfl⟩

theorem emit (r : ValidationState) (d : Diagnostic) : r.Extends (r.emit d) :=
  ⟨.refl _, List.Subset.refl _, fun _ hx => .inl hx, List.prefix_rfl, List.prefix_append ..⟩

/-- A group entered before is flagged later if it was. -/
theorem flagged_iff (he : r.Extends r₁) (hx : x ∈ r.visited) :
    r₁.heap.Flagged x ↔ r.heap.Flagged x :=
  ⟨fun hflag => (he.flagged x hflag).resolve_right fun hno => hno.2 hx, he.heap.flags x⟩

/-- A group that is not entered again stays so. -/
theorem done (he : r.Extends r₁) (hx : r.Done x) : r₁.Done x :=
  hx.imp (he.heap.flags x) fun hx => he.visited hx

end Extends

theorem heap_settle (r : ValidationState) (g : GroupId) (n : Nat) :
    r.heap.Flagging (r.settle g n).heap := by
  unfold settle
  split_ifs
  · exact .setValidated _ _
  · exact .refl _

@[simp] theorem visited_settle : (r.settle g n).visited = r.visited := by
  unfold settle
  split_ifs <;> rfl

@[simp] theorem failures_settle : (r.settle g n).failures = r.failures := by
  unfold settle
  split_ifs <;> rfl

@[simp] theorem diagnostics_settle : (r.settle g n).diagnostics = r.diagnostics := by
  unfold settle
  split_ifs <;> rfl

theorem settle_of_ne (hne : r.failures.length ≠ n) : r.settle g n = r := if_neg hne

theorem flagged_settle : (r.settle g n).heap.Flagged x ↔
    r.heap.Flagged x ∨ x = g ∧ r.failures.length = n ∧ r.heap.HasGroup g := by
  unfold settle
  split_ifs with hclean
  · simp [Heap.flagged_setValidated, hclean]
  · simp [hclean]

/-- Settling a group that was entered on the way extends the state before it was entered. -/
theorem Extends.settle (he : (r.enter g).Extends r₁) (hg : g ∉ r.visited) (n : Nat) :
    r.Extends (r₁.settle g n) := by
  have hr := (Extends.enter r g).trans he
  refine ⟨hr.heap.trans (heap_settle r₁ g n), ?_, fun x hx => ?_, ?_, ?_⟩
  · rw [visited_settle]
    exact hr.visited
  · rw [visited_settle]
    rcases flagged_settle.1 hx with hx | ⟨rfl, -, -⟩
    · exact hr.flagged x hx
    · exact .inr ⟨he.visited List.mem_cons_self, hg⟩
  · rw [failures_settle]
    exact hr.failures
  · rw [diagnostics_settle]
    exact hr.diagnostics

end ValidationState

/-! ### Runs -/

namespace Checks

open ValidationState

variable {h : Heap} {profileOf : ObjectType → Option TypeProfile} {maxDepth : Nat}
  {ts ts' : List CheckTask} {r r₁ r₂ r' r'' : ValidationState} {g : GroupId} {i : ItemId}
  {implied : Option ObjectType} {depth : Nat} {d : TypeProfile} {a : AttributeInfo}

/-- A group that is new and can be described is entered in full. -/
theorem exists_of_enter (hrun : Checks h profileOf maxDepth (.group g implied depth :: ts) r r')
    (hnew : ¬ r.Done g) (hprofile : h.profileFor profileOf g implied = some d) :
    ∃ r₁ r₂, h.HasGroup g ∧ Checks h profileOf maxDepth (h.itemChecks g d depth) (r.enter g) r₁ ∧
      Checks h profileOf maxDepth (h.linkChecks g d depth) (r₁.settle g r.failures.length) r₂ ∧
      Checks h profileOf maxDepth ts r₂ r' := by
  cases hrun with
  | skip hdone => exact absurd hdone hnew
  | unresolved _ _ hnone =>
    rw [hnone] at hprofile
    cases hprofile
  | enter hin _ hprofile' hitems hlinks hrest =>
    obtain rfl := Option.some.inj (hprofile.symm.trans hprofile')
    exact ⟨_, _, hin, hitems, hlinks, hrest⟩

/-- The groups nested in an item that is known are entered. -/
theorem exists_of_known (hrun : Checks h profileOf maxDepth (.item g i d depth :: ts) r r')
    (hsome : d.attribute? (h.item i).name = some a) :
    ∃ r₁, Checks h profileOf maxDepth (h.nestedChecks maxDepth i a depth) r r₁ ∧
      Checks h profileOf maxDepth ts r₁ r' := by
  cases hrun with
  | unknown hnone =>
    rw [hnone] at hsome
    cases hsome
  | known hsome' hnested hrest =>
    obtain rfl := Option.some.inj (hsome.symm.trans hsome')
    exact ⟨_, hnested, hrest⟩

theorem append (h₁ : Checks h profileOf maxDepth ts r r₁)
    (h₂ : Checks h profileOf maxDepth ts' r₁ r') :
    Checks h profileOf maxDepth (ts ++ ts') r r' := by
  induction h₁ with
  | nil r => exact h₂
  | skip hdone _ ih => exact .skip hdone (ih h₂)
  | unresolved hin hnew hnone _ ih => exact .unresolved hin hnew hnone (ih h₂)
  | enter hin hnew hprofile hitems hlinks _ _ _ ih =>
    exact .enter hin hnew hprofile hitems hlinks (ih h₂)
  | unknown hnone _ ih => exact .unknown hnone (ih h₂)
  | known hsome hnested _ _ ih => exact .known hsome hnested (ih h₂)

/-- A run of two lists of tasks does one after the other. -/
theorem exists_of_append (hrun : Checks h profileOf maxDepth (ts ++ ts') r r') :
    ∃ r₁, Checks h profileOf maxDepth ts r r₁ ∧ Checks h profileOf maxDepth ts' r₁ r' := by
  induction ts generalizing r with
  | nil => exact ⟨r, .nil r, hrun⟩
  | cons t ts ih =>
    cases hrun with
    | skip hdone hrest =>
      obtain ⟨r₁, hfirst, hsecond⟩ := ih hrest
      exact ⟨r₁, .skip hdone hfirst, hsecond⟩
    | unresolved hin hnew hnone hrest =>
      obtain ⟨r₁, hfirst, hsecond⟩ := ih hrest
      exact ⟨r₁, .unresolved hin hnew hnone hfirst, hsecond⟩
    | enter hin hnew hprofile hitems hlinks hrest =>
      obtain ⟨r₁, hfirst, hsecond⟩ := ih hrest
      exact ⟨r₁, .enter hin hnew hprofile hitems hlinks hfirst, hsecond⟩
    | unknown hnone hrest =>
      obtain ⟨r₁, hfirst, hsecond⟩ := ih hrest
      exact ⟨r₁, .unknown hnone hfirst, hsecond⟩
    | known hsome hnested hrest =>
      obtain ⟨r₁, hfirst, hsecond⟩ := ih hrest
      exact ⟨r₁, .known hsome hnested hfirst, hsecond⟩

/-- A run does its first task first. -/
theorem exists_of_cons {t : CheckTask} (hrun : Checks h profileOf maxDepth (t :: ts) r r') :
    ∃ r₁, Checks h profileOf maxDepth [t] r r₁ ∧ Checks h profileOf maxDepth ts r₁ r' := by
  rw [← List.singleton_append] at hrun
  exact hrun.exists_of_append

/-- **A run extends the state that it starts from.** -/
theorem extension (hrun : Checks h profileOf maxDepth ts r r') : r.Extends r' := by
  induction hrun with
  | nil r => exact .refl r
  | skip _ _ ih => exact ih
  | unresolved _ _ _ _ ih => exact ((Extends.enter _ _).trans (.emit _ _)).trans ih
  | enter _ hnew _ _ _ _ ihitems ihlinks ihrest =>
    exact ((ihitems.settle (fun hno => hnew (.inr hno)) _).trans ihlinks).trans ihrest
  | unknown _ _ ih => exact (Extends.fail _ _).trans ih
  | known _ _ _ ihnested ihrest => exact ihnested.trans ihrest

/-- A group that was to be entered is not entered again. -/
theorem done_of_mem (hrun : Checks h profileOf maxDepth ts r r')
    (hg : .group g implied depth ∈ ts) : r'.Done g := by
  obtain ⟨before, after, rfl⟩ := List.append_of_mem hg
  obtain ⟨r₁, -, hrun⟩ := hrun.exists_of_append
  cases hrun with
  | skip hdone hrest => exact hrest.extension.done hdone
  | unresolved _ _ _ hrest => exact hrest.extension.done (.inr List.mem_cons_self)
  | enter _ _ _ hitems hlinks hrest =>
    refine hrest.extension.done (hlinks.extension.done (.inr ?_))
    rw [visited_settle]
    exact hitems.extension.visited List.mem_cons_self

/-- **There is one run from a state.** -/
theorem unique (hrun : Checks h profileOf maxDepth ts r r')
    (hother : Checks h profileOf maxDepth ts r r'') : r' = r'' := by
  induction hrun generalizing r'' with
  | nil r =>
    cases hother
    rfl
  | skip hdone _ ih =>
    cases hother with
    | skip _ hrest => exact ih hrest
    | unresolved _ hnew => exact absurd hdone hnew
    | enter _ hnew => exact absurd hdone hnew
  | unresolved _ hnew hnone _ ih =>
    cases hother with
    | skip hdone => exact absurd hdone hnew
    | unresolved _ _ _ hrest => exact ih hrest
    | enter _ _ hprofile =>
      rw [hnone] at hprofile
      cases hprofile
  | enter _ hnew hprofile _ _ _ ihitems ihlinks ihrest =>
    obtain ⟨_, _, -, hitems, hlinks, hrest⟩ := hother.exists_of_enter hnew hprofile
    obtain rfl := ihitems hitems
    obtain rfl := ihlinks hlinks
    exact ihrest hrest
  | unknown hnone _ ih =>
    cases hother with
    | unknown _ hrest => exact ih hrest
    | known hsome =>
      rw [hnone] at hsome
      cases hsome
  | known hsome _ _ ihnested ihrest =>
    obtain ⟨_, hnested, hrest⟩ := hother.exists_of_known hsome
    obtain rfl := ihnested hnested
    exact ihrest hrest

end Checks

/-! ### Every validation is a run -/

namespace Heap

variable {h : Heap} {profileOf : ObjectType → Option TypeProfile} {maxDepth : Nat}
  {ts ts' : List CheckTask} {r : ValidationState} {g : GroupId} {implied : Option ObjectType}
  {depth fuel : Nat} {d : TypeProfile}

/-- A computation does the given tasks. -/
def Performs (h : Heap) (profileOf : ObjectType → Option TypeProfile) (maxDepth : Nat)
    (ts : List CheckTask) (r : ValidationState) (m : Validating Unit) : Prop :=
  ∃ r', m.run r = some ((), r') ∧ Checks h profileOf maxDepth ts r r'

namespace Performs

theorem bind {m : Validating Unit} {f : Unit → Validating Unit}
    (hm : h.Performs profileOf maxDepth ts r m)
    (hf : ∀ r₁, Checks h profileOf maxDepth ts r r₁ →
      h.Performs profileOf maxDepth ts' r₁ (f ())) :
    h.Performs profileOf maxDepth (ts ++ ts') r (m >>= f) := by
  obtain ⟨r₁, hrun₁, hchecks₁⟩ := hm
  obtain ⟨r₂, hrun₂, hchecks₂⟩ := hf r₁ hchecks₁
  refine ⟨r₂, ?_, hchecks₁.append hchecks₂⟩
  rw [StateT.run_bind, hrun₁]
  exact hrun₂

/-- Tasks are done one after another, each from a state that extends the first one. -/
theorem forM {α : Type} {f : α → Validating Unit} {task : α → CheckTask} (l : List α) :
    ∀ {r : ValidationState}, (∀ x ∈ l, ∀ r₁, r.Extends r₁ →
      h.Performs profileOf maxDepth [task x] r₁ (f x)) →
    h.Performs profileOf maxDepth (l.map task) r (l.forM f) := by
  induction l with
  | nil => exact fun {r} _ => ⟨r, rfl, .nil r⟩
  | cons x l ih =>
    intro r hall
    refine Performs.bind (hall x List.mem_cons_self r (.refl r)) fun r₁ hrun => ?_
    exact ih fun y hy r₂ hext =>
      hall y (List.mem_cons_of_mem x hy) r₂ (hrun.extension.trans hext)

end Performs

/-! What the two steps do from a state that differs from the heap in its flags. -/

theorem checkGroup_of_done (hdone : r.Done g) :
    (checkGroup profileOf maxDepth (fuel + 1) g implied depth).run r = some ((), r) := by
  rw [checkGroup]
  show (if r.Done g then pure () else _ : Validating Unit).run r = _
  rw [if_pos hdone]
  rfl

theorem checkGroup_of_none (hheap : h.Flagging r.heap) (hnew : ¬ r.Done g)
    (hnone : h.profileFor profileOf g implied = none) :
    (checkGroup profileOf maxDepth (fuel + 1) g implied depth).run r =
      some ((), (r.enter g).emit (h.unresolvedType g implied)) := by
  rw [profileFor] at hnone
  rw [ValidationState.emit, ValidationState.enter, unresolvedType, ← hheap.pathTo g]
  have hgroup := hheap.group g
  rw [checkGroup]
  show (if r.Done g then pure () else _ : Validating Unit).run r = _
  rw [if_neg hnew, hgroup]
  dsimp only
  rw [hnone]
  rfl

/-- The items of a group come first; then the group is settled, and its links come last. -/
theorem checkGroup_of_some (hheap : h.Flagging r.heap) (hnew : ¬ r.Done g)
    (hprofile : h.profileFor profileOf g implied = some d) :
    (checkGroup profileOf maxDepth (fuel + 1) g implied depth).run r =
      (((h.group g).itemIds.forM fun i =>
          checkItem (checkGroup profileOf maxDepth fuel) maxDepth g i d depth).run
        (r.enter g)).bind fun a =>
      (do (h.group g).above.toList.forM fun s =>
            checkGroup profileOf maxDepth fuel s (d.parent?.map TypeProfile.type) depth
          (h.group g).subs.forM fun s =>
            checkGroup profileOf maxDepth fuel s none depth : Validating Unit).run
        (a.2.settle g r.failures.length) := by
  rw [profileFor] at hprofile
  have hgroup := hheap.group g
  rw [checkGroup]
  show (if r.Done g then pure () else _ : Validating Unit).run r = _
  rw [if_neg hnew, hgroup]
  dsimp only
  rw [hprofile]
  show Option.bind _ _ = _
  refine Option.bind_congr fun a _ => ?_
  obtain ⟨_, r₁⟩ := a
  show StateT.run (if r₁.failures.length = r.failures.length then _ else _ : Validating Unit) r₁ = _
  rw [ValidationState.settle]
  split_ifs <;> rfl

theorem checkItem_of_none {visit : Check} {i : ItemId} (hheap : h.Flagging r.heap)
    (hnone : d.attribute? (h.item i).name = none) :
    (checkItem visit maxDepth g i d depth).run r =
      some ((), r.fail (h.unknownAttribute g i d)) := by
  rw [ValidationState.fail, unknownAttribute, ← hheap.pathTo g]
  rw [checkItem, StateT.run_bind, StateT.run_get]
  show StateT.run _ r = _
  dsimp only
  rw [hheap.item, hnone]
  rfl

theorem checkItem_of_some {visit : Check} {i : ItemId} {a : AttributeInfo}
    (hheap : h.Flagging r.heap) (hsome : d.attribute? (h.item i).name = some a) :
    (checkItem visit maxDepth g i d depth).run r =
      (if depth + 1 ≤ maxDepth then do
        (h.item i).value.groups.forM fun y => visit y a.target (depth + 1)
        (h.item i).key.groups.forM fun y => visit y a.keyTarget (depth + 1)
      else pure () : Validating Unit).run r := by
  rw [checkItem, StateT.run_bind, StateT.run_get]
  show StateT.run _ r = _
  dsimp only
  rw [hheap.item, hsome]
  rfl

/-- The depth left covers the groups that have not been entered. -/
structure Ready (h : Heap) (fuel : Nat) (r : ValidationState) : Prop where
  heap : h.Flagging r.heap
  fuel : unvisited (fun _ => 1) h.groupIds r.visited < fuel

theorem Ready.extends (hready : h.Ready fuel r) {r₁ : ValidationState} (hext : r.Extends r₁) :
    h.Ready fuel r₁ :=
  ⟨hready.heap.trans hext.heap, Nat.lt_of_le_of_lt (unvisited_mono hext.visited _) hready.fuel⟩

/-- Entering a group takes one from the depth and one from the groups. -/
theorem Ready.enter (hready : h.Ready (fuel + 1) r) (hin : h.HasGroup g) (hnew : ¬ r.Done g) :
    h.Ready fuel (r.enter g) := by
  have hlt := unvisited_cons_lt (fun _ => 1) (mem_groupIds.2 hin) fun hno => hnew (.inr hno)
  have hfuel := hready.fuel
  exact ⟨hready.heap, show unvisited (fun _ => 1) h.groupIds (g :: r.visited) < fuel by omega⟩

variable {visit : Check}

/-- Groups are entered one after another. -/
theorem performs_visits (hready : h.Ready fuel r)
    (hvisit : ∀ g implied depth r, h.HasGroup g → h.Ready fuel r →
      h.Performs profileOf maxDepth [.group g implied depth] r (visit g implied depth))
    {l : List GroupId} (hl : ∀ g ∈ l, h.HasGroup g) (implied : Option ObjectType) (depth : Nat) :
    h.Performs profileOf maxDepth (l.map fun g => .group g implied depth) r
      (l.forM fun g => visit g implied depth) :=
  Performs.forM l fun g hg _ hext => hvisit g implied depth _ (hl g hg) (hready.extends hext)

theorem performs_checkItem (hclosed : h.Closed) (hready : h.Ready fuel r)
    (hvisit : ∀ g implied depth r, h.HasGroup g → h.Ready fuel r →
      h.Performs profileOf maxDepth [.group g implied depth] r (visit g implied depth))
    {i : ItemId} (hi : i ∈ (h.group g).itemIds) (d : TypeProfile) (depth : Nat) :
    h.Performs profileOf maxDepth [.item g i d depth] r (checkItem visit maxDepth g i d depth) := by
  cases hattribute : d.attribute? (h.item i).name with
  | none => exact ⟨_, checkItem_of_none hready.heap hattribute, .unknown hattribute (.nil _)⟩
  | some a =>
    have hin : ∀ side, ∀ y ∈ ((h.item i).slot side).groups, h.HasGroup y := fun side y hy =>
      hclosed.hasGroup_nested (.intro side hi hy)
    have hnested : h.Performs profileOf maxDepth (h.nestedChecks maxDepth i a depth) r
        (if depth + 1 ≤ maxDepth then do
          (h.item i).value.groups.forM fun y => visit y a.target (depth + 1)
          (h.item i).key.groups.forM fun y => visit y a.keyTarget (depth + 1)
        else pure ()) := by
      unfold nestedChecks
      split_ifs
      · refine Performs.bind (performs_visits hready hvisit (hin .value) _ _) fun r₁ hrun => ?_
        exact performs_visits (hready.extends hrun.extension) hvisit (hin .key) _ _
      · exact ⟨r, rfl, .nil r⟩
    obtain ⟨r₁, hrun, hchecks⟩ := hnested
    exact ⟨r₁, (checkItem_of_some hready.heap hattribute).trans hrun,
      .known hattribute hchecks (.nil r₁)⟩

/-- **Entering a group does the tasks that entering it takes.** -/
theorem performs_checkGroup (hclosed : h.Closed) (profileOf : ObjectType → Option TypeProfile)
    (maxDepth fuel : Nat) : ∀ (g : GroupId) (implied : Option ObjectType) (depth : Nat)
      (r : ValidationState), h.HasGroup g → h.Ready fuel r →
      h.Performs profileOf maxDepth [.group g implied depth] r
        (checkGroup profileOf maxDepth fuel g implied depth) := by
  induction fuel with
  | zero => exact fun g implied depth r _ hready => absurd hready.fuel (Nat.not_lt_zero _)
  | succ fuel ih =>
    intro g implied depth r hin hready
    by_cases hnew : r.Done g
    · exact ⟨r, checkGroup_of_done hnew, .skip hnew (.nil r)⟩
    cases hprofile : h.profileFor profileOf g implied with
    | none =>
      exact ⟨_, checkGroup_of_none hready.heap hnew hprofile,
        .unresolved hin hnew hprofile (.nil _)⟩
    | some d =>
      have hready₀ := hready.enter hin hnew
      obtain ⟨r₁, hrun₁, hitems⟩ : h.Performs profileOf maxDepth (h.itemChecks g d depth)
          (r.enter g) ((h.group g).itemIds.forM fun i =>
            checkItem (checkGroup profileOf maxDepth fuel) maxDepth g i d depth) :=
        Performs.forM _ fun i hi _ hext =>
          performs_checkItem hclosed (hready₀.extends hext) ih hi d depth
      have hready₁ : h.Ready fuel (r₁.settle g r.failures.length) := by
        have hext := hready₀.extends hitems.extension
        refine ⟨hext.heap.trans (ValidationState.heap_settle _ _ _), ?_⟩
        rw [ValidationState.visited_settle]
        exact hext.fuel
      have hgroup := hclosed.group g hin
      obtain ⟨r₂, hrun₂, hlinks⟩ : h.Performs profileOf maxDepth (h.linkChecks g d depth)
          (r₁.settle g r.failures.length) (do
            (h.group g).above.toList.forM fun s =>
              checkGroup profileOf maxDepth fuel s (d.parent?.map TypeProfile.type) depth
            (h.group g).subs.forM fun s =>
              checkGroup profileOf maxDepth fuel s none depth) := by
        refine Performs.bind (performs_visits hready₁ ih ?_ _ _) fun r₂ hrun => ?_
        · exact fun s hs => hgroup.super s (Option.mem_toList.1 hs)
        · exact performs_visits (hready₁.extends hrun.extension) ih hgroup.subs _ _
      refine ⟨r₂, ?_, .enter hin hnew hprofile hitems hlinks (.nil r₂)⟩
      rw [checkGroup_of_some hready.heap hnew hprofile, hrun₁]
      exact hrun₂

theorem unvisited_nil_le (h : Heap) :
    unvisited (fun _ => 1) h.groupIds [] ≤ h.groups.size :=
  Nat.le_of_eq (by rw [unvisited_nil, totalCost_one, groupIds, List.length_map, List.length_range])

/-- **A validation ends with the run that enters its group.**  The heap may have got flags
meanwhile; what else is read is read from the heap before. -/
theorem checks_validationEnd (hclosed : h.Closed) (hin : h.HasGroup g) {h' : Heap}
    (hflagging : h.Flagging h') (profileOf : ObjectType → Option TypeProfile) (maxDepth : Nat) :
    Checks h profileOf maxDepth [.group g none 0] { heap := h' }
      (h'.validationEnd g profileOf maxDepth) := by
  have hready : h.Ready (h'.groups.size + 2) { heap := h' } := by
    refine ⟨hflagging, ?_⟩
    have hle := unvisited_nil_le h
    rw [← hflagging.size] at hle
    exact Nat.lt_of_le_of_lt hle (by omega)
  obtain ⟨r', hrun, hchecks⟩ :=
    performs_checkGroup hclosed profileOf maxDepth _ g none 0 _ hin hready
  unfold validationEnd
  rw [hrun]
  exact hchecks

end Heap

end AttributeGraph
