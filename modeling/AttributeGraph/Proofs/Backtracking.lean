/-
Traversals that mark what is on the way, and take every mark back.

Showing a group, comparing two groups and describing a group go round in circles
where the links do, and turn back where they meet a mark.  The marks are taken back
on the way out, so they do not add up, and a group that has been left is entered
again elsewhere.  What ends such a traversal is that it goes deeper only with one
mark more: fewer groups, or pairs of groups, are left unmarked there
(`unmarked_cons_lt`), whatever was marked before.

`Settles` says that some depth is enough: with that depth, or any greater one, there
is the same outcome, and with a smaller one no other outcome.  Each traversal is
followed step by step, under arbitrary marks.  A step settles and leaves the marks
that it finds (`Backtracks`), so a sequence of steps does, and so does a step that is
taken with one mark more.

Marks are kept in a list.  Wherever one is made it is not in the list yet, so a set
of marks does as well, in which a mark that is made twice would be gone after it has
been taken back once (`Marking.within_eq_withinSet`).  The result about the
traversals is `endsUnmarked`.
-/
import AttributeGraph.Proofs.Climbing
import AttributeGraph.Proofs.Coverage
import AttributeGraph.Proofs.Exploration
import AttributeGraph.Proofs.Rendering

namespace AttributeGraph

/-! ### Outcomes that depth does not change -/

section Settles

variable {ω ω' : Type} {depth depth' fuel : Nat} {run : Nat → Option ω}
  {o : ω} {o' : ω'}

/-- With a depth, and with every greater one, there is the same outcome.  With less there is that
outcome or none. -/
def Settles (depth : Nat) (run : Nat → Option ω) (o : ω) : Prop :=
  ∀ fuel, run fuel = some o ∨ fuel < depth ∧ run fuel = none

namespace Settles

theorem const (o : ω) : Settles depth (fun _ => some o) o := fun _ => .inl rfl

theorem eq_some (hrun : Settles depth run o) (hle : depth ≤ fuel) : run fuel = some o :=
  (hrun fuel).resolve_right fun hless => Nat.not_lt_of_le hle hless.1

theorem mono (hrun : Settles depth run o) (hle : depth ≤ depth') : Settles depth' run o :=
  fun fuel => (hrun fuel).imp_right fun hless => ⟨Nat.lt_of_lt_of_le hless.1 hle, hless.2⟩

theorem bind {next : Nat → ω → Option ω'} (hrun : Settles depth run o)
    (hnext : Settles depth (fun fuel => next fuel o) o') :
    Settles depth (fun fuel => run fuel >>= next fuel) o' := by
  intro fuel
  dsimp only
  rcases hrun fuel with hsome | ⟨hlt, hnone⟩
  · rw [hsome]
    exact hnext fuel
  · rw [hnone]
    exact .inr ⟨hlt, rfl⟩

/-- Without depth there is no outcome, and with some there is that of one level less. -/
theorem succ (hzero : run 0 = none) (hrun : Settles depth (fun fuel => run (fuel + 1)) o) :
    Settles (depth + 1) run o := by
  intro fuel
  cases fuel with
  | zero => exact .inr ⟨Nat.succ_pos depth, hzero⟩
  | succ fuel => exact (hrun fuel).imp_right fun hless => ⟨Nat.succ_lt_succ hless.1, hless.2⟩

end Settles

end Settles

/-! ### Steps that leave the marks as they are -/

section Backtracks

variable {σ μ α β : Type} {view : σ → μ} {depth depth' : Nat} {marks : μ}

/-- A step settles, and the marks that it has found it leaves. -/
def Backtracks (view : σ → μ) (depth : Nat) (marks : μ) (m : Nat → StateT σ Option α) : Prop :=
  ∀ s, view s = marks → ∃ a s', view s' = marks ∧ Settles depth (fun fuel => (m fuel).run s) (a, s')

namespace Backtracks

variable {m m' : Nat → StateT σ Option α}

theorem mono (hm : Backtracks view depth marks m) (hle : depth ≤ depth') :
    Backtracks view depth' marks m := by
  intro s hs
  obtain ⟨a, s', hs', hrun⟩ := hm s hs
  exact ⟨a, s', hs', hrun.mono hle⟩

theorem succ (hzero : m 0 = failure) (hm : Backtracks view depth marks fun fuel => m (fuel + 1)) :
    Backtracks view (depth + 1) marks m := by
  intro s hs
  obtain ⟨a, s', hs', hrun⟩ := hm s hs
  exact ⟨a, s', hs', hrun.succ (by rw [hzero]; rfl)⟩

theorem pure (a : α) : Backtracks view depth marks fun _ => Pure.pure a :=
  fun s hs => ⟨a, s, hs, .const (a, s)⟩

theorem bind {f : Nat → α → StateT σ Option β} (hm : Backtracks view depth marks m)
    (hf : ∀ a, Backtracks view depth marks fun fuel => f fuel a) :
    Backtracks view depth marks fun fuel => m fuel >>= f fuel := by
  intro s hs
  obtain ⟨a, s', hs', hrun⟩ := hm s hs
  obtain ⟨b, s'', hs'', hnext⟩ := hf a s' hs'
  exact ⟨b, s'', hs'', hrun.bind hnext⟩

theorem mapM {l : List β} {f : Nat → β → StateT σ Option α}
    (hf : ∀ x ∈ l, Backtracks view depth marks fun fuel => f fuel x) :
    Backtracks view depth marks fun fuel => l.mapM (f fuel) := by
  induction l with
  | nil => exact .pure []
  | cons x l ih =>
    rw [List.forall_mem_cons] at hf
    simp only [List.mapM_cons]
    exact hf.1.bind fun a => (ih hf.2).bind fun as => .pure (a :: as)

/-- A step that depends on the marks goes one way, since they are known. -/
theorem ite {p : σ → Prop} [DecidablePred p] (hm : ∀ s, view s = marks → p s →
      Backtracks view depth marks m)
    (hm' : ∀ s, view s = marks → ¬ p s → Backtracks view depth marks m') :
    Backtracks view depth marks fun fuel => (do if p (← get) then m fuel else m' fuel) := by
  intro s hs
  by_cases hp : p s
  · obtain ⟨a, s', hs', hrun⟩ := hm s hs hp s hs
    exact ⟨a, s', hs', by simpa [StateT.run_bind, hp] using hrun⟩
  · obtain ⟨a, s', hs', hrun⟩ := hm' s hs hp s hs
    exact ⟨a, s', hs', by simpa [StateT.run_bind, hp] using hrun⟩

end Backtracks

end Backtracks

/-! ### What is left to be marked -/

/-- How many members of a list are not marked. -/
def unmarked {α : Type} [DecidableEq α] (l marks : List α) : Nat := unvisited (fun _ => 1) l marks

section Unmarked

variable {α : Type} [DecidableEq α] {l marks : List α} {a : α}

theorem unmarked_le (l marks : List α) : unmarked l marks ≤ l.length := by
  have hnil : unmarked l [] = l.length := (unvisited_nil _ l).trans (totalCost_one l)
  exact hnil ▸ unvisited_mono (List.nil_subset marks) l

/-- **With one mark more there is less to be marked.** -/
theorem unmarked_cons_lt (ha : a ∈ l) (hnew : a ∉ marks) :
    unmarked l (a :: marks) < unmarked l marks :=
  unvisited_cons_lt (fun _ => 1) ha hnew

theorem filter_ne_of_not_mem (ha : a ∉ l) : l.filter (· ≠ a) = l :=
  List.filter_eq_self.2 fun x hx => by simpa using ne_of_mem_of_not_mem hx ha

end Unmarked

/-! ### Showing a group -/

namespace Marking

variable {α : Type} {depth : Nat} {marks : List GroupId} {g : GroupId}

theorem backtracks_ite {m m' : Nat → Marking α} (hm : g ∈ marks → Backtracks id depth marks m)
    (hm' : g ∉ marks → Backtracks id depth marks m') :
    Backtracks id depth marks fun fuel => (do if ← isMarked g then m fuel else m' fuel) := by
  have hite : Backtracks id depth marks fun fuel =>
      (do if g ∈ (← get) then m fuel else m' fuel) :=
    .ite (fun s hs hg => hm (hs ▸ hg)) fun s hs hg => hm' (hs ▸ hg)
  simpa [isMarked] using hite

theorem backtracks_within {m : Nat → Marking α} (hm : Backtracks id depth (g :: marks) m) :
    Backtracks id depth marks fun fuel => within g (m fuel) := by
  rintro s rfl
  obtain ⟨a, s', hs', hrun⟩ := hm (g :: s) rfl
  obtain rfl : s' = g :: s := hs'
  have hback : Settles depth (fun _ => some (a, (g :: s).erase g)) (a, s) := by
    rw [List.erase_cons_head]
    exact .const (a, s)
  exact ⟨a, s, rfl, hrun.bind hback⟩

/-- Compute with a group marked in a set: marking it again changes nothing, and it is marked no
more afterwards, whoever has marked it. -/
def withinSet (g : GroupId) (body : Marking α) : Marking α := do
  modify (List.insert g ·)
  let a ← body
  modify (List.filter (· ≠ g) ·)
  return a

/-- **A set of marks does as well**, where the group is not marked yet. -/
theorem within_eq_withinSet {m : Nat → Marking α} (hm : Backtracks id depth (g :: marks) m)
    (hg : g ∉ marks) (fuel : Nat) :
    (within g (m fuel)).run marks = (withinSet g (m fuel)).run marks := by
  obtain ⟨a, s', hs', hrun⟩ := hm (g :: marks) rfl
  obtain rfl : s' = g :: marks := hs'
  rcases hrun fuel with hsome | ⟨-, hnone⟩
  · simpa [within, withinSet, StateT.run_bind, List.insert_of_not_mem hg, hsome] using
      (filter_ne_of_not_mem hg).symm
  · simp [within, withinSet, StateT.run_bind, List.insert_of_not_mem hg, hnone]

end Marking

namespace Heap

open Marking (backtracks_ite backtracks_within)

variable {h : Heap} {g : GroupId} {depth : Nat} {marks : List GroupId}

theorem backtracks_itemsBlock {parts : Nat → GroupId → Marking (List String)}
    (hparts : g ∉ marks → Backtracks id depth (g :: marks) fun fuel => parts fuel g) :
    Backtracks id depth marks fun fuel => itemsBlock (parts fuel) g :=
  backtracks_ite (fun _ => .pure _) fun hg => (backtracks_within (hparts hg)).bind fun _ => .pure _

theorem backtracks_itemText {i : Item} {block : Nat → GroupId → Marking String}
    (hblock : ∀ x, Backtracks id depth marks fun fuel => block fuel x) :
    Backtracks id depth marks fun fuel => itemText i (block fuel) := by
  have hvalue : Backtracks id depth marks fun fuel => i.value.primary.toList.mapM (block fuel) :=
    .mapM fun x _ => hblock x
  refine hvalue.bind fun value => ?_
  refine Backtracks.bind (.mapM fun x _ => (hblock x).bind fun _ => .pure _) fun key => ?_
  refine Backtracks.bind (.mapM fun e _ => (hblock e.2).bind fun _ => .pure _) fun typed => ?_
  exact .pure _

/-- A group that the heap does not have shows nothing. -/
theorem backtracks_itemTexts_of_not_hasGroup (hg : ¬ h.HasGroup g) :
    Backtracks id 1 marks fun fuel => h.itemTexts fuel g := by
  refine Backtracks.succ rfl ?_
  simp only [itemTexts, group_of_not_hasGroup hg]
  exact .pure []

/-- **The items of a group are shown and the marks are left**, whatever is marked. -/
theorem backtracks_itemTexts (marks : List GroupId) (g : GroupId) :
    Backtracks id (unmarked h.groupIds marks + 2) marks fun fuel => h.itemTexts fuel g := by
  induction hn : unmarked h.groupIds marks using Nat.strongRecOn generalizing marks g with
  | _ n ih =>
    -- one level down there is one mark more, and a group of the heap fewer to be marked
    have hdeeper : ∀ x, x ∉ marks →
        Backtracks id (n + 1) (x :: marks) fun fuel => h.itemTexts fuel x := by
      intro x hx
      by_cases hin : h.HasGroup x
      · have hlt := unmarked_cons_lt (mem_groupIds.2 hin) hx
        exact (ih _ (hn ▸ hlt) (x :: marks) x rfl).mono (by omega)
      · exact (backtracks_itemTexts_of_not_hasGroup hin).mono (by omega)
    refine Backtracks.succ rfl ?_
    simp only [itemTexts]
    refine Backtracks.bind (.mapM fun i _ => ?_) fun own => ?_
    · exact backtracks_itemText fun x => backtracks_itemsBlock (hdeeper x)
    · cases hs : (h.group g).above with
      | none => exact .pure own
      | some s =>
        refine backtracks_ite (fun _ => .pure own) fun hnew => ?_
        exact (backtracks_within (hdeeper s hnew)).bind fun _ => .pure _

end Heap

/-! ### Comparing two groups -/

namespace Covering

variable {depth : Nat} {marks : List (GroupId × GroupId)} {pair : GroupId × GroupId}

theorem backtracks_within {m : Nat → Covering Bool}
    (hm : Backtracks CoverageState.marks depth (pair :: marks) m) :
    Backtracks CoverageState.marks depth marks fun fuel => within pair (m fuel) := by
  rintro s rfl
  obtain ⟨r, s', hs', hrun⟩ := hm { s with marks := pair :: s.marks } rfl
  refine ⟨r, { s' with marks := s'.marks.erase pair }, ?_, hrun.bind (.const _)⟩
  show s'.marks.erase pair = s.marks
  rw [hs', List.erase_cons_head]

/-- Compare with a pair marked in a set: marking it again changes nothing, and it is marked no more
afterwards, whoever has marked it. -/
def withinSet (pair : GroupId × GroupId) (body : Covering Bool) : Covering Bool := do
  modify fun s => { s with marks := s.marks.insert pair }
  let r ← body
  modify fun s => { s with marks := s.marks.filter (· ≠ pair) }
  return r

theorem within_eq_withinSet {m : Nat → Covering Bool}
    (hm : Backtracks CoverageState.marks depth (pair :: marks) m) {s : CoverageState}
    (hs : s.marks = marks) (hpair : pair ∉ marks) (fuel : Nat) :
    (within pair (m fuel)).run s = (withinSet pair (m fuel)).run s := by
  subst hs
  obtain ⟨r, s', hs', hrun⟩ := hm { s with marks := pair :: s.marks } rfl
  rcases hrun fuel with hsome | ⟨-, hnone⟩
  · simpa [within, withinSet, StateT.run_bind, List.insert_of_not_mem hpair, hsome, hs'] using
      (filter_ne_of_not_mem hpair).symm
  · simp [within, withinSet, StateT.run_bind, List.insert_of_not_mem hpair, hnone]

/-- The first slot that does not let the comparison proceed ends it. -/
theorem backtracks_firstOf_cons {slot : Nat → Covering SlotVerdict}
    {rest : Nat → List (Covering SlotVerdict)}
    (hslot : Backtracks CoverageState.marks depth marks slot)
    (hrest : Backtracks CoverageState.marks depth marks fun fuel => firstOf (rest fuel)) :
    Backtracks CoverageState.marks depth marks fun fuel => firstOf (slot fuel :: rest fuel) := by
  refine hslot.bind fun r => ?_
  cases r with
  | proceed => exact hrest
  | fail => exact .pure _
  | shortCircuit => exact .pure _

end Covering

namespace Heap

open Covering (backtracks_firstOf_cons)

variable {h : Heap} {a : GroupId} {depth : Nat} {marks : List (GroupId × GroupId)}

section Compare

variable {compare : Nat → Compare}
  (hcompare : ∀ a o, Backtracks CoverageState.marks depth marks fun fuel => compare fuel a o)

include hcompare

theorem backtracks_coverPrimary (mine theirs : Option GroupId) :
    Backtracks CoverageState.marks depth marks fun fuel =>
      coverPrimary (compare fuel) mine theirs := by
  match mine, theirs with
  | some a, theirs => exact (hcompare a theirs).bind fun _ => .pure _
  | none, some _ => exact .pure _
  | none, none => exact .pure _

theorem backtracks_coverEntries (theirs : OrderedMap TypeTag GroupId)
    (l : List (TypeTag × GroupId)) : Backtracks CoverageState.marks depth marks fun fuel =>
      coverEntries (compare fuel) theirs l := by
  induction l with
  | nil => exact .pure _
  | cons e l ih =>
    refine (hcompare e.2 (theirs.find? e.1)).bind fun r => ?_
    cases r with
    | true => exact ih
    | false => exact .pure _

theorem backtracks_coverTyped (mine theirs : Option (OrderedMap TypeTag GroupId)) :
    Backtracks CoverageState.marks depth marks fun fuel =>
      coverTyped (compare fuel) mine theirs := by
  match mine, theirs with
  | none, _ => exact .pure _
  | some _, none => exact .pure _
  | some mine, some theirs => exact backtracks_coverEntries hcompare theirs mine.entries

theorem backtracks_coverItem (mine theirs : Item) :
    Backtracks CoverageState.marks depth marks fun fuel =>
      coverItem (compare fuel) mine theirs :=
  backtracks_firstOf_cons (backtracks_coverPrimary hcompare _ _) <|
    backtracks_firstOf_cons (backtracks_coverPrimary hcompare _ _) <|
      backtracks_firstOf_cons (backtracks_coverTyped hcompare _ _) <|
        backtracks_firstOf_cons (backtracks_coverTyped hcompare _ _) (.pure _)

theorem backtracks_coverItems (a : GroupId) (l : List (String × ItemId)) :
    Backtracks CoverageState.marks depth marks fun fuel =>
      h.coverItems (compare fuel) a l := by
  induction l with
  | nil => exact .pure true
  | cons e l ih =>
    obtain ⟨n, j⟩ := e
    cases hn : (h.group a).items.find? n with
    | none =>
      simp only [coverItems, hn]
      exact .pure false
    | some i =>
      simp only [coverItems, hn]
      refine (backtracks_coverItem hcompare (h.item i) (h.item j)).bind fun r => ?_
      cases r with
      | proceed => exact ih
      | fail => exact .pure false
      | shortCircuit =>
        refine Backtracks.bind (fun s hs => ⟨(), _, ?_, .const _⟩) fun _ => .pure true
        exact hs

end Compare

/-- **Two groups are compared and the marks are left**, whatever is marked. -/
theorem backtracks_coversWithin (marks : List (GroupId × GroupId)) (a : GroupId)
    (o : Option GroupId) :
    Backtracks CoverageState.marks (unmarked (h.groupIds ×ˢ h.groupIds) marks + 1) marks
      fun fuel => h.coversWithin fuel a o := by
  induction hn : unmarked (h.groupIds ×ˢ h.groupIds) marks using Nat.strongRecOn
    generalizing marks a o with
  | _ n ih =>
    refine Backtracks.succ rfl ?_
    cases o with
    | none => exact .pure false
    | some b =>
      simp only [coversWithin]
      by_cases heq : b = a
      · simp only [if_pos heq]
        exact .pure true
      simp only [if_neg heq]
      cases ha : (h.group a).hasAttributes with
      | false => exact .pure _
      | true =>
        cases hb : (h.group b).hasAttributes with
        | false => exact .pure _
        | true =>
          refine Backtracks.ite (fun s hs hmark => .pure true) fun s hs hmark => ?_
          -- both groups have attributes, so the pair is one of the heap
          have hpair : (a, b) ∈ h.groupIds ×ˢ h.groupIds := List.mem_product.2
            ⟨mem_groupIds.2 (hasGroup_of_hasAttributes ha),
              mem_groupIds.2 (hasGroup_of_hasAttributes hb)⟩
          have hlt := unmarked_cons_lt hpair (hs ▸ hmark)
          refine Covering.backtracks_within (backtracks_coverItems (fun a o => ?_) a _)
          exact (ih _ (hn ▸ hlt) ((_, _) :: marks) a o rfl).mono (by omega)

end Heap

/-! ### Describing a group -/

namespace Describing

variable {α β : Type} {depth depth' : Nat} {marks : List GroupId}

/-- A description in progress settles, and unless it fails it leaves the marks as they are. -/
def Backtracks (depth : Nat) (marks : List GroupId) (m : Nat → Describing α) : Prop :=
  ∃ o : Except Error α, Settles depth (fun fuel => ((m fuel).run marks).run) (o.map (·, marks))

namespace Backtracks

variable {m : Nat → Describing α}

theorem mono (hm : Backtracks depth marks m) (hle : depth ≤ depth') :
    Backtracks depth' marks m := by
  obtain ⟨o, hrun⟩ := hm
  exact ⟨o, hrun.mono hle⟩

theorem succ (hzero : ((m 0).run marks).run = none)
    (hm : Backtracks depth marks fun fuel => m (fuel + 1)) : Backtracks (depth + 1) marks m := by
  obtain ⟨o, hrun⟩ := hm
  exact ⟨o, hrun.succ hzero⟩

theorem pure (a : α) : Backtracks depth marks fun _ => Pure.pure a := ⟨.ok a, .const _⟩

theorem bind {f : Nat → α → Describing β} (hm : Backtracks depth marks m)
    (hf : ∀ a, Backtracks depth marks fun fuel => f fuel a) :
    Backtracks depth marks fun fuel => m fuel >>= f fuel := by
  obtain ⟨o, hrun⟩ := hm
  cases o with
  | error e => exact ⟨.error e, hrun.bind (.const _)⟩
  | ok a =>
    obtain ⟨o', hnext⟩ := hf a
    exact ⟨o', hrun.bind hnext⟩

theorem mapM {l : List β} {f : Nat → β → Describing α}
    (hf : ∀ x ∈ l, Backtracks depth marks fun fuel => f fuel x) :
    Backtracks depth marks fun fuel => l.mapM (f fuel) := by
  induction l with
  | nil => exact .pure []
  | cons x l ih =>
    rw [List.forall_mem_cons] at hf
    simp only [List.mapM_cons]
    exact hf.1.bind fun a => (ih hf.2).bind fun as => .pure (a :: as)

end Backtracks

end Describing

namespace Heap

variable {h : Heap} {g : GroupId} {depth : Nat} {marks : List GroupId}

section Describe

variable {describe : Nat → List GroupId → GroupId → Describing Description}
  (hdescribe : ∀ among x, Describing.Backtracks depth marks fun fuel => describe fuel among x)

include hdescribe

theorem backtracks_slotDescriptions (s : Slot) :
    Describing.Backtracks depth marks fun fuel => slotDescriptions (describe fuel) s := by
  refine Describing.Backtracks.bind (.mapM fun x _ => hdescribe _ x) fun typed => ?_
  exact Describing.Backtracks.bind (.mapM fun x _ => hdescribe _ x) fun primary => .pure _

theorem backtracks_itemDescription (i : Item) :
    Describing.Backtracks depth marks fun fuel => itemDescription (describe fuel) i :=
  (backtracks_slotDescriptions hdescribe i.value).bind fun _ =>
    (backtracks_slotDescriptions hdescribe i.key).bind fun _ => .pure _

end Describe

/-- Describe the attributes of a group. -/
def fieldDescriptions (h : Heap) (fuel : Nat) (g : GroupId) :
    Describing (List (String × NestedDescription)) :=
  (h.group g).items.entries.mapM fun e => do
    return (e.1, ← itemDescription (h.describeWithin fuel) (h.item e.2))

/-- A group that is not marked is described by its attributes, under its mark. -/
theorem run_describeWithin {fuel : Nat} {among : List GroupId} (hg : g ∉ marks) :
    ((h.describeWithin (fuel + 1) among g).run marks).run =
      ((h.fieldDescriptions fuel g).run (g :: marks)).run >>= fun r =>
        some (r.map fun p => (h.describedWith among g p.1, p.2.erase g)) := by
  unfold describeWithin
  simp only [StateT.run_bind, StateT.run_get, StateT.run_modify, pure_bind, if_neg hg]
  rw [ExceptT.run_bind]
  change ((h.fieldDescriptions fuel g).run (g :: marks)).run >>= _ = _
  rcases ((h.fieldDescriptions fuel g).run (g :: marks)).run with _ | _ | p <;> rfl

theorem backtracks_describeWithin_succ {among : List GroupId} (hg : g ∉ marks)
    (hfields : Describing.Backtracks depth (g :: marks) fun fuel => h.fieldDescriptions fuel g) :
    Describing.Backtracks depth marks fun fuel => h.describeWithin (fuel + 1) among g := by
  obtain ⟨o, hrun⟩ := hfields
  refine ⟨o.map (h.describedWith among g), ?_⟩
  simp only [run_describeWithin hg]
  refine hrun.bind ?_
  cases o with
  | error e => exact .const _
  | ok attributes =>
    simp only [Except.map, List.erase_cons_head]
    exact .const _

/-- **A group is described and the marks are left, or this fails**, whatever is marked. -/
theorem backtracks_describeWithin (marks among : List GroupId) (g : GroupId) :
    Describing.Backtracks (unmarked h.groupIds marks + 2) marks fun fuel =>
      h.describeWithin fuel among g := by
  induction hn : unmarked h.groupIds marks using Nat.strongRecOn generalizing marks among g with
  | _ n ih =>
    refine Describing.Backtracks.succ rfl ?_
    by_cases hmark : g ∈ marks
    · exact ⟨.error _, fun fuel => .inl (fails_describeWithin hmark)⟩
    refine backtracks_describeWithin_succ hmark ?_
    by_cases hin : h.HasGroup g
    · -- one level down there is one mark more, and a group of the heap fewer to be marked
      have hlt := unmarked_cons_lt (mem_groupIds.2 hin) hmark
      have hdeeper : ∀ among x, Describing.Backtracks (n + 1) (g :: marks) fun fuel =>
          h.describeWithin fuel among x :=
        fun among x => (ih _ (hn ▸ hlt) (g :: marks) among x rfl).mono (by omega)
      exact .mapM fun e _ =>
        (backtracks_itemDescription hdeeper (h.item e.2)).bind fun _ => .pure _
    · have hno : (h.group g).items.entries = [] := by rw [group_of_not_hasGroup hin]; rfl
      simp only [fieldDescriptions, hno]
      exact .pure []

end Heap

/-! ### The way up -/

namespace Heap

variable {h : Heap}

/-- A climb that may pass all groups that it has not seen goes no further if it may pass more. -/
theorem climbOwners_succ {fuel : Nat} : ∀ {seen : List GroupId} {g : GroupId} {names : List String},
    unmarked h.groupIds seen < fuel →
    h.climbOwners (fuel + 1) seen g names = h.climbOwners fuel seen g names := by
  induction fuel with
  | zero =>
    intro seen g names hlt
    exact absurd hlt (Nat.not_lt_zero _)
  | succ fuel ih =>
    intro seen g names hlt
    rw [climbOwners, climbOwners]
    by_cases hseen : g ∈ seen
    · rw [if_pos hseen, if_pos hseen]
    rw [if_neg hseen, if_neg hseen]
    cases hi : (h.group g).nestedIn with
    | none => rfl
    | some i =>
      have hless := unmarked_cons_lt (mem_groupIds.2 (hasGroup_of_nestedIn hi)) hseen
      exact ih (by omega)

theorem length_groupIds (h : Heap) : h.groupIds.length = h.groups.size := by
  rw [groupIds, List.length_map, List.length_range]

/-- The path of a group does not depend on how far it may climb. -/
theorem pathTo_settles (h : Heap) (g : GroupId) {fuel : Nat} (hfuel : h.groups.size < fuel) :
    ".".intercalate (h.climbOwners fuel [] g []) = h.pathTo g := by
  have hunmarked := unmarked_le h.groupIds []
  rw [length_groupIds] at hunmarked
  have hclimb : ∀ n, h.climbOwners (h.groups.size + 1 + n) [] g [] =
      h.climbOwners (h.groups.size + 1) [] g [] := by
    intro n
    induction n with
    | zero => rfl
    | succ n ih => rw [← Nat.add_assoc, climbOwners_succ (by omega), ih]
  obtain ⟨n, rfl⟩ := Nat.exists_eq_add_of_le hfuel
  rw [pathTo, hclimb n, hclimb 1]

/-! ### The traversals -/

theorem unmarked_groupIds_le (h : Heap) (marks : List GroupId) :
    unmarked h.groupIds marks ≤ h.groups.size :=
  Nat.le_trans (unmarked_le h.groupIds marks) (Nat.le_of_eq h.length_groupIds)

theorem unmarked_pairs_lt (h : Heap) (marks : List (GroupId × GroupId)) :
    unmarked (h.groupIds ×ˢ h.groupIds) marks < h.coverageDepth := by
  have hle := unmarked_le (h.groupIds ×ˢ h.groupIds) marks
  rw [List.length_product, length_groupIds] at hle
  have hdepth := h.size_lt_coverageDepth
  rw [List.length_nil] at hdepth
  omega

theorem backtracks_texts (h : Heap) (marks : List GroupId) (g : GroupId) :
    Backtracks id h.renderDepth marks fun fuel => h.itemTexts fuel g :=
  (backtracks_itemTexts marks g).mono (Nat.add_le_add_right (h.unmarked_groupIds_le marks) 2)

theorem backtracks_block (h : Heap) (marks : List GroupId) (g : GroupId) :
    Backtracks id h.renderDepth marks fun fuel => itemsBlock (h.itemTexts fuel) g :=
  backtracks_itemsBlock fun _ => h.backtracks_texts (g :: marks) g

theorem backtracks_pairs (h : Heap) (marks : List (GroupId × GroupId)) : ∀ g other,
    Backtracks CoverageState.marks h.coverageDepth marks fun fuel => h.coversWithin fuel g other :=
  fun g other => (backtracks_coversWithin marks g other).mono (h.unmarked_pairs_lt marks)

theorem backtracks_described (h : Heap) (marks among : List GroupId) (g : GroupId) :
    Describing.Backtracks (h.groups.size + 2) marks fun fuel => h.describeWithin fuel among g :=
  (backtracks_describeWithin marks among g).mono
    (Nat.add_le_add_right (h.unmarked_groupIds_le marks) 2)

/-- What is shown is the outcome of showing it without marks. -/
theorem settles_rendered {depth : Nat} {m : Nat → Marking String}
    (hm : Backtracks id depth [] m) :
    Settles depth (fun fuel => (m fuel).run []) (rendered (m depth), []) := by
  obtain ⟨text, marks, hmarks, hrun⟩ := hm [] rfl
  obtain rfl : marks = [] := hmarks
  have htext : rendered (m depth) = text := by
    rw [rendered, hrun.eq_some (Nat.le_refl depth)]
    rfl
  rwa [htext]

theorem settles_coverage (h : Heap) (g : GroupId) (other : Option GroupId) :
    Settles h.coverageDepth (fun fuel => (h.coversWithin fuel g other).run {})
      ((h.coverage g other).1, ⟨[], (h.coverage g other).2⟩) := by
  obtain ⟨r, ⟨marks, ds⟩, hmarks, hrun⟩ := h.backtracks_pairs [] g other {} rfl
  obtain rfl : marks = [] := hmarks
  have hcoverage : h.coverage g other = (r, ds) := by
    rw [coverage, hrun.eq_some (Nat.le_refl _)]
  rwa [hcoverage]

theorem settles_description (h : Heap) (g : GroupId) : Settles (h.groups.size + 2)
    (fun fuel => ((h.describeWithin fuel [] g).run []).run)
    ((h.description g).map fun d => (d, [])) := by
  obtain ⟨o, hrun⟩ := h.backtracks_described [] [] g
  have hdescription : h.description g = o := by
    have hsome : (h.describeWithin (h.groups.size + 2) [] g).run [] = some _ :=
      hrun.eq_some (Nat.le_refl _)
    rw [description, hsome]
    cases o <;> rfl
  rwa [hdescription]

/-- What it means that the traversals from a group come to an end and take every mark back. -/
structure EndsUnmarked (h : Heap) (g : GroupId) : Prop where
  /-- Showing the group comes to an end, with its text and without marks. -/
  shown : Settles h.renderDepth (fun fuel => (itemsBlock (h.itemTexts fuel) g).run [])
    (h.blockText g, [])
  groupText : h.groupText g =
    s!"{(h.variantOf g).kind.label}({(h.group g).name}){(h.variantOf g).note}" ++ h.blockText g
  /-- So does showing an item. -/
  itemShown : ∀ i, Settles h.renderDepth
    (fun fuel => (itemText (h.item i) (itemsBlock (h.itemTexts fuel))).run [])
    (h.shortItemText i, [])
  /-- The group is shown and leaves the marks that it finds, in braces. -/
  block : ∀ marks,
    Backtracks id h.renderDepth marks fun fuel => itemsBlock (h.itemTexts fuel) g
  /-- Its items are shown and leave the marks, with those of its super groups. -/
  texts : ∀ marks, Backtracks id h.renderDepth marks fun fuel => h.itemTexts fuel g
  /-- Where it is marked it was not, so that a set of marks does as well. -/
  textsInSet : ∀ marks, g ∉ marks → ∀ fuel,
    (Marking.within g (h.itemTexts fuel g)).run marks =
      (Marking.withinSet g (h.itemTexts fuel g)).run marks
  /-- Comparing the group with another one comes to an end, without marks. -/
  compared : ∀ other, Settles h.coverageDepth (fun fuel => (h.coversWithin fuel g other).run {})
    ((h.coverage g other).1, ⟨[], (h.coverage g other).2⟩)
  /-- The group is compared and leaves the marks that it finds. -/
  pairs : ∀ marks other, Backtracks CoverageState.marks h.coverageDepth marks fun fuel =>
    h.coversWithin fuel g other
  /-- Where a pair is marked it was not, so that a set of marks does as well. -/
  pairsInSet : ∀ s other, (g, other) ∉ s.marks → ∀ fuel,
    let items := h.coverItems (h.coversWithin fuel) g (h.group other).items.entries
    (Covering.within (g, other) items).run s = (Covering.withinSet (g, other) items).run s
  /-- Describing the group comes to an end, with a description and without marks, or fails. -/
  described : Settles (h.groups.size + 2) (fun fuel => ((h.describeWithin fuel [] g).run []).run)
    ((h.description g).map fun d => (d, []))
  /-- The group is described and leaves the marks that it finds, or this fails. -/
  descriptions : ∀ marks among, Describing.Backtracks (h.groups.size + 2) marks fun fuel =>
    h.describeWithin fuel among g
  /-- The path of the group, which the answers mention, comes to an end. -/
  climbed : ∀ fuel, h.groups.size < fuel →
    ".".intercalate (h.climbOwners fuel [] g []) = h.pathTo g

/-- **What marks only what is on the way comes to an end and takes every mark back**, on every heap
and wherever its links lead. -/
theorem endsUnmarked (h : Heap) (g : GroupId) : h.EndsUnmarked g where
  shown := settles_rendered (h.backtracks_block [] g)
  groupText := rfl
  itemShown _ := settles_rendered (backtracks_itemText (h.backtracks_block []))
  block marks := h.backtracks_block marks g
  texts marks := h.backtracks_texts marks g
  textsInSet marks hg fuel :=
    Marking.within_eq_withinSet (h.backtracks_texts (g :: marks) g) hg fuel
  compared := h.settles_coverage g
  pairs marks := h.backtracks_pairs marks g
  pairsInSet _ _ hpair fuel :=
    Covering.within_eq_withinSet (backtracks_coverItems (h.backtracks_pairs _) g _) rfl hpair fuel
  described := h.settles_description g
  descriptions marks among := h.backtracks_described marks among g
  climbed _ hfuel := h.pathTo_settles g hfuel

end Heap

end AttributeGraph
