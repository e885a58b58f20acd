/-
Whether super and subclass links stay each other's inverse.

An insertion writes every link in both directions but one: a group that hangs
below another one already is not taken off that one's list.  So every group stays
listed by its super group whatever is inserted (`AboveListed.insertEach`), and
nobody else lists it for as long as no insertion moves it
(`listedAbove_iff_not_moves`).
-/
import AttributeGraph.Proofs.Inserting

namespace AttributeGraph

/-- A call that inserts a group below another one. -/
structure Insertion where
  parent : GroupId
  group : GroupId
  relation : Hierarchy

/-- An insertion takes a group from below one group to below another one. -/
def Insertion.Moves (c : Insertion) (h : Heap) : Prop :=
  c.group ≠ c.parent ∧ ∃ old, (h.group c.group).above = some old ∧ old ≠ c.parent

namespace Heap

variable {h : Heap} {c : Insertion} {calls : List Insertion} {g : GroupId}

/-- Both groups of an insertion are in the heap. -/
def Accepts (h : Heap) (c : Insertion) : Prop :=
  h.HasGroup c.parent ∧ h.HasGroup c.group

/-- Carry out one insertion. -/
def insert (h : Heap) (c : Insertion) : Heap :=
  h.insertBelow c.relation c.parent c.group

/-- Carry out insertions one after the other, with any receivers, groups and hierarchies. -/
def insertEach (h : Heap) (calls : List Insertion) : Heap :=
  calls.foldl insert h

/-- No group has a super group or lists a subclass group. -/
def NoLinks (h : Heap) : Prop :=
  ∀ g, (h.group g).above = none ∧ (h.group g).subs = []

/-- Every group that has a super group is listed by it. -/
def AboveListed (h : Heap) : Prop :=
  ∀ g s, (h.group g).above = some s → g ∈ (h.group s).subs

theorem NoLinks.listedAbove (hnew : h.NoLinks) (g : GroupId) : h.ListedAbove g := by
  intro s
  rw [(hnew g).1, (hnew s).2]
  exact iff_of_false List.not_mem_nil (Option.some_ne_none s).symm

theorem NoLinks.aboveListed (hnew : h.NoLinks) : h.AboveListed :=
  fun g s => (hnew.listedAbove g s).2

/-! ### One insertion -/

theorem insert_of_self (hself : c.group = c.parent) : h.insert c = h := by
  unfold insert insertBelow
  rw [if_pos hself]

theorem hasGroup_insert (hc : h.Accepts c) : (h.insert c).HasGroup g ↔ h.HasGroup g := by
  by_cases hself : c.group = c.parent
  · rw [insert_of_self hself]
  · exact hasGroup_insertBelow hc.1 hc.2 hself

/-- **An insertion leaves every group on the list of its super group.** -/
theorem AboveListed.insert (habove : h.AboveListed) (hc : h.Accepts c) :
    (h.insert c).AboveListed := by
  by_cases hself : c.group = c.parent
  · rwa [insert_of_self hself]
  intro g s hs
  unfold Heap.insert at hs ⊢
  rw [above_insertBelow hc.1 hc.2 hself] at hs
  rw [mem_subs_insertBelow hc.1 hc.2 hself]
  by_cases hg : g = c.group
  · rw [if_pos hg, Option.some.injEq] at hs
    rw [if_pos hg]
    exact .inl hs.symm
  rw [if_neg hg] at hs ⊢
  by_cases htaken : g ∈ (h.group c.parent).subs ∧ h.derivesFrom c.relation c.group g = true
  · rw [if_pos htaken, Option.some.injEq] at hs
    rw [if_pos htaken]
    exact .inl hs.symm
  · rw [if_neg htaken] at hs ⊢
    exact habove g s hs

/-- **An insertion keeps the links of a group mutual exactly if it does not move the group.**  If it
does, the former super group still lists it. -/
theorem listedAbove_insert_iff (hlisted : h.ListedAbove g) (hc : h.Accepts c) :
    (h.insert c).ListedAbove g ↔ (c.group = g → ¬ c.Moves h) := by
  by_cases hself : c.group = c.parent
  · rw [insert_of_self hself]
    exact iff_of_true hlisted fun _ hmoves => hmoves.1 hself
  by_cases hg : g = c.group
  · subst hg
    unfold ListedAbove insert
    simp only [mem_subs_insertBelow hc.1 hc.2 hself, above_insertBelow hc.1 hc.2 hself, if_true,
      Option.some.injEq, forall_const]
    constructor
    · rintro hafter ⟨-, old, hold, hne⟩
      exact hne ((hafter old).1 (.inr ((hlisted old).2 hold))).symm
    · intro hstays s
      refine ⟨fun hs => hs.elim Eq.symm fun hs => ?_, fun hs => .inl hs.symm⟩
      by_contra hne
      exact hstays ⟨hself, s, (hlisted s).1 hs, Ne.symm hne⟩
  · exact iff_of_true (hlisted.insertBelow hc.1 hc.2 hself hg) fun heq => absurd heq.symm hg

/-! ### A run of insertions -/

theorem insertEach_concat (h : Heap) (calls : List Insertion) (c : Insertion) :
    h.insertEach (calls ++ [c]) = (h.insertEach calls).insert c :=
  List.foldl_concat insert h c calls

theorem hasGroup_insertEach (hcalls : ∀ c ∈ calls, h.Accepts c) :
    (h.insertEach calls).HasGroup g ↔ h.HasGroup g := by
  induction calls generalizing h with
  | nil => exact Iff.rfl
  | cons c calls ih =>
    have hc := hcalls c List.mem_cons_self
    refine (ih fun c' hc' => ?_).trans (hasGroup_insert hc)
    have hlater := hcalls c' (List.mem_cons_of_mem c hc')
    exact ⟨(hasGroup_insert hc).2 hlater.1, (hasGroup_insert hc).2 hlater.2⟩

theorem accepts_insertEach (hcalls : ∀ c ∈ calls, h.Accepts c) (hc : h.Accepts c) :
    (h.insertEach calls).Accepts c :=
  ⟨(hasGroup_insertEach hcalls).2 hc.1, (hasGroup_insertEach hcalls).2 hc.2⟩

theorem AboveListed.insertEach (habove : h.AboveListed) (hcalls : ∀ c ∈ calls, h.Accepts c) :
    (h.insertEach calls).AboveListed := by
  induction calls using List.reverseRecOn with
  | nil => exact habove
  | append_singleton before c ih =>
    have hbefore : ∀ c' ∈ before, h.Accepts c' :=
      fun c' hc' => hcalls c' (List.mem_append_left _ hc')
    rw [insertEach_concat]
    exact (ih hbefore).insert (accepts_insertEach hbefore (hcalls c (by simp)))

/-- A group whose links are mutual keeps them so up to the first insertion that moves it. -/
theorem listedAbove_throughout_iff (hlisted : h.ListedAbove g)
    (hcalls : ∀ c ∈ calls, h.Accepts c) :
    (∀ before, before <+: calls → (h.insertEach before).ListedAbove g) ↔
      ∀ before c, before ++ [c] <+: calls → c.group = g → ¬ c.Moves (h.insertEach before) := by
  constructor
  · intro hall before c hbefore
    have hearlier : before <+: calls := (List.prefix_append before [c]).trans hbefore
    have hc : (h.insertEach before).Accepts c :=
      accepts_insertEach (fun c' hc' => hcalls c' (hearlier.subset hc'))
        (hcalls c (hbefore.subset (by simp)))
    refine (listedAbove_insert_iff (hall before hearlier) hc).1 ?_
    rw [← insertEach_concat]
    exact hall _ hbefore
  · intro hstays before
    induction before using List.reverseRecOn with
    | nil => exact fun _ => hlisted
    | append_singleton before c ih =>
      intro hbefore
      have hearlier : before <+: calls := (List.prefix_append before [c]).trans hbefore
      have hc : (h.insertEach before).Accepts c :=
        accepts_insertEach (fun c' hc' => hcalls c' (hearlier.subset hc'))
          (hcalls c (hbefore.subset (by simp)))
      rw [insertEach_concat]
      exact (listedAbove_insert_iff (ih hearlier) hc).2 (hstays before c hbefore)

/-- **Links are mutual until a group is moved.**  From new groups, whatever is inserted below
whatever, every group is listed by its super group.  It is listed by no other one all along the run
exactly if no insertion of the run takes it from below one group to below another. -/
theorem listedAbove_iff_not_moves (hnew : h.NoLinks) (hcalls : ∀ c ∈ calls, h.Accepts c) :
    (h.insertEach calls).AboveListed ∧
    ∀ g, (∀ before, before <+: calls → (h.insertEach before).ListedAbove g) ↔
      ∀ before c, before ++ [c] <+: calls → c.group = g → ¬ c.Moves (h.insertEach before) :=
  ⟨hnew.aboveListed.insertEach hcalls,
    fun g => listedAbove_throughout_iff (hnew.listedAbove g) hcalls⟩

/-- Two homes and a room. -/
def rooms : Heap :=
  { groups := #[{ name := "flat" }, { name := "house" }, { name := "room" }]
    variants := #[.generic] }

theorem noLinks_rooms : rooms.NoLinks :=
  forall_group (P := fun x => x.above = none ∧ x.subs = []) ⟨rfl, rfl⟩
    (by decide : ∀ g ∈ rooms.groupIds, (rooms.group g).above = none ∧ (rooms.group g).subs = [])

/-- The room is put into the house after the house went below the flat. -/
theorem listedAbove_iff_not_moves_rooms :
    let calls : List Insertion := [⟨⟨0⟩, ⟨1⟩, .lineage⟩, ⟨⟨1⟩, ⟨2⟩, .lineage⟩]
    rooms.NoLinks ∧ (∀ c ∈ calls, rooms.Accepts c) ∧ (rooms.insertEach calls).AboveListed ∧
      (rooms.insertEach calls).ListedAbove ⟨2⟩ := by
  intro calls
  have hcalls : ∀ c ∈ calls, rooms.Accepts c := by simp [calls, Accepts]; decide
  obtain ⟨habove, hlisted⟩ := listedAbove_iff_not_moves noLinks_rooms hcalls
  refine ⟨noLinks_rooms, hcalls, habove, (hlisted ⟨2⟩).2 (fun before c hbefore hc => ?_) calls
    List.prefix_rfl⟩
  rintro ⟨-, old, hold, -⟩
  match before with
  | [] =>
    obtain rfl : c = ⟨⟨0⟩, ⟨1⟩, .lineage⟩ := by simpa [calls] using hbefore
    cases hc
  | [first] =>
    obtain ⟨rfl, rfl⟩ : first = ⟨⟨0⟩, ⟨1⟩, .lineage⟩ ∧ c = ⟨⟨1⟩, ⟨2⟩, .lineage⟩ := by
      simpa [calls] using hbefore
    cases hold
  | first :: second :: rest => simpa [calls] using hbefore.length_le

/-- **A moved group stays on the list that it came from.** -/
theorem moved_group_still_listed :
    let moved := rooms.insertEach [⟨⟨0⟩, ⟨2⟩, .lineage⟩, ⟨⟨1⟩, ⟨2⟩, .lineage⟩]
    rooms.NoLinks ∧ ⟨2⟩ ∈ (moved.group ⟨0⟩).subs ∧ (moved.group ⟨2⟩).above = some ⟨1⟩ :=
  ⟨noLinks_rooms, by decide, rfl⟩

end Heap

end AttributeGraph
