/-
The way up from a nested group.

A group is nested in an item, the item belongs to a group, and this one may be
nested in turn.  `Climbs` follows these links up to a group that is nested in
none, and collects the names of the items on the way.  There is no choice on the
way, so a group has at most one (`Climbs.unique`).

The climb that prints the path of a group has a bound and a guard against groups
met twice.  Neither stops it on a way that has an end: the groups on it have ways
of different lengths, so no two are the same and there are no more of them than
the heap holds (`Climbs.length_lt`).  The path is then made of the names on the
way (`Climbs.pathTo_eq`).
-/
import AttributeGraph.Heap.Chain
import AttributeGraph.Proofs.Describing

namespace AttributeGraph.Heap

/-- Going from a group to the owner of the item that it is nested in, and on from there, leads past
the named items to a group that is nested in none. -/
inductive Climbs (h : Heap) (g : GroupId) : List String → GroupId → Prop
  | root (hin : h.HasGroup g) (hg : (h.group g).nestedIn = none) : Climbs h g [] g
  | step {q : List String} {x : GroupId} {i : ItemId} (hup : Climbs h g q (h.item i).owner)
      (hi : (h.group x).nestedIn = some i) : Climbs h g (q ++ [(h.item i).name]) x

variable {h : Heap} {g g' x : GroupId} {q r : List String}

/-- A group that is nested somewhere is a group of the heap. -/
theorem hasGroup_of_nestedIn {i : ItemId} (hi : (h.group x).nestedIn = some i) : h.HasGroup x := by
  by_contra hno
  rw [group_of_not_hasGroup hno] at hi
  cases hi

namespace Climbs

/-- **There is one way up at most.** -/
theorem unique (hq : h.Climbs g q x) (hr : h.Climbs g' r x) : g = g' ∧ q = r := by
  induction hq generalizing r with
  | root _ hg =>
    cases hr with
    | root _ _ => exact ⟨rfl, rfl⟩
    | step _ hi =>
      rw [hg] at hi
      cases hi
  | step _ hi ih =>
    cases hr with
    | root _ hg =>
      rw [hg] at hi
      cases hi
    | step hup hj =>
      obtain rfl := Option.some.inj (hi.symm.trans hj)
      obtain ⟨rfl, rfl⟩ := ih hup
      exact ⟨rfl, rfl⟩

theorem hasGroup (hq : h.Climbs g q x) : h.HasGroup x := by
  cases hq with
  | root hin _ => exact hin
  | step _ hi => exact hasGroup_of_nestedIn hi

/-- A way up is the same wherever groups are nested in items of the same names and owners. -/
theorem congr {h' : Heap} (hgroup : ∀ x, h.HasGroup x → h'.HasGroup x)
    (hnested : ∀ x, (h'.group x).nestedIn = (h.group x).nestedIn)
    (hname : ∀ i, (h'.item i).name = (h.item i).name)
    (howner : ∀ i, (h'.item i).owner = (h.item i).owner) (hq : h.Climbs g q x) :
    h'.Climbs g q x := by
  induction hq with
  | root hin hg => exact .root (hgroup g hin) ((hnested g).trans hg)
  | @step q x i _ hi ih =>
    rw [← howner i] at ih
    rw [← hname i]
    exact ih.step ((hnested x).trans hi)

/-- The groups on a way are all different: each of them has a shorter way than the one below it. -/
theorem exists_nodup (hq : h.Climbs g q x) : ∃ way : List GroupId, way.Nodup ∧
    way.length = q.length + 1 ∧ ∀ y ∈ way, ∃ r, h.Climbs g r y ∧ r.length ≤ q.length := by
  induction hq with
  | root hin hg =>
    exact ⟨[g], List.nodup_singleton g, rfl,
      List.forall_mem_singleton.2 ⟨[], .root hin hg, Nat.le_refl _⟩⟩
  | @step q x i hup hi ih =>
    obtain ⟨way, hnodup, hlength, hall⟩ := ih
    have hx := hup.step hi
    rw [List.length_append, List.length_singleton]
    refine ⟨x :: way, List.nodup_cons.2 ⟨fun hmem => ?_, hnodup⟩, by rw [List.length_cons, hlength],
      List.forall_mem_cons.2 ⟨⟨_, hx, by simp⟩, fun y hy => ?_⟩⟩
    · obtain ⟨r, hr, hle⟩ := hall x hmem
      rw [← (hx.unique hr).2, List.length_append, List.length_singleton] at hle
      omega
    · obtain ⟨r, hr, hle⟩ := hall y hy
      exact ⟨r, hr, Nat.le_succ_of_le hle⟩

/-- **A way up is shorter than the number of groups.** -/
theorem length_lt (hq : h.Climbs g q x) : q.length < h.groups.size := by
  obtain ⟨way, hnodup, hlength, hall⟩ := hq.exists_nodup
  have hle := length_le_of_nodup hnodup fun y hy => by
    obtain ⟨r, hr, -⟩ := hall y hy
    exact hr.hasGroup
  omega

/-- The climb is not stopped if it has started further down than any way that has been seen. -/
theorem climbOwners_eq (hq : h.Climbs g q x) : ∀ {fuel : Nat} {seen : List GroupId}
    {names : List String}, q.length < fuel →
    (∀ y ∈ seen, ∀ r, h.Climbs g r y → q.length < r.length) →
    h.climbOwners fuel seen x names = q ++ names := by
  have hnew : ∀ {q x} {seen : List GroupId}, h.Climbs g q x →
      (∀ y ∈ seen, ∀ r, h.Climbs g r y → q.length < r.length) → x ∉ seen :=
    fun hq hseen hmem => Nat.lt_irrefl _ (hseen _ hmem _ hq)
  induction hq with
  | root hin hg =>
    intro fuel seen names hfuel hseen
    obtain ⟨fuel, rfl⟩ := Nat.exists_eq_succ_of_ne_zero (Nat.ne_of_gt hfuel)
    rw [climbOwners, if_neg (hnew (.root hin hg) hseen), hg]
    rfl
  | @step q x i hup hi ih =>
    intro fuel seen names hfuel hseen
    have hx := hup.step hi
    rw [List.length_append, List.length_singleton] at hfuel
    obtain ⟨fuel, rfl⟩ := Nat.exists_eq_succ_of_ne_zero (Nat.ne_of_gt (Nat.zero_lt_of_lt hfuel))
    rw [climbOwners, if_neg (hnew hx hseen), hi]
    dsimp only
    rw [ih (by omega), List.append_assoc, List.singleton_append]
    intro y hy r hr
    rcases List.mem_cons.1 hy with rfl | hy
    · rw [← (hx.unique hr).2, List.length_append, List.length_singleton]
      exact Nat.lt_succ_self _
    · have hlt := hseen y hy r hr
      rw [List.length_append, List.length_singleton] at hlt
      omega

/-- **The path of a group joins the names on the way up from it.** -/
theorem pathTo_eq (hq : h.Climbs g q x) : h.pathTo x = Path.format q := by
  have hlt := hq.length_lt
  rw [pathTo, hq.climbOwners_eq (by omega) fun _ hy => absurd hy List.not_mem_nil,
    List.append_nil, Path.format]

end Climbs

end AttributeGraph.Heap
