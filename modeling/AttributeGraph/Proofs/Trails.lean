/-
The list of all paths has every way down on which no group is met twice.

A trail goes from a group into one that is nested for the value of an attribute,
inherited or not, from there into another one, and so on, and collects the names on
its way (`Trail`).  The listing follows all trails at once, keeps the groups on the
way in hand, and turns back where it would enter one of them again.  The groups in
hand are those of the trail so far, and no others: what has been listed elsewhere
does not count.  So the listing has the names of a trail if no group is on it twice,
and of no other one (`mem_pathsBelow_iff_trail`), however often groups are shared and
wherever they are nested in themselves.

Every group on a trail has an attribute, so it is one of the heap, and a trail
without repetition has no more groups than the heap.  That is all the depth that the
listing needs.

Different trails may have one text.  It is listed once, since the list ascends
strictly (`paths_ascending_trails`).
-/
import AttributeGraph.Proofs.Listing

namespace AttributeGraph.Heap

variable {h : Heap} {g x : GroupId} {gs onPath : List GroupId} {ns : List String} {fuel : Nat}

/-! ### Trails -/

/-- A way down from a group through further groups, and the names on it: each name is that of an
attribute, inherited or not, and each further group is nested for the value of the one before. -/
inductive Trail (h : Heap) : GroupId → List GroupId → List String → Prop
  | last {g : GroupId} {n : String} {i : ItemId} (hi : (h.allItems g).find? n = some i) :
      Trail h g [] [n]
  | step {g w : GroupId} {gs : List GroupId} {n : String} {i : ItemId} {ns : List String}
      (hi : (h.allItems g).find? n = some i) (hw : w ∈ (h.item i).value.groups)
      (hrest : Trail h w gs ns) : Trail h g (w :: gs) (n :: ns)

/-- All groups on a trail are groups of the heap. -/
theorem Trail.hasGroup (ht : h.Trail g gs ns) : ∀ x ∈ g :: gs, h.HasGroup x := by
  induction ht with
  | last hi => exact List.forall_mem_singleton.2 (hasGroup_of_allItems hi)
  | step hi _ _ ih => exact List.forall_mem_cons.2 ⟨hasGroup_of_allItems hi, ih⟩

/-- A trail without repetition is no longer than the heap has groups. -/
theorem Trail.length_lt (ht : h.Trail g gs ns) (hnodup : (g :: gs).Nodup) :
    gs.length < h.groups.size := by
  have hle := length_le_of_nodup hnodup ht.hasGroup
  rw [List.length_cons] at hle
  exact hle

/-! ### What is listed -/

/-- Whatever is listed lies on a trail that meets no group twice and none of those in hand. -/
theorem exists_trail_of_mem_pathsBelow (fuel : Nat) : ∀ {onPath : List GroupId} {g : GroupId}
    {ns : List String}, ns ∈ h.pathsBelow fuel onPath g →
    ∃ gs, h.Trail g gs ns ∧ (g :: gs).Nodup ∧ ∀ x ∈ g :: gs, x ∉ onPath := by
  induction fuel with
  | zero =>
    intro onPath g ns hns
    exact absurd hns List.not_mem_nil
  | succ fuel ih =>
    intro onPath g ns hns
    have hnew : g ∉ onPath := by
      intro hmem
      rw [pathsBelow, if_pos hmem] at hns
      exact List.not_mem_nil hns
    cases ns with
    | nil => exact absurd hns (nil_not_mem_pathsBelow _ _)
    | cons n ns =>
      obtain ⟨i, hi, rfl | ⟨w, hw, hns⟩⟩ := (cons_mem_pathsBelow hnew).1 hns
      · exact ⟨[], .last hi, List.nodup_singleton g, List.forall_mem_singleton.2 hnew⟩
      · -- the groups further down avoid those in hand, this one among them
        obtain ⟨gs, ht, hnodup, havoid⟩ := ih hns
        refine ⟨w :: gs, .step hi hw ht, List.nodup_cons.2 ⟨fun hmem => ?_, hnodup⟩,
          List.forall_mem_cons.2 ⟨hnew, fun x hx hmem => ?_⟩⟩
        · exact havoid g hmem List.mem_cons_self
        · exact havoid x hx (List.mem_cons_of_mem g hmem)

/-- The names of such a trail are listed, if the listing may go as deep as the trail. -/
theorem Trail.mem_pathsBelow (ht : h.Trail g gs ns) : ∀ {fuel : Nat} {onPath : List GroupId},
    gs.length < fuel → (g :: gs).Nodup → (∀ x ∈ g :: gs, x ∉ onPath) →
    ns ∈ h.pathsBelow fuel onPath g := by
  induction ht with
  | last hi =>
    intro fuel onPath hfuel _ havoid
    obtain ⟨fuel, rfl⟩ := Nat.exists_eq_succ_of_ne_zero (Nat.ne_of_gt hfuel)
    exact (cons_mem_pathsBelow (havoid _ List.mem_cons_self)).2 ⟨_, hi, .inl rfl⟩
  | @step g w gs n i ns hi hw _ ih =>
    intro fuel onPath hfuel hnodup havoid
    obtain ⟨fuel, rfl⟩ := Nat.exists_eq_succ_of_ne_zero (Nat.ne_of_gt (Nat.zero_lt_of_lt hfuel))
    obtain ⟨hg, hnodup⟩ := List.nodup_cons.1 hnodup
    obtain ⟨hnew, havoid⟩ := List.forall_mem_cons.1 havoid
    refine (cons_mem_pathsBelow hnew).2 ⟨i, hi, .inr ⟨w, hw, ?_⟩⟩
    refine ih (Nat.lt_of_succ_lt_succ hfuel) hnodup fun x hx hmem => ?_
    rcases List.mem_cons.1 hmem with rfl | hmem
    · exact hg hx
    · exact havoid x hx hmem

/-- **The listing has the names of exactly the trails on which no group is met twice.** -/
theorem mem_pathsBelow_iff_trail (hfuel : h.groups.size ≤ fuel) :
    ns ∈ h.pathsBelow fuel [] g ↔ ∃ gs, h.Trail g gs ns ∧ (g :: gs).Nodup := by
  constructor
  · intro hns
    obtain ⟨gs, ht, hnodup, -⟩ := exists_trail_of_mem_pathsBelow fuel hns
    exact ⟨gs, ht, hnodup⟩
  · rintro ⟨gs, ht, hnodup⟩
    have hlt := ht.length_lt hnodup
    exact ht.mem_pathsBelow (by omega) hnodup fun _ _ => List.not_mem_nil

/-- **The list of all paths ascends strictly, and has exactly the texts of the trails on which no
group is met twice.** -/
theorem paths_ascending_trails (h : Heap) (g : GroupId) :
    (h.paths g).Pairwise (fun a b => Text.units a.toList < Text.units b.toList) ∧
    ∀ t, t ∈ h.paths g ↔
      ∃ gs ns, h.Trail g gs ns ∧ (g :: gs).Nodup ∧ Path.format ns = t := by
  refine ⟨Text.sortByUnits_ascending (OrderedSet.nodup _), fun t => ?_⟩
  have hns : ∀ ns, ns ∈ h.pathsBelow (h.groups.size + 2) [] g ↔
      ∃ gs, h.Trail g gs ns ∧ (g :: gs).Nodup :=
    fun _ => mem_pathsBelow_iff_trail (by omega)
  rw [mem_paths, List.mem_map]
  constructor
  · rintro ⟨ns, hmem, htext⟩
    obtain ⟨gs, ht, hnodup⟩ := (hns ns).1 hmem
    exact ⟨gs, ns, ht, hnodup, htext⟩
  · rintro ⟨gs, ns, ht, hnodup, htext⟩
    exact ⟨ns, (hns ns).2 ⟨gs, ht, hnodup⟩, htext⟩

end AttributeGraph.Heap
