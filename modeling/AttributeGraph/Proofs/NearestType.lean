/-
The group that applies to a described type.

Outside of items the group is looked for in a tree: from the top of the super groups
downwards, depth first, first for the type itself and then for its ancestors, the
nearest one first.  Links need not form a tree for that.  The climb to the top stops
where it would meet a group again (`ClimbsTo`), and has one end on every heap
(`climbsTo_iff`); the search marks the groups that it has met, so its bound is never
reached, and it fails only where no group beneath the top matches
(`findInTree_eq_none_iff`).

Which of several matching groups is found depends on the order of the links.  In a
forest with one match at most for each type it does not depend on the group that the
search is asked of, because all groups of a tree have the same top
(`groupFor_nearest`).
-/
import AttributeGraph.Proofs.Reparenting

namespace AttributeGraph.Heap

variable {h : Heap} {g s x y top top' : GroupId} {t : ObjectType} {d : TypeProfile}
  {seen l todo : List GroupId}

/-! ### The top of the super groups -/

/-- Following super groups, on from groups that have been met already, ends at a group that has
none, or at the first one that is met again. -/
inductive ClimbsTo (h : Heap) : List GroupId → GroupId → GroupId → Prop
  | again {seen : List GroupId} {g : GroupId} (hg : g ∈ seen) : ClimbsTo h seen g g
  | ends {seen : List GroupId} {g : GroupId} (hg : g ∉ seen) (hnone : (h.group g).above = none) :
      ClimbsTo h seen g g
  | up {seen : List GroupId} {g s top : GroupId} (hg : g ∉ seen)
      (hs : (h.group g).above = some s) (hup : ClimbsTo h (g :: seen) s top) :
      ClimbsTo h seen g top

namespace ClimbsTo

/-- A climb has one end at most. -/
theorem unique (ht : h.ClimbsTo seen g top) (ht' : h.ClimbsTo seen g top') : top = top' := by
  induction ht generalizing top' with
  | again hg =>
    cases ht' with
    | again => rfl
    | ends hnew => exact absurd hg hnew
    | up hnew => exact absurd hg hnew
  | ends hg hnone =>
    cases ht' with
    | again hold => exact absurd hold hg
    | ends => rfl
    | up _ hs =>
      rw [hnone] at hs
      cases hs
  | up hg hs _ ih =>
    cases ht' with
    | again hold => exact absurd hold hg
    | ends _ hnone =>
      rw [hnone] at hs
      cases hs
    | up _ hs' hup' =>
      obtain rfl := Option.some.inj (hs.symm.trans hs')
      exact ih hup'

end ClimbsTo

/-- A climb with steps to spare for all groups that it has not met reaches its end. -/
theorem climbsTo_climbToRoot (fuel : Nat) : ∀ {seen : List GroupId} {g : GroupId}, seen.Nodup →
    (∀ x ∈ seen, h.HasGroup x) → h.groups.size < fuel + seen.length →
    h.ClimbsTo seen g (h.climbToRoot fuel seen g) := by
  induction fuel with
  | zero =>
    intro seen g hnodup hin hfuel
    have hle := length_le_of_nodup hnodup hin
    omega
  | succ fuel ih =>
    intro seen g hnodup hin hfuel
    rw [climbToRoot]
    by_cases hg : g ∈ seen
    · rw [if_pos hg]
      exact .again hg
    · rw [if_neg hg]
      cases hs : (h.group g).above with
      | none => exact .ends hg hs
      | some s =>
        have hgin : h.HasGroup g := by
          by_contra hno
          rw [group_of_not_hasGroup hno] at hs
          cases hs
        refine .up hg hs (ih (List.nodup_cons.2 ⟨hg, hnodup⟩) ?_ ?_)
        · exact List.forall_mem_cons.2 ⟨hgin, hin⟩
        · rw [List.length_cons]
          omega

/-- **A climb from a group has one end, the top of its super groups.** -/
theorem climbsTo_iff : h.ClimbsTo [] g top ↔ top = h.topGroup g := by
  have hclimb : h.ClimbsTo [] g (h.topGroup g) := by
    refine climbsTo_climbToRoot _ List.nodup_nil ?_ ?_
    · intro x hx
      exact absurd hx List.not_mem_nil
    · simp
  constructor
  · intro ht
    exact ht.unique hclimb
  · intro heq
    exact heq ▸ hclimb

/-- The top of a chain that ends is its last group. -/
theorem Supers.climbsTo (hl : h.Supers g l) : ∀ {seen : List GroupId}, (∀ x ∈ l, x ∉ seen) →
    ∃ top, l.getLast? = some top ∧ h.ClimbsTo seen g top := by
  induction hl with
  | @top g hg =>
    intro seen hseen
    exact ⟨g, rfl, .ends (hseen g List.mem_cons_self) hg⟩
  | @step g s l hs hl ih =>
    intro seen hseen
    have hg : g ∉ l := (List.nodup_cons.1 (Supers.step hs hl).nodup).1
    have hnew : ∀ x ∈ l, x ∉ g :: seen := by
      intro x hx hmem
      rcases List.mem_cons.1 hmem with rfl | hmem
      · exact hg hx
      · exact hseen x (List.mem_cons_of_mem g hx) hmem
    obtain ⟨top, hlast, hup⟩ := ih hnew
    refine ⟨top, ?_, .up (hseen g List.mem_cons_self) hs hup⟩
    rw [List.getLast?_cons, hlast]
    rfl

theorem Supers.getLast?_eq (hl : h.Supers g l) : l.getLast? = some (h.topGroup g) := by
  have hnew : ∀ x ∈ l, x ∉ ([] : List GroupId) := by
    intro x _
    exact List.not_mem_nil
  obtain ⟨top, hlast, hup⟩ := hl.climbsTo hnew
  rw [hlast, climbsTo_iff.1 hup]

/-! ### The groups beneath a group -/

/-- Sub links lead from a group to another one. -/
def Beneath (h : Heap) : GroupId → GroupId → Prop :=
  Relation.ReflTransGen fun x y => y ∈ (h.group x).subs

/-- Whether a group matches a type: it has the type, or no type yet and the type's name. -/
def Matches (h : Heap) (t : ObjectType) (x : GroupId) : Prop :=
  (h.group x).type = some t ∨ (h.group x).type = none ∧ (h.group x).typeName = some t.name

instance (h : Heap) (t : ObjectType) (x : GroupId) : Decidable (h.Matches t x) :=
  inferInstanceAs (Decidable (_ ∨ _))

theorem Matches.hasGroup (hx : h.Matches t x) : h.HasGroup x := by
  by_contra hno
  simp [Matches, group_of_not_hasGroup hno] at hx

theorem standsFor_iff : h.standsFor t x = true ↔ h.Matches t x := by
  unfold standsFor Matches
  cases (h.group x).type <;> simp

/-- The groups of a tree of a forest have the top of the tree as theirs. -/
theorem Forest.topGroup_eq (hforest : h.Forest) (hx : h.Beneath x y) :
    h.topGroup y = h.topGroup x := by
  induction hx with
  | refl => rfl
  | @tail y z _ hz ih =>
    obtain ⟨l, hl⟩ := hforest.ends y
    have hchain : h.Supers z (z :: l) := .step ((hforest.listed z y).1 hz) hl
    have hlast := hchain.getLast?_eq
    rw [List.getLast?_cons, hl.getLast?_eq] at hlast
    rw [← ih]
    exact (Option.some.inj hlast).symm

/-- The top of a tree of a forest is above all of its groups. -/
theorem Forest.beneath_topGroup (hforest : h.Forest) (g : GroupId) :
    h.Beneath (h.topGroup g) g := by
  obtain ⟨l, hl⟩ := hforest.ends g
  have hall : ∀ x ∈ l, h.Beneath x g := by
    induction hl with
    | top => simp [Beneath, Relation.ReflTransGen.refl]
    | @step g s l hs _ ih =>
      refine List.forall_mem_cons.2 ⟨.refl, ?_⟩
      intro x hx
      exact (ih x hx).tail ((hforest.listed g s).2 hs)
  exact hall _ (List.mem_of_getLast? hl.getLast?_eq)

/-! ### The search -/

/-- A search in progress: what it has met lies beneath the root and does not match, and as long as
it has found nothing, no group that it comes to has been forgotten. -/
structure Searching (h : Heap) (t : ObjectType) (root : GroupId) (s : Search)
    (todo : List GroupId) : Prop where
  waiting : ∀ x ∈ todo, h.Beneath root x
  met : ∀ x ∈ s.seen, ¬ h.Matches t x
  found : ∀ x, s.found = some x → h.Beneath root x ∧ h.Matches t x
  start : s.found = none → root ∈ s.seen ∨ root ∈ todo
  closed : s.found = none → ∀ x ∈ s.seen, ∀ y ∈ (h.group x).subs, y ∈ s.seen ∨ y ∈ todo

theorem searching_preserved (h : Heap) (t : ObjectType) (root : GroupId) :
    Preserved (h.searchStep t) (h.Searching t root) := by
  intro s x rest hs
  obtain ⟨hx, hrest⟩ := List.forall_mem_cons.1 hs.waiting
  unfold searchStep
  by_cases hdone : s.found.isSome ∨ x ∈ s.seen
  · -- a group is passed over once something is found, or when it has been met
    rw [if_pos hdone]
    have hmet : s.found = none → x ∈ s.seen := by
      intro hnone
      simpa [hnone] using hdone
    refine ⟨hrest, hs.met, hs.found, ?_, ?_⟩
    · intro hnone
      rcases hs.start hnone with hroot | hroot
      · exact Or.inl hroot
      · rcases List.mem_cons.1 hroot with rfl | hroot
        · exact Or.inl (hmet hnone)
        · exact Or.inr hroot
    · intro hnone y hy z hz
      rcases hs.closed hnone y hy z hz with hseen | htodo
      · exact Or.inl hseen
      · rcases List.mem_cons.1 htodo with rfl | htodo
        · exact Or.inl (hmet hnone)
        · exact Or.inr htodo
  · rw [if_neg hdone]
    by_cases hmatch : h.standsFor t x = true
    · rw [if_pos hmatch]
      refine ⟨hrest, hs.met, ?_, ?_, ?_⟩
      · intro y hy
        obtain rfl := Option.some.inj hy
        exact ⟨hx, standsFor_iff.1 hmatch⟩
      · intro hnone
        cases hnone
      · intro hnone
        cases hnone
    · rw [if_neg hmatch]
      refine ⟨?_, ?_, hs.found, ?_, ?_⟩
      · refine List.forall_mem_append.2 ⟨?_, hrest⟩
        intro y hy
        exact Relation.ReflTransGen.tail hx hy
      · exact List.forall_mem_cons.2 ⟨mt standsFor_iff.2 hmatch, hs.met⟩
      · intro hnone
        rcases hs.start hnone with hroot | hroot
        · exact Or.inl (List.mem_cons_of_mem x hroot)
        · rcases List.mem_cons.1 hroot with rfl | hroot
          · exact Or.inl List.mem_cons_self
          · exact Or.inr (List.mem_append_right _ hroot)
      · intro hnone y hy z hz
        rcases List.mem_cons.1 hy with rfl | hy
        · exact Or.inr (List.mem_append_left _ hz)
        · rcases hs.closed hnone y hy z hz with hseen | htodo
          · exact Or.inl (List.mem_cons_of_mem x hseen)
          · rcases List.mem_cons.1 htodo with rfl | htodo
            · exact Or.inl List.mem_cons_self
            · exact Or.inr (List.mem_append_right _ htodo)

/-- Every step spends more than it puts back. -/
theorem searchStep_cost (h : Heap) (t : ObjectType) (s : Search) (x : GroupId) :
    unvisited (fun g => (h.group g).subs.length) h.groupIds (h.searchStep t s x).1.seen +
      totalCost (fun _ => 1) (h.searchStep t s x).2 <
        unvisited (fun g => (h.group g).subs.length) h.groupIds s.seen + 1 := by
  unfold searchStep
  split
  · simp
  · rename_i hnew
    split
    · simp
    · rw [not_or] at hnew
      rw [totalCost_one]
      by_cases hin : h.HasGroup x
      · exact Nat.lt_succ_of_le (unvisited_cons_lt _ (mem_groupIds.2 hin) hnew.2)
      · -- a group that the heap does not have lists no other one
        rw [show (h.group x).subs = [] by rw [group_of_not_hasGroup hin]; rfl]
        exact Nat.lt_succ_of_le (unvisited_cons_le _ h.groupIds s.seen x)

/-- The search always comes to an end. -/
theorem exists_search (h : Heap) (t : ObjectType) (root : GroupId) :
    ∃ s, explore (h.searchStep t) h.searchBound {} [root] = some s ∧ h.Searching t root s [] := by
  have hsome : (explore (h.searchStep t) h.searchBound {} [root]).isSome = true := by
    refine @explore_isSome _ _ _
      (fun s => unvisited (fun g => (h.group g).subs.length) h.groupIds s.seen) (fun _ => 1)
      (searchStep_cost h t) _ _ _ ?_
    rw [unvisited_nil]
    exact Nat.le_refl _
  obtain ⟨s, hs⟩ := Option.isSome_iff_exists.1 hsome
  refine ⟨s, hs, (searching_preserved h t root).explore _ _ _ ?_ hs⟩
  exact ⟨by simp [Beneath, Relation.ReflTransGen.refl], by simp, by simp, by simp, by simp⟩

/-- What is found matches. -/
theorem matches_of_findInTree (hx : h.findInTree t top = some x) :
    h.Beneath top x ∧ h.Matches t x := by
  obtain ⟨s, hs, hend⟩ := exists_search h t top
  rw [findInTree, hs] at hx
  exact hend.found x hx

/-- **The search fails only where no group beneath the root matches.** -/
theorem findInTree_eq_none_iff :
    h.findInTree t top = none ↔ ¬ ∃ x, h.Beneath top x ∧ h.Matches t x := by
  obtain ⟨s, hs, hend⟩ := exists_search h t top
  constructor
  · intro hnone hmatch
    rw [findInTree, hs] at hnone
    have hmet : ∀ x, h.Beneath top x → x ∈ s.seen := by
      intro x hx
      induction hx with
      | refl => simpa using hend.start hnone
      | tail _ hz ih => simpa using hend.closed hnone _ ih _ hz
    obtain ⟨x, hx, hmatch⟩ := hmatch
    exact hend.met x (hmet x hx) hmatch
  · intro hno
    cases hx : h.findInTree t top with
    | none => rfl
    | some x => exact absurd ⟨x, matches_of_findInTree hx⟩ hno

/-! ### The nearest type -/

/-- A root group that looks for a group of another type and has links to look along. -/
structure Seeks (h : Heap) (g : GroupId) (d : TypeProfile) : Prop where
  root : (h.group g).nestedIn = none
  typed : ∃ t, (h.group g).type = some t ∧ t ≠ d.type
  linked : (h.group g).isLinked = true

/-- A group that seeks answers with what is found for the first level that has a match. -/
theorem Seeks.groupFor_eq (hg : h.Seeks g d) : h.groupFor g d =
    (d.levels.findSome? fun level => h.findInTree level.type (h.topGroup g)).getD g := by
  obtain ⟨t, ht, hne⟩ := hg.typed
  have hother : ¬((h.group g).type = none ∨ (h.group g).type = some d.type) := by
    rw [ht]
    simpa using hne
  have hplace : ∀ u, h.placeFor g u = h.findInTree u (h.topGroup g) := by
    intro u
    rw [placeFor, hg.root]
  simp only [groupFor, if_neg hother, if_pos hg.linked, hplace]

/-- What a group that seeks answers, where the first of the levels with a match has one. -/
theorem Seeks.matches_groupFor (hg : h.Seeks g d) {before after : List TypeLevel}
    {level : TypeLevel} (hlevels : d.levels = before ++ level :: after)
    (hbefore : ∀ earlier ∈ before, ¬ ∃ x, h.Beneath (h.topGroup g) x ∧ h.Matches earlier.type x)
    (hlevel : ∃ x, h.Beneath (h.topGroup g) x ∧ h.Matches level.type x) :
    h.Beneath (h.topGroup g) (h.groupFor g d) ∧ h.Matches level.type (h.groupFor g d) := by
  cases hx : h.findInTree level.type (h.topGroup g) with
  | none => exact absurd hlevel (findInTree_eq_none_iff.1 hx)
  | some x =>
    have hfirst : (d.levels.findSome? fun level => h.findInTree level.type (h.topGroup g)) =
        some x := by
      refine List.findSome?_eq_some_iff.2 ⟨before, level, after, hlevels, hx, ?_⟩
      intro earlier hearlier
      exact findInTree_eq_none_iff.2 (hbefore earlier hearlier)
    rw [hg.groupFor_eq, hfirst]
    exact matches_of_findInTree hx

/-- Some level is the first one with a match, if any level has one. -/
theorem exists_first_level {levels : List TypeLevel}
    (hsome : ∃ level ∈ levels, ∃ x, h.Beneath top x ∧ h.Matches level.type x) :
    ∃ before level after, levels = before ++ level :: after ∧
      (∀ earlier ∈ before, ¬ ∃ x, h.Beneath top x ∧ h.Matches earlier.type x) ∧
      ∃ x, h.Beneath top x ∧ h.Matches level.type x := by
  have hfound : (levels.findSome? fun level => h.findInTree level.type top).isSome = true := by
    obtain ⟨level, hmem, hlevel⟩ := hsome
    rw [List.findSome?_isSome_iff]
    refine ⟨level, hmem, Option.isSome_iff_ne_none.2 ?_⟩
    intro hnone
    exact findInTree_eq_none_iff.1 hnone hlevel
  obtain ⟨x, hx⟩ := Option.isSome_iff_exists.1 hfound
  obtain ⟨before, level, after, rfl, hlevel, hbefore⟩ := List.findSome?_eq_some_iff.1 hx
  refine ⟨before, level, after, rfl, ?_, x, matches_of_findInTree hlevel⟩
  intro earlier hearlier
  exact findInTree_eq_none_iff.1 (hbefore earlier hearlier)

/-- **The group that applies is one for the nearest type that any group of the tree matches.**  The
tree is what lies beneath the end of the climb along super groups; the group itself applies where
nothing in the tree matches.  In a forest whose groups match different types, all groups of a tree
answer alike. -/
theorem groupFor_nearest (hg : h.Seeks g d) :
    ∃ top, (∀ x, h.ClimbsTo [] g x ↔ x = top) ∧
      (∀ before level after, d.levels = before ++ level :: after →
        (∀ earlier ∈ before, ¬ ∃ x, h.Beneath top x ∧ h.Matches earlier.type x) →
        (∃ x, h.Beneath top x ∧ h.Matches level.type x) →
        h.Beneath top (h.groupFor g d) ∧ h.Matches level.type (h.groupFor g d)) ∧
      ((∀ level ∈ d.levels, ¬ ∃ x, h.Beneath top x ∧ h.Matches level.type x) →
        h.groupFor g d = g) ∧
      (h.Forest →
        (∀ level ∈ d.levels, ∀ x y, h.Beneath top x → h.Beneath top y →
          h.Matches level.type x → h.Matches level.type y → x = y) →
        (∃ level ∈ d.levels, ∃ x, h.Beneath top x ∧ h.Matches level.type x) →
        ∀ g', h.Seeks g' d → h.Beneath top g' → h.groupFor g' d = h.groupFor g d) := by
  refine ⟨h.topGroup g, fun x => climbsTo_iff, ?_, ?_, ?_⟩
  · intro before level after hlevels hbefore hlevel
    exact hg.matches_groupFor hlevels hbefore hlevel
  · intro hnowhere
    have hnone : (d.levels.findSome? fun level => h.findInTree level.type (h.topGroup g)) =
        none := by
      rw [List.findSome?_eq_none_iff]
      intro level hlevel
      exact findInTree_eq_none_iff.2 (hnowhere level hlevel)
    rw [hg.groupFor_eq, hnone]
    rfl
  · intro hforest honce hsome g' hg' hbeneath
    have htop : h.topGroup g' = h.topGroup g := by
      rw [hforest.topGroup_eq hbeneath, ← hforest.topGroup_eq (hforest.beneath_topGroup g)]
    obtain ⟨before, level, after, hlevels, hbefore, hlevel⟩ := exists_first_level hsome
    obtain ⟨hin, hmatch⟩ := hg.matches_groupFor hlevels hbefore hlevel
    obtain ⟨hin', hmatch'⟩ := hg'.matches_groupFor hlevels (htop.symm ▸ hbefore)
      (htop.symm ▸ hlevel)
    have hmem : level ∈ d.levels := by
      rw [hlevels]
      exact List.mem_append_right before List.mem_cons_self
    rw [htop] at hin'
    exact honce level hmem _ _ hin' hin hmatch' hmatch

/-- Managers, with the party above them. -/
def managers : TypeProfile :=
  let party := ObjectType.root "Party" "Party"
  ⟨⟨.sub "Manager" "Manager" party, .empty⟩, [⟨party, .empty⟩]⟩

/-- The managers' own group is not below the party, so for managers the party applies, whether the
guests or the employees are asked. -/
theorem groupFor_nearest_attendance :
    attendance.Seeks ⟨2⟩ managers ∧ attendance.Seeks ⟨1⟩ managers ∧
      attendance.groupFor ⟨2⟩ managers = ⟨0⟩ ∧
      attendance.groupFor ⟨1⟩ managers = attendance.groupFor ⟨2⟩ managers := by
  have hguest : attendance.Seeks ⟨2⟩ managers := ⟨rfl, ⟨_, rfl, by decide⟩, rfl⟩
  have hemployee : attendance.Seeks ⟨1⟩ managers := ⟨rfl, ⟨_, rfl, by decide⟩, rfl⟩
  obtain ⟨top, htop, hnearest, -, halike⟩ := groupFor_nearest hguest
  have hparty : ⟨0⟩ = top := (htop ⟨0⟩).1 (.up (by decide) rfl (.ends (by decide) rfl))
  subst hparty
  have hnone : ¬ ∃ x, attendance.Beneath ⟨0⟩ x ∧ attendance.Matches managers.level.type x := by
    intro hsome
    obtain ⟨x, hx, hmatch⟩ := hsome
    have hno : ∀ x ∈ attendance.groupIds, attendance.Matches managers.level.type x →
        attendance.topGroup x ≠ attendance.topGroup ⟨0⟩ := by decide
    exact hno x (mem_groupIds.2 hmatch.hasGroup) hmatch (forest_attendance.topGroup_eq hx)
  have honce : ∀ level ∈ managers.levels, ∀ x ∈ attendance.groupIds,
      ∀ y ∈ attendance.groupIds, attendance.Matches level.type x →
        attendance.Matches level.type y → x = y := by decide
  have hsome : ∃ x, attendance.Beneath ⟨0⟩ x ∧
      attendance.Matches (ObjectType.root "Party" "Party") x := ⟨⟨0⟩, .refl, by decide⟩
  obtain ⟨-, hmatch⟩ := hnearest [managers.level] ⟨.root "Party" "Party", .empty⟩ [] rfl
    (by simpa using hnone) hsome
  refine ⟨hguest, hemployee, ?_, ?_⟩
  · exact honce ⟨.root "Party" "Party", .empty⟩ (by decide) _
      (mem_groupIds.2 hmatch.hasGroup) ⟨0⟩ (by decide) hmatch (by decide)
  · refine halike forest_attendance ?_ ⟨_, List.mem_cons_of_mem _ List.mem_cons_self, hsome⟩
      ⟨1⟩ hemployee (.single (by decide))
    intro level hlevel x y _ _ hx hy
    exact honce level hlevel x (mem_groupIds.2 hx.hasGroup) y (mem_groupIds.2 hy.hasGroup) hx hy

end AttributeGraph.Heap
