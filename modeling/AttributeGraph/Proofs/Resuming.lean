/-
Resolving names again after a failure.

Resolving names stops at the first name that the resolver refuses.  What it has
done by then is a beginning of its plan, and a resolver that knows more would have
done the same (`exists_applyAll_prefix`).  When it is called again, it follows the
links as they are now, and these may be fewer: of nested groups that come to share
a tag only the last one stays when their item is filed anew.

An item is filed anew when its groups have been visited, so what it loses has been
visited, and all that is left to visit is still reached from the groups the visit of
which had begun.  These form a path from the root, the groups of the frames of the
stack (`Spine`).  The path is cut only where an item is filed anew from a frame
further up while a nested group that it loses is being visited, that is if two
groups declare the item.  `KeepsWays` excludes this, and then nothing is missed
(`resolveNames_again`); `resolveNames_misses_office` shows that it cannot be left out.
-/
import AttributeGraph.Proofs.Resolving

namespace AttributeGraph.Heap

variable {h F F' : Heap} {resolver r r' : Resolver} {root : GroupId}
  {G G' : GroupId → Prop} {I I' : ItemId → Prop}

/-! ### Changes on top of changes -/

namespace CarriedOut

/-- An item that has been filed anew on both sides or on neither is the same on both. -/
theorem item_eq (hF : CarriedOut h r G I F) (hF' : CarriedOut h r G' I' F') {i : ItemId}
    (hi : I' i ↔ I i) : F'.item i = F.item i := by
  by_cases hI : I i
  · rw [hF.item i hI, hF'.item i (hi.2 hI)]
  · rw [hF.otherItem i hI, hF'.otherItem i (mt hi.1 hI)]

/-- What has been changed determines the heap. -/
theorem unique (hF : CarriedOut h r G I F) (hF' : CarriedOut h r G I F') : F = F' := by
  have hgroup : ∀ g, F.group g = F'.group g := by
    intro g
    by_cases hg : G g
    · rw [hF.group g hg, hF'.group g hg]
    · rw [hF.otherGroup g hg, hF'.otherGroup g hg]
  have hitem : ∀ i, F.item i = F'.item i := fun i => hF'.item_eq hF Iff.rfl
  have hgroups : F.groups = F'.groups := by
    refine Array.ext (hF.groups.trans hF'.groups.symm) fun n hn hn' => ?_
    simpa [Heap.group, Array.getD, hn, hn'] using hgroup ⟨n⟩
  have hitems : F.items = F'.items := by
    refine Array.ext (hF.items.trans hF'.items.symm) fun n hn hn' => ?_
    simpa [Heap.item, Array.getD, hn, hn'] using hitem ⟨n⟩
  have hvariants : F.variants = F'.variants := hF.variants.trans hF'.variants.symm
  have hregistries : F.copyRegistries = F'.copyRegistries :=
    hF.copyRegistries.trans hF'.copyRegistries.symm
  cases F
  cases F'
  simp_all

theorem tagAfter_eq (hF : CarriedOut h r G I F) : F.tagAfter r = h.tagAfter r := by
  funext z
  unfold tagAfter
  by_cases hz : G z
  · rw [hF.group z hz, Group.resolved_resolved]
  · rw [hF.otherGroup z hz]

/-- Resolving groups and filing items anew can be repeated. -/
theorem trans (hF : CarriedOut h r G I F) (hF' : CarriedOut F r G' I' F') :
    CarriedOut h r (fun g => G g ∨ G' g) (fun i => I i ∨ I' i) F' where
  groups := hF'.groups.trans hF.groups
  items := hF'.items.trans hF.items
  variants := hF'.variants.trans hF.variants
  copyRegistries := hF'.copyRegistries.trans hF.copyRegistries
  group g hg := by
    by_cases hg' : G' g
    · rw [hF'.group g hg']
      by_cases hG : G g
      · rw [hF.group g hG, Group.resolved_resolved]
      · rw [hF.otherGroup g hG]
    · rw [hF'.otherGroup g hg', hF.group g (hg.resolve_right hg')]
  otherGroup g hg := by
    rw [not_or] at hg
    rw [hF'.otherGroup g hg.2, hF.otherGroup g hg.1]
  item i hi := by
    by_cases hi' : I' i
    · rw [hF'.item i hi', hF.tagAfter_eq]
      by_cases hI : I i
      · rw [hF.item i hI, Item.retag_retag]
      · rw [hF.otherItem i hI]
    · rw [hF'.otherItem i hi', hF.item i (hi.resolve_right hi')]
  otherItem i hi := by
    rw [not_or] at hi
    rw [hF'.otherItem i hi.2, hF.otherItem i hi.1]

/-- Nested groups may be lost, but none are gained. -/
theorem mem_nested (hF : CarriedOut h r G I F) {i : ItemId} {z : GroupId}
    (hz : z ∈ (F.item i).nested) : z ∈ (h.item i).nested := by
  by_cases hi : I i
  · rw [hF.item i hi] at hz
    exact Item.mem_nested_retag hz
  · rwa [hF.otherItem i hi] at hz

theorem subs_eq (hF : CarriedOut h r G I F) (g : GroupId) :
    (F.group g).subs = (h.group g).subs := by
  rw [Group.subs, Group.subs, (hF.links g).2]

theorem leads (hF : CarriedOut h r G I F) {x y : GroupId} (hxy : F.Leads x y) :
    h.Leads x y := by
  cases hxy with
  | above hs =>
    rw [(hF.links x).1] at hs
    exact .above hs
  | below hs =>
    rw [hF.subs_eq] at hs
    exact .below hs
  | nested hy =>
    obtain ⟨side, hi, hy⟩ := hy
    rw [hF.itemIds] at hi
    obtain ⟨side, hy⟩ := Item.mem_nested.1 (hF.mem_nested (Item.mem_nested.2 ⟨side, hy⟩))
    exact .nested ⟨side, hi, hy⟩

theorem visited (hF : CarriedOut h r G I F) {x y : GroupId} (hxy : F.Visited x y) :
    h.Visited x y :=
  Relation.ReflTransGen.mono (fun _ _ => hF.leads) x y hxy

/-- A link is left unless it leads through an item that has lost the group at its end. -/
theorem leads_of (hF : CarriedOut h r G I F) (hF' : CarriedOut h r G' I' F') {x y : GroupId}
    (hxy : F.Leads x y)
    (hkept : ∀ i ∈ (h.group x).itemIds, y ∈ (F.item i).nested → y ∈ (F'.item i).nested) :
    F'.Leads x y := by
  cases hxy with
  | above hs =>
    rw [(hF.links x).1, ← (hF'.links x).1] at hs
    exact .above hs
  | below hs =>
    rw [hF.subs_eq, ← hF'.subs_eq] at hs
    exact .below hs
  | nested hy =>
    obtain ⟨side, hi, hy⟩ := hy
    rw [hF.itemIds] at hi
    obtain ⟨side, hy⟩ := Item.mem_nested.1 (hkept _ hi (Item.mem_nested.2 ⟨side, hy⟩))
    rw [← hF'.itemIds] at hi
    exact .nested ⟨side, hi, hy⟩

theorem resolvable (hF : CarriedOut h r G I F)
    (hresolvable : ∀ g, h.Visited root g → (h.group g).Resolvable r) :
    ∀ g, F.Visited root g → (F.group g).Resolvable r := by
  intro g hg
  have hg' := hresolvable g (hF.visited hg)
  by_cases hG : G g
  · rw [hF.group g hG]
    exact hg'.resolved
  · rwa [hF.otherGroup g hG]

end CarriedOut

/-! ### A beginning of the plan -/

/-- A change that can be carried out is carried out alike with a resolver that knows more. -/
theorem apply_mono (hmore : ∀ n t, r n = .ok t → r' n = .ok t) {change : Change}
    (hF : h.apply r change = .ok F) : h.apply r' change = .ok F := by
  cases change with
  | refile i => exact hF
  | resolve g =>
    unfold Heap.apply at hF ⊢
    cases htype : (h.group g).type with
    | some t => simpa only [htype] using hF
    | none =>
      cases hname : (h.group g).typeName with
      | none => simpa only [htype, hname] using hF
      | some n =>
        simp only [htype, hname] at hF ⊢
        cases ht : r n with
        | error cause =>
          rw [ht] at hF
          cases hF
        | ok t =>
          rw [ht] at hF
          rw [hmore n t ht]
          exact hF

/-- **What a list of changes leaves behind, also if it fails, is what a beginning of the list leaves
behind** with a resolver that knows more. -/
theorem exists_applyAll_prefix (hmore : ∀ n t, r n = .ok t → r' n = .ok t)
    (changes : List Change) : ∀ h : Heap, ∃ done, done <+: changes ∧
      h.applyAll r' done = { heap := (h.applyAll r changes).heap, answer := .ok () } := by
  induction changes with
  | nil => exact fun h => ⟨[], List.nil_prefix, rfl⟩
  | cons change rest ih =>
    intro h
    cases hF : h.apply r change with
    | ok F =>
      obtain ⟨done, hdone, hheap⟩ := ih F
      refine ⟨change :: done, List.cons_prefix_cons.2 ⟨rfl, hdone⟩, ?_⟩
      rw [applyAll, apply_mono hmore hF, applyAll, hF]
      exact hheap
    | error e =>
      refine ⟨[], List.nil_prefix, ?_⟩
      rw [applyAll, applyAll, hF]

/-- A step adds one change to the plan at most. -/
theorem changes_resolutionStep (h : Heap) (p : ResolutionPlan) (t : ResolutionTask) :
    (h.resolutionStep p t).1.changes.reverse = p.changes.reverse ∨
      ∃ change, (h.resolutionStep p t).1.changes.reverse = p.changes.reverse ++ [change] := by
  have hm := resolutionStep_move h p t
  generalize (h.resolutionStep p t).1 = p' at hm ⊢
  generalize (h.resolutionStep p t).2 = new at hm
  cases hm with
  | skip hg => exact .inl rfl
  | visit hg => exact .inr ⟨_, List.reverse_cons⟩
  | enter i => exact .inl rfl
  | leave i => exact .inr ⟨_, List.reverse_cons⟩

/-- **A run that may fail leaves a heap as it is at some time while the names are resolved**, with
any invariant of the plan. -/
theorem exists_stopped {P : ResolutionPlan → List ResolutionTask → Prop}
    (hP : Preserved h.resolutionStep P) (hstart : P {} [.group root])
    (hmore : ∀ n t, r n = .ok t → r' n = .ok t) :
    ∃ p todo, P p todo ∧ h.applyAll r' p.changes.reverse =
      { heap := (h.resolveNames root r).heap, answer := .ok () } := by
  obtain ⟨out, hout⟩ := exists_resolutionPlan h [.group root]
  have hplan : h.resolutionPlan [.group root] = out.changes.reverse := by
    rw [resolutionPlan, hout]
  obtain ⟨done, hdone, hrun⟩ := exists_applyAll_prefix hmore out.changes.reverse h
  obtain ⟨p, todo, hp, rfl⟩ := hP.exists_at_prefix (fun p => p.changes.reverse)
    (changes_resolutionStep h) hdone _ _ _ hstart hout List.nil_prefix
  refine ⟨p, todo, hp, ?_⟩
  rw [hrun, resolveNames, hplan]

/-! ### The groups that are being visited -/

/-- The stack is in frames, one for each group the visit of which has begun and not ended.  A task
belongs to the frame on top, whose group it visits or whose item it concerns. -/
def Belongs (F : Heap) (root : GroupId) (seen : List GroupId) :
    List GroupId → ResolutionTask → Prop
  | [], t => t = .group root
  | s :: _, .group w => w ∈ seen ∨ F.Leads s w
  | s :: _, .item i => i ∈ (F.group s).itemIds
  | s :: _, .refile i => i ∈ (F.group s).itemIds

/-- A group is entered from the group of the frame on top. -/
def EnteredFrom (F : Heap) (root : GroupId) : List GroupId → GroupId → Prop
  | [], s => s = root
  | x :: _, s => F.Leads x s

/-- The groups of the frames, the one on top first: each is entered from the next one, along a link
that the heap still has. -/
inductive Spine (F : Heap) (root : GroupId) (seen : List GroupId) :
    List GroupId → List ResolutionTask → Prop
  | done : Spine F root seen [] []
  | task {frames : List GroupId} {t : ResolutionTask} {todo : List ResolutionTask}
      (ht : Belongs F root seen frames t) (hbelow : Spine F root seen frames todo) :
      Spine F root seen frames (t :: todo)
  | frame {frames : List GroupId} {s : GroupId} {todo : List ResolutionTask} (hs : s ∈ seen)
      (hnew : s ∉ frames) (hentered : EnteredFrom F root frames s)
      (hbelow : Spine F root seen frames todo) : Spine F root seen (s :: frames) todo

namespace Spine

variable {seen seen' frames : List GroupId} {s y : GroupId} {t : ResolutionTask}
  {todo new rest : List ResolutionTask}

theorem seen_of_mem (hspine : Spine F root seen frames todo) : ∀ x ∈ frames, x ∈ seen := by
  induction hspine with
  | done => simp
  | task _ _ ih => exact ih
  | frame hs _ _ _ ih => exact List.forall_mem_cons.2 ⟨hs, ih⟩

/-- The group of every frame is met from the root. -/
theorem visited (hspine : Spine F root seen frames todo) : ∀ x ∈ frames, F.Visited root x := by
  induction hspine with
  | done => simp
  | task _ _ ih => exact ih
  | @frame frames s todo _ _ hentered _ ih =>
    refine List.forall_mem_cons.2 ⟨?_, ih⟩
    cases frames with
    | nil =>
      obtain rfl : s = root := hentered
      exact .refl
    | cons x frames => exact (ih x List.mem_cons_self).tail hentered

/-- The group on top is met from the group of every frame, and has no other frame. -/
theorem visited_top (hspine : Spine F root seen frames todo) :
    ∀ {y : GroupId} {below : List GroupId}, frames = y :: below →
      ∀ {s : GroupId} {lower : List GroupId}, s :: lower <:+ frames →
        F.Visited s y ∧ y ∉ lower := by
  induction hspine with
  | done =>
    intro y below hframes
    cases hframes
  | task _ _ ih => exact ih
  | @frame frames x todo _ hnew hentered _ ih =>
    intro y below hframes s lower hsuffix
    obtain ⟨rfl, rfl⟩ := List.cons.inj hframes
    rcases List.suffix_cons_iff.1 hsuffix with heq | hbelow
    · obtain ⟨rfl, rfl⟩ := List.cons.inj heq
      exact ⟨.refl, hnew⟩
    · cases frames with
      | nil => simp at hbelow
      | cons z frames =>
        obtain ⟨hvisited, -⟩ := ih rfl hbelow
        refine ⟨hvisited.tail hentered, fun hmem => hnew ?_⟩
        exact hbelow.subset (List.mem_cons_of_mem s hmem)

/-- Tasks that belong to the frame on top can be put in front. -/
theorem append (hspine : Spine F root seen frames todo)
    (hnew : ∀ u ∈ new, Belongs F root seen frames u) : Spine F root seen frames (new ++ todo) := by
  induction new with
  | nil => exact hspine
  | cons u new ih =>
    rw [List.forall_mem_cons] at hnew
    exact .task hnew.1 (ih hnew.2)

/-- The first task belongs to some frame; frames above it have nothing left to do. -/
theorem top (hspine : Spine F root seen frames (t :: rest)) :
    ∃ frames, Belongs F root seen frames t ∧ Spine F root seen frames rest := by
  generalize htodo : t :: rest = todo at hspine
  induction hspine with
  | done => cases htodo
  | task ht hbelow _ =>
    obtain ⟨rfl, rfl⟩ := List.cons.inj htodo
    exact ⟨_, ht, hbelow⟩
  | frame _ _ _ _ ih => exact ih htodo

/-- The frames stay when more groups have been seen and the links that they go by are left. -/
theorem change (hspine : Spine F root seen frames todo) (hseen : seen ⊆ seen')
    (hids : ∀ x, (F'.group x).itemIds = (F.group x).itemIds)
    (hleads : ∀ x w, F.Leads x w → w ∈ seen' ∨ F'.Leads x w)
    (hkept : ∀ x s lower, s :: x :: lower <:+ frames → F.Leads x s → F'.Leads x s) :
    Spine F' root seen' frames todo := by
  induction hspine with
  | done => exact .done
  | @task frames t todo ht _ ih =>
    refine .task ?_ (ih hkept)
    match frames, t with
    | [], t => exact ht
    | s :: _, .group w =>
      rcases ht with hw | hw
      · exact .inl (hseen hw)
      · exact hleads s w hw
    | s :: _, .item i => rwa [Belongs, hids]
    | s :: _, .refile i => rwa [Belongs, hids]
  | @frame frames s todo hs hnew hentered _ ih =>
    refine .frame (hseen hs) hnew ?_ (ih fun x s' lower hsuffix =>
      hkept x s' lower (hsuffix.trans (List.suffix_cons s frames)))
    cases frames with
    | nil => exact hentered
    | cons x lower => exact hkept x s lower (List.suffix_refl _) hentered

/-- What a task on the stack leads to has been seen, or it is met from the root. -/
theorem waiting (hspine : Spine F root seen frames todo) :
    (∀ w, .group w ∈ todo → w ∈ seen ∨ F.Visited root w) ∧
      ∀ i, .item i ∈ todo ∨ .refile i ∈ todo → F.VisitedItem root i := by
  induction hspine with
  | done => simp
  | frame _ _ _ _ ih => exact ih
  | @task frames t todo ht hbelow ih =>
    have hvisited : ∀ s lower, frames = s :: lower → F.Visited root s := by
      rintro s lower rfl
      exact hbelow.visited s List.mem_cons_self
    constructor
    · intro w hw
      rcases List.mem_cons.1 hw with rfl | hw
      · cases frames with
        | nil =>
          obtain rfl : w = root := by simpa [Belongs] using ht
          exact .inr .refl
        | cons s lower => exact ht.imp_right fun hsw => (hvisited s lower rfl).tail hsw
      · exact ih.1 w hw
    · intro i hi
      by_cases hin : .item i ∈ todo ∨ .refile i ∈ todo
      · exact ih.2 i hin
      · have htask : t = .item i ∨ t = .refile i := by
          rw [not_or] at hin
          exact hi.imp (fun hmem => ((List.mem_cons.1 hmem).resolve_right hin.1).symm)
            fun hmem => ((List.mem_cons.1 hmem).resolve_right hin.2).symm
        cases frames with
        | nil => rcases htask with rfl | rfl <;> simp [Belongs] at ht
        | cons s lower =>
          refine ⟨s, hvisited s lower rfl, ?_⟩
          rcases htask with rfl | rfl <;> exact ht

end Spine

/-! ### Nothing is missed -/

/-- Whenever an item loses a nested group because its groups are merged, and that group leads to a
group that declares the item, no other group that is met declares it. -/
def KeepsWays (h : Heap) (resolver : Resolver) (root : GroupId) : Prop :=
  ∀ i x y z, h.Visited root x → h.Visited root y → i ∈ (h.group x).itemIds →
    i ∈ (h.group y).itemIds → z ∈ (h.item i).nested →
    z ∉ ((h.item i).retag (h.tagAfter resolver)).nested → h.Visited z y → x = y

/-- A plan in progress, carried out so far, with the frames of its stack. -/
structure Resumable (h : Heap) (resolver : Resolver) (root : GroupId) (p : ResolutionPlan)
    (todo : List ResolutionTask) : Prop extends Planning h root p todo where
  framed : ∃ F, h.applyAll resolver p.changes.reverse = { heap := F, answer := .ok () } ∧
    CarriedOut h resolver (· ∈ p.seen) (.refile · ∈ p.changes) F ∧
      ∃ frames, Spine F root p.seen frames todo

section Frames

variable {p p' : ResolutionPlan} {t : ResolutionTask} {new rest : List ResolutionTask}
  {frames : List GroupId}

/-- An item that has not been filed anew still nests what it nested. -/
theorem CarriedOut.belongs_of_item
    (hF : CarriedOut h resolver (· ∈ p.seen) (.refile · ∈ p.changes) F)
    (hp : Planning h root p todo) {i : ItemId} {s : GroupId} (hi : i ∈ (F.group s).itemIds)
    {z : GroupId} (hz : z ∈ (h.item i).nested) : z ∈ p.seen ∨ F.Leads s z := by
  by_cases hrefiled : .refile i ∈ p.changes
  · exact .inl ((hp.changed i hrefiled).2 z hz)
  · rw [← hF.otherItem i hrefiled] at hz
    obtain ⟨side, hz⟩ := Item.mem_nested.1 hz
    exact .inr (.nested ⟨side, hi, hz⟩)

/-- Visiting a group puts a frame on top, with all that follows from the visit. -/
theorem Spine.visit {g : GroupId} (hspine : Spine F root p.seen frames rest)
    (ht : Belongs F root p.seen frames (.group g)) (hg : g ∉ p.seen)
    (hF : CarriedOut h resolver (· ∈ p.seen) (.refile · ∈ p.changes) F)
    (hF' : CarriedOut h resolver G' (.refile · ∈ p.changes) F') :
    Spine F' root (g :: p.seen) (g :: frames) (h.resolutionTasks g ++ rest) := by
  have hleads : ∀ {x w}, F.Leads x w → F'.Leads x w := fun hxw =>
    hF.leads_of hF' hxw fun i _ hw => (hF.item_eq hF' Iff.rfl).symm ▸ hw
  have hframes : Spine F' root (g :: p.seen) frames rest :=
    hspine.change (List.subset_cons_self g p.seen)
      (fun x => (hF'.itemIds x).trans (hF.itemIds x).symm) (fun x w hxw => .inr (hleads hxw))
      fun x s lower _ hxs => hleads hxs
  have hnew : g ∉ frames := fun hmem => hg (hspine.seen_of_mem g hmem)
  have hentered : EnteredFrom F' root frames g := by
    cases frames with
    | nil => exact ResolutionTask.group.inj ht
    | cons s lower => exact hleads (ht.resolve_left hg)
  refine (hframes.frame List.mem_cons_self hnew hentered).append fun u hu => ?_
  rcases mem_resolutionTasks.1 hu with ⟨s, hs, rfl⟩ | ⟨s, hs, rfl⟩ | ⟨i, hi, rfl⟩
  · rw [← (hF'.links g).1] at hs
    exact .inr (.above hs)
  · rw [← hF'.subs_eq] at hs
    exact .inr (.below hs)
  · rw [← hF'.itemIds] at hi
    exact hi

/-- Filing an item anew from the frame on top cuts no link between frames. -/
theorem Spine.leave {i : ItemId} {y : GroupId} {lower : List GroupId}
    (hspine : Spine F root p.seen (y :: lower) rest) (hi : i ∈ (F.group y).itemIds)
    (hways : h.KeepsWays resolver root) (hseen : ∀ g ∈ p.seen, h.Visited root g)
    (hnested : ∀ z ∈ (h.item i).nested, z ∈ p.seen)
    (hF : CarriedOut h resolver (· ∈ p.seen) (.refile · ∈ p.changes) F)
    (hF' : CarriedOut h resolver (· ∈ p.seen) (fun j => j = i ∨ .refile j ∈ p.changes) F') :
    Spine F' root p.seen (y :: lower) rest := by
  have hother : ∀ {j}, j ≠ i → F'.item j = F.item j := fun hji =>
    hF.item_eq hF' (or_iff_right hji)
  refine hspine.change (List.Subset.refl _) (fun x => (hF'.itemIds x).trans (hF.itemIds x).symm)
    (fun x w hxw => ?_) fun x s below hsuffix hxs => ?_
  · by_cases hw : w ∈ (h.item i).nested
    · exact .inl (hnested w hw)
    · refine .inr (hF.leads_of hF' hxw fun j _ hj => ?_)
      have hji : j ≠ i := by
        rintro rfl
        exact hw (hF.mem_nested hj)
      rwa [hother hji]
  · obtain ⟨hvisited, hlow⟩ := hspine.visited_top rfl hsuffix
    refine hF.leads_of hF' hxs fun j hj hs => ?_
    by_cases hji : j = i
    · -- the item is filed anew from the frame on top, and the frame below declares it too
      subst hji
      rw [hF'.item j (.inl rfl)]
      by_contra hlost
      have hx : x ∈ y :: lower := hsuffix.subset (by simp)
      rw [hF.itemIds] at hi
      have heq : x = y := hways j x y s (hseen x (hspine.seen_of_mem x hx))
        (hseen y (hspine.seen_of_mem y List.mem_cons_self)) hj hi (hF.mem_nested hs) hlost
        (hF.visited hvisited)
      exact hlow (heq ▸ List.mem_cons_self)
    · rwa [hother hji]

/-- The frames go along with a step of the plan. -/
theorem Spine.move (hspine : Spine F root p.seen frames (t :: rest))
    (hways : h.KeepsWays resolver root) (hp : Planning h root p (t :: rest))
    (hm : PlanMove h p t p' new)
    (hF : CarriedOut h resolver (· ∈ p.seen) (.refile · ∈ p.changes) F)
    (hF' : CarriedOut h resolver (· ∈ p'.seen) (.refile · ∈ p'.changes) F') :
    ∃ frames, Spine F' root p'.seen frames (new ++ rest) := by
  obtain ⟨frames, ht, hrest⟩ := hspine.top
  cases hm with
  | skip hg =>
    obtain rfl := hF.unique hF'
    exact ⟨frames, hrest⟩
  | visit hg => exact ⟨_, hrest.visit ht hg hF (hF'.congr (fun _ => Iff.rfl) (by simp))⟩
  | enter i =>
    obtain rfl := hF.unique hF'
    cases frames with
    | nil => simp [Belongs] at ht
    | cons s lower =>
      refine ⟨s :: lower, hrest.append (List.forall_mem_append.2 ⟨fun u hu => ?_, ?_⟩)⟩
      · obtain ⟨z, hz, rfl⟩ := List.mem_map.1 hu
        exact hF.belongs_of_item hp ht hz
      · exact List.forall_mem_singleton.2 ht
  | leave i =>
    cases frames with
    | nil => simp [Belongs] at ht
    | cons y lower =>
      exact ⟨_, hrest.leave ht hways hp.seen hp.inOrder.1 hF
        (hF'.congr (fun _ => Iff.rfl) (by simp))⟩

theorem resumable_start (h : Heap) (resolver : Resolver) (root : GroupId) :
    Resumable h resolver root {} [.group root] where
  toPlanning := planning_start h root
  framed := ⟨h, rfl, (CarriedOut.refl h resolver).congr (by simp) (by simp), [], .task rfl .done⟩

theorem resumable_preserved
    (hresolvable : ∀ g, h.Visited root g → (h.group g).Resolvable resolver)
    (hways : h.KeepsWays resolver root) :
    Preserved h.resolutionStep (Resumable h resolver root) := by
  intro p t rest hp
  obtain ⟨F, hrun, hF, frames, hspine⟩ := hp.framed
  have hm := resolutionStep_move h p t
  obtain ⟨F', hrun', hF'⟩ := hp.toPlanning.run_move hresolvable hm hrun hF
  exact ⟨hp.toPlanning.move hm, F', hrun', hF', hspine.move hways hp.toPlanning hm hF hF'⟩

/-- **What has not been visited is still met from the root**, and so are the items that have not
been filed anew. -/
theorem Spine.visited_rest {todo : List ResolutionTask} (hspine : Spine F root p.seen frames todo)
    (hp : Planning h root p todo)
    (hF : CarriedOut h resolver (· ∈ p.seen) (.refile · ∈ p.changes) F) :
    (∀ g, h.Visited root g → g ∈ p.seen ∨ F.Visited root g) ∧
      ∀ i, h.VisitedItem root i → .refile i ∈ p.changes ∨ F.VisitedItem root i := by
  obtain ⟨hwaiting, hitems⟩ := hspine.waiting
  have hhandled : ∀ {g}, Handled h p todo (.group g) → g ∈ p.seen ∨ F.Visited root g := by
    intro g hg
    cases hg with
    | waiting hg => exact hwaiting g hg
    | visited hg => exact .inl hg
  have hitem : ∀ {g i}, g ∈ p.seen → i ∈ (h.group g).itemIds → Handled h p todo (.item i) :=
    fun hg hi => hp.closing _ hg _ (mem_resolutionTasks.2 (.inr (.inr ⟨_, hi, rfl⟩)))
  have hgroups : ∀ g, h.Visited root g → g ∈ p.seen ∨ F.Visited root g := by
    intro g hg
    induction hg with
    | refl => exact .inr .refl
    | @tail x y _ hxy ih =>
      by_cases hy : y ∈ p.seen
      · exact .inl hy
      rcases ih with hx | hx
      · -- the visit of `x` has not ended
        cases hxy with
        | above hs => exact hhandled (hp.closing x hx _ (mem_resolutionTasks.2 (.inl ⟨_, hs, rfl⟩)))
        | below hs =>
          exact hhandled (hp.closing x hx _ (mem_resolutionTasks.2 (.inr (.inl ⟨_, hs, rfl⟩))))
        | nested hxy =>
          obtain ⟨side, hi, hyi⟩ := hxy
          have hnested := Item.mem_nested.2 ⟨side, hyi⟩
          cases hitem hx hi with
          | waiting hwait =>
            obtain ⟨s, hs, his⟩ := hitems _ (.inl hwait)
            exact (hF.belongs_of_item hp his hnested).imp_right hs.tail
          | entered hall _ => exact hhandled (hall y hnested)
      · -- `y` has not been visited, so no item has lost it
        refine .inr (hx.tail ((CarriedOut.refl h resolver).leads_of hF hxy fun i _ hyi => ?_))
        by_cases hrefiled : .refile i ∈ p.changes
        · exact absurd ((hp.changed i hrefiled).2 y hyi) hy
        · rwa [hF.otherItem i hrefiled]
  refine ⟨hgroups, ?_⟩
  rintro i ⟨g, hg, hi⟩
  rcases hgroups g hg with hseen | hvisited
  · cases hitem hseen hi with
    | waiting hwait => exact .inr (hitems i (.inl hwait))
    | entered _ hrefile =>
      cases hrefile with
      | waiting hwait => exact .inr (hitems i (.inr hwait))
      | left hleft => exact .inl hleft
  · exact .inr ⟨g, hvisited, by rwa [hF.itemIds]⟩

end Frames

/-! ### Calling it again -/

theorem CarriedOut.visitedItem (hF : CarriedOut h r G I F) {i : ItemId}
    (hi : F.VisitedItem root i) : h.VisitedItem root i := by
  obtain ⟨g, hg, hi⟩ := hi
  exact ⟨g, hF.visited hg, by rwa [← hF.itemIds]⟩

/-- On a heap in which something has been changed already, resolving names changes what it meets. -/
theorem CarriedOut.resolveNames (hF : CarriedOut h r G I F)
    (hresolvable : ∀ g, h.Visited root g → (h.group g).Resolvable r) :
    ∃ F', F.resolveNames root r = { heap := F', answer := .ok () } ∧
      CarriedOut h r (fun g => G g ∨ F.Visited root g) (fun i => I i ∨ F.VisitedItem root i)
        F' := by
  obtain ⟨F', hrun, hF'⟩ := resolveNames_carriedOut (hF.resolvable hresolvable)
  exact ⟨F', hrun, hF.trans hF'⟩

/-- If all that is visited has been changed or is met again, it has all been changed in the end. -/
theorem CarriedOut.resolveNames_eq (hF : CarriedOut h r G I F)
    (hresolvable : ∀ g, h.Visited root g → (h.group g).Resolvable r)
    (hG : ∀ g, G g → h.Visited root g) (hI : ∀ i, I i → h.VisitedItem root i)
    (hgroups : ∀ g, h.Visited root g → G g ∨ F.Visited root g)
    (hitems : ∀ i, h.VisitedItem root i → I i ∨ F.VisitedItem root i) {E : Heap}
    (hE : CarriedOut h r (h.Visited root) (h.VisitedItem root) E) :
    F.resolveNames root r = { heap := E, answer := .ok () } := by
  obtain ⟨F', hrun, hF'⟩ := hF.resolveNames hresolvable
  have hsame : CarriedOut h r (h.Visited root) (h.VisitedItem root) F' :=
    hF'.congr (fun g => ⟨fun hg => hg.elim (hG g) hF.visited, hgroups g⟩)
      fun i => ⟨fun hi => hi.elim (hI i) hF.visitedItem, hitems i⟩
  rw [hrun, hsame.unique hE]

/-- **What has been resolved partly is resolved by a second call.**  The names of all groups that
are met stand for types for one resolver, and another one knows only some of them, so it may fail
anywhere.  The resolver that knows all succeeds on the heap as it was, and a second call with it
changes nothing.  It succeeds after the failure too, and then every group and every item is as the
single run leaves it, or as it was before; all are as the single run leaves them if no item of two
groups has lost a group that was being visited. -/
theorem resolveNames_again (hmore : ∀ n t, r n = .ok t → r' n = .ok t)
    (hresolvable : ∀ g, h.Visited root g → (h.group g).Resolvable r') :
    ∃ E, h.resolveNames root r' = { heap := E, answer := .ok () } ∧
      E.resolveNames root r' = { heap := E, answer := .ok () } ∧
      (∃ F, (h.resolveNames root r).heap.resolveNames root r' = { heap := F, answer := .ok () } ∧
        (∀ g, F.group g = E.group g ∨ F.group g = h.group g) ∧
          ∀ i, F.item i = E.item i ∨ F.item i = h.item i) ∧
      (h.KeepsWays r' root →
        (h.resolveNames root r).heap.resolveNames root r' = { heap := E, answer := .ok () }) := by
  obtain ⟨E, hrun, hE⟩ := resolveNames_carriedOut hresolvable
  refine ⟨E, hrun, ?_, ?_, fun hways => ?_⟩
  · exact hE.resolveNames_eq hresolvable (fun _ hg => hg) (fun _ hi => hi) (fun _ hg => .inl hg)
      (fun _ hi => .inl hi) hE
  · obtain ⟨p, todo, hp, hstopped⟩ := exists_stopped (resolving_preserved hresolvable)
      (resolving_start h r' root) hmore
    obtain ⟨S, hrunS, hS⟩ := hp.run
    obtain rfl : S = (h.resolveNames root r).heap :=
      congrArg Outcome.heap (hrunS.symm.trans hstopped)
    obtain ⟨F, hrunF, hF⟩ := hS.resolveNames hresolvable
    refine ⟨F, hrunF, fun g => ?_, fun i => ?_⟩
    · by_cases hg : g ∈ p.seen ∨ (h.resolveNames root r).heap.Visited root g
      · have hvisited : h.Visited root g := hg.elim (hp.seen g) hS.visited
        exact .inl (by rw [hF.group g hg, hE.group g hvisited])
      · exact .inr (hF.otherGroup g hg)
    · by_cases hi : .refile i ∈ p.changes ∨ (h.resolveNames root r).heap.VisitedItem root i
      · have hvisited : h.VisitedItem root i :=
          hi.elim (fun hi => (hp.changed i hi).1) hS.visitedItem
        exact .inl (by rw [hF.item i hi, hE.item i hvisited])
      · exact .inr (hF.otherItem i hi)
  · obtain ⟨p, todo, hp, hstopped⟩ := exists_stopped (resumable_preserved hresolvable hways)
      (resumable_start h r' root) hmore
    obtain ⟨S, hrunS, hS, frames, hspine⟩ := hp.framed
    obtain rfl : S = (h.resolveNames root r).heap :=
      congrArg Outcome.heap (hrunS.symm.trans hstopped)
    obtain ⟨hgroups, hitems⟩ := hspine.visited_rest hp.toPlanning hS
    exact hS.resolveNames_eq hresolvable hp.seen (fun i hi => (hp.changed i hi).1) hgroups hitems hE

/-- A team with its members, a lead by name and the staff by type, and a group for an office; the
items of the team and of the lead are left open. -/
def staffing (team lead : List (String × ItemId)) : Heap where
  groups := #[
    { name := "team", items := .ofList team },
    { name := "lead", typeName := some "Person", nestedIn := some ⟨0⟩, items := .ofList lead },
    { name := "staff", type := some (.root "Person" "Person"), nestedIn := some ⟨0⟩ },
    { name := "office", typeName := some "Office", nestedIn := some ⟨1⟩ }]
  items := #[
    { name := "members", owner := ⟨0⟩
      value := { byType := some (.ofList
        [(.name "Person", ⟨1⟩), (.type (.root "Person" "Person"), ⟨2⟩)]) } },
    { name := "office", owner := ⟨0⟩
      value := { byType := some (.ofList [(.name "Office", ⟨3⟩)]) } }]
  variants := #[.generic]

/-- A resolver for every name. -/
def everyType : Resolver := fun n => .ok (.root n n)

/-- A resolver that does not know offices. -/
def noOffices : Resolver := fun n =>
  if n = "Office" then .error ⟨"Error", "Unknown type"⟩ else everyType n

theorem everyType_of_noOffices (n : String) (t : ObjectType) (ht : noOffices n = .ok t) :
    everyType n = .ok t := by
  unfold noOffices at ht
  split at ht
  · cases ht
  · exact ht

/-- The members are filed anew, and the lead gives way to the staff, before the name of the office
is met; only the team declares items. -/
theorem resolveNames_again_staffing :
    let h := staffing [("members", ⟨0⟩), ("office", ⟨1⟩)] []
    (∀ n t, noOffices n = .ok t → everyType n = .ok t) ∧
      (∀ g, h.Visited ⟨0⟩ g → (h.group g).Resolvable everyType) ∧ h.KeepsWays everyType ⟨0⟩ ∧
      ∃ E, h.resolveNames ⟨0⟩ everyType = { heap := E, answer := .ok () } ∧
        (h.resolveNames ⟨0⟩ noOffices).heap.resolveNames ⟨0⟩ everyType =
          { heap := E, answer := .ok () } := by
  intro h
  have hresolvable : ∀ g, h.Visited ⟨0⟩ g → (h.group g).Resolvable everyType :=
    fun g _ _ n _ => ⟨_, rfl⟩
  have hteam : ∀ x i, i ∈ (h.group x).itemIds → x = ⟨0⟩ := by
    rintro ⟨n⟩ i hi
    match n with
    | 0 => rfl
    | 1 | 2 | 3 => exact absurd hi List.not_mem_nil
    | n + 4 => exact absurd hi List.not_mem_nil
  have hways : h.KeepsWays everyType ⟨0⟩ := by
    intro i x y z _ _ hx hy _ _ _
    rw [hteam x i hx, hteam y i hy]
  obtain ⟨E, hrun, -, -, hagain⟩ := resolveNames_again everyType_of_noOffices hresolvable
  exact ⟨everyType_of_noOffices, hresolvable, hways, E, hrun, hagain hways⟩

/-- Where the lead declares the members too, it is lost while it is being visited, and its office is
never met again. -/
theorem resolveNames_misses_office :
    let h := staffing [("members", ⟨0⟩)] [("members", ⟨0⟩), ("office", ⟨1⟩)]
    (∀ n t, noOffices n = .ok t → everyType n = .ok t) ∧
      (∀ g, h.Visited ⟨0⟩ g → (h.group g).Resolvable everyType) ∧
      (h.resolveNames ⟨0⟩ everyType).answer = .ok () ∧
      ((h.resolveNames ⟨0⟩ noOffices).heap.resolveNames ⟨0⟩ everyType).heap ≠
        (h.resolveNames ⟨0⟩ everyType).heap := by
  intro h
  have hresolvable : ∀ g, h.Visited ⟨0⟩ g → (h.group g).Resolvable everyType :=
    fun g _ _ n _ => ⟨_, rfl⟩
  obtain ⟨E, hrun, -⟩ := resolveNames_carriedOut hresolvable
  refine ⟨everyType_of_noOffices, hresolvable, congrArg Outcome.answer hrun, fun heq => ?_⟩
  have htypes := congrArg (fun F : Heap => (F.group ⟨3⟩).type) heq
  revert htypes
  decide

end AttributeGraph.Heap
