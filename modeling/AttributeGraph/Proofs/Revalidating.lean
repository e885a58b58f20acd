/-
Validating a second time.

A validation flags the groups where it finds no failure, and the next one passes
over what is flagged and over all that it leads to.  But a group is flagged before
its super group and its sub groups are entered, and also if the type of a group
nested in it cannot be described.  So the flags may hide what should be found a
second time, or what is only found then (`validate_again_differs`).

Where flags hide nothing the second validation answers like the first one
(`validate_again`).  The proof lets the second run go along with the first, task by
task (`Checks.retrace`).  It passes over the groups that the first run flagged in
the end, and what the first run did there is silent: it added no failure, and it
entered groups only that were flagged too (`Checks.silent`).
-/
import AttributeGraph.Proofs.Checking
import AttributeGraph.Proofs.WellFormed

namespace AttributeGraph

open ValidationState

variable {h E : Heap} {profileOf : ObjectType → Option TypeProfile} {maxDepth : Nat}
  {ts : List CheckTask} {r r₁ r₂ r' s : ValidationState} {g x : GroupId} {n : Nat}

/-! ### The flags at the end -/

/-- The flags at the end of a run, as seen from two states on the way: those set by then stay, and
no other is set of a group that was entered in between. -/
structure Lasting (E : Heap) (r r' : ValidationState) : Prop where
  flags : ∀ x, r'.heap.Flagged x → E.Flagged x
  entered : ∀ x ∈ r'.visited, x ∉ r.visited → E.Flagged x → r'.heap.Flagged x

namespace Lasting

theorem between (hlast : Lasting E r r') (h₁ : r.Extends r₁) (h₂ : r₂.Extends r') :
    Lasting E r₁ r₂ := by
  refine ⟨fun x hx => hlast.flags x (h₂.heap.flags x hx), fun x hin hnew hx => ?_⟩
  rw [← h₂.flagged_iff hin]
  exact hlast.entered x (h₂.visited hin) (fun hno => hnew (h₁.visited hno)) hx

/-- Settling a group tells nothing of the groups that its items lead to. -/
theorem items (hlast : Lasting E r (r₁.settle g n)) : Lasting E (r.enter g) r₁ := by
  refine ⟨fun x hx => hlast.flags x (flagged_settle.2 (.inl hx)), fun x hin hnew hx => ?_⟩
  obtain ⟨hne, hnew⟩ := not_or.1 fun hno => hnew (List.mem_cons.2 hno)
  have hflag := hlast.entered x (by rwa [visited_settle]) hnew hx
  exact (flagged_settle.1 hflag).resolve_right fun hno => hne hno.1

/-- A group that is flagged in the end was found clean. -/
theorem clean (hlast : Lasting E r (r₁.settle g n)) (hnew : ¬ r.Done g)
    (hext : (r.enter g).Extends r₁) (hg : E.Flagged g) : r₁.failures.length = n := by
  have hin : g ∈ (r.enter g).visited := List.mem_cons_self
  have hflag := hlast.entered g (by rw [visited_settle]; exact hext.visited hin)
    (fun hno => hnew (.inr hno)) hg
  rcases flagged_settle.1 hflag with hflag | ⟨-, hclean, -⟩
  · exact absurd (.inl ((hext.flagged_iff hin).1 hflag)) hnew
  · exact hclean

end Lasting

/-! ### Stretches without failures -/

/-- A stretch of a run that adds no failure and enters groups only that are flagged in the end. -/
structure Silent (E : Heap) (r r' : ValidationState) : Prop where
  failures : r'.failures = r.failures
  flagged : ∀ x ∈ r'.visited, x ∉ r.visited → E.Flagged x

namespace Silent

theorem refl (E : Heap) (r : ValidationState) : Silent E r r :=
  ⟨rfl, fun _ hin hnew => absurd hin hnew⟩

theorem trans (h₁ : Silent E r r₁) (h₂ : Silent E r₁ r₂) : Silent E r r₂ := by
  refine ⟨h₂.failures.trans h₁.failures, fun x hin hnew => ?_⟩
  by_cases hx : x ∈ r₁.visited
  · exact h₁.flagged x hx hnew
  · exact h₂.flagged x hin hx

theorem mono {E' : Heap} (hs : Silent E r r') (hE : ∀ x, E.Flagged x → E'.Flagged x) :
    Silent E' r r' :=
  ⟨hs.failures, fun x hin hnew => hE x (hs.flagged x hin hnew)⟩

/-- Settling a group behind its items. -/
theorem settle (hs : Silent E (r.enter g) r₁) (hg : E.Flagged g) :
    Silent E r (r₁.settle g n) := by
  refine ⟨failures_settle.trans hs.failures, fun x hin hnew => ?_⟩
  rw [visited_settle] at hin
  by_cases hx : x = g
  · rw [hx]
    exact hg
  · exact hs.flagged x hin (List.not_mem_cons_of_ne_of_not_mem hx hnew)

end Silent

/-- What lies between two states with the same failures adds none. -/
theorem failures_eq_of_between (h₁ : r.Extends r₁) (h₂ : r₁.Extends r')
    (heq : r'.failures = r.failures) : r₁.failures = r.failures ∧ r'.failures = r₁.failures := by
  have hr₁ : r₁.failures = r.failures :=
    (h₁.failures.eq_of_length_le (heq ▸ h₂.failures.length_le)).symm
  exact ⟨hr₁, heq.trans hr₁.symm⟩

theorem diagnostics_eq_nil_of_extends (hext : r.Extends r') (hr' : r'.diagnostics = []) :
    r.diagnostics = [] :=
  List.prefix_nil.1 (hr' ▸ hext.diagnostics)

theorem diagnostics_ne_nil_of_emit {d : Diagnostic} (hext : (r.emit d).Extends r') :
    r'.diagnostics ≠ [] := fun hr' =>
  List.append_ne_nil_of_right_ne_nil _ (List.cons_ne_nil _ _)
    (diagnostics_eq_nil_of_extends hext hr')

/-- A run that meets no unresolved type has met none before a group is settled, nor after its
links. -/
theorem diagnostics_eq_nil_of_settle (hlinks : (r₁.settle g n).Extends r₂)
    (hrest : r₂.Extends r') (hr' : r'.diagnostics = []) :
    r₁.diagnostics = [] ∧ r₂.diagnostics = [] := by
  have hr₂ := diagnostics_eq_nil_of_extends hrest hr'
  have hr₁ := diagnostics_eq_nil_of_extends hlinks hr₂
  exact ⟨diagnostics_settle ▸ hr₁, hr₂⟩

namespace Checks

/-- A run that adds no failure and meets no unresolved type flags every group that it enters. -/
theorem silent_of_failures_eq (hrun : Checks h profileOf maxDepth ts r r')
    (hheap : h.Flagging r.heap) (hresolved : r'.diagnostics = [])
    (hfailures : r'.failures = r.failures) : Silent r'.heap r r' := by
  induction hrun with
  | nil r => exact .refl _ r
  | skip _ _ ih => exact ih hheap hresolved hfailures
  | unresolved _ _ _ hrest =>
    exact absurd hresolved (diagnostics_ne_nil_of_emit hrest.extension)
  | @enter g implied depth rest d r r₁ r₂ r' hin hnew _ hitems hlinks hrest ihitems ihlinks
      ihrest =>
    have hext₁ := hitems.extension.settle (fun hno => hnew (.inr hno)) r.failures.length
    have hext₂ := hext₁.trans hlinks.extension
    obtain ⟨hresolved₁, hresolved₂⟩ :=
      diagnostics_eq_nil_of_settle hlinks.extension hrest.extension hresolved
    obtain ⟨hfailures₂, hfailures₃⟩ := failures_eq_of_between hext₂ hrest.extension hfailures
    obtain ⟨hfailures₁, hfailures₂⟩ := failures_eq_of_between hext₁ hlinks.extension hfailures₂
    rw [failures_settle] at hfailures₁
    have hg : (r₁.settle g r.failures.length).heap.Flagged g := by
      refine flagged_settle.2 (.inr ⟨rfl, by rw [hfailures₁], ?_⟩)
      exact ((hheap.trans hitems.extension.heap).hasGroup g).2 hin
    have hsilent₁ : Silent (r₁.settle g r.failures.length).heap r
        (r₁.settle g r.failures.length) :=
      ((ihitems hheap hresolved₁ hfailures₁).mono fun x hx => flagged_settle.2 (.inl hx)).settle hg
    have hsilent₂ := ihlinks (hheap.trans hext₁.heap) hresolved₂ hfailures₂
    have hsilent₃ := ihrest (hheap.trans hext₂.heap) hresolved hfailures₃
    exact ((hsilent₁.mono hlinks.extension.heap.flags).trans hsilent₂).mono
      hrest.extension.heap.flags |>.trans hsilent₃
  | @unknown g i d depth rest r r' _ hrest =>
    have hle := hrest.extension.failures.length_le
    rw [hfailures, ValidationState.fail, List.length_append, List.length_singleton] at hle
    omega
  | known _ hnested hrest ihnested ihrest =>
    have hext := hnested.extension
    obtain ⟨hfailures₁, hfailures₂⟩ := failures_eq_of_between hext hrest.extension hfailures
    have hresolved₁ := diagnostics_eq_nil_of_extends hrest.extension hresolved
    exact ((ihnested hheap hresolved₁ hfailures₁).mono hrest.extension.heap.flags).trans
      (ihrest (hheap.trans hext.heap) hresolved hfailures₂)

/-- **Entering groups that are flagged in the end is silent**, if the groups above and below a
flagged group are flagged as well. -/
theorem silent (hlinked : ∀ x, ¬ h.Flagged x → E.Flagged x →
      ∀ y, (h.group x).above = some y ∨ y ∈ (h.group x).subs → E.Flagged y)
    (hrun : Checks h profileOf maxDepth ts r r') (hheap : h.Flagging r.heap)
    (hlast : Lasting E r r') (hresolved : r'.diagnostics = [])
    (hts : ∀ t ∈ ts, ∃ g implied depth, t = .group g implied depth ∧ E.Flagged g) :
    Silent E r r' := by
  induction hrun with
  | nil r => exact .refl _ r
  | skip _ _ ih => exact ih hheap hlast hresolved fun t ht => hts t (List.mem_cons_of_mem _ ht)
  | unresolved _ _ _ hrest =>
    exact absurd hresolved (diagnostics_ne_nil_of_emit hrest.extension)
  | @enter g implied depth rest d r r₁ r₂ r' hin hnew _ hitems hlinks hrest _ ihlinks ihrest =>
    obtain ⟨_, _, _, heq, hg⟩ := hts _ List.mem_cons_self
    obtain ⟨rfl, -, -⟩ := CheckTask.group.inj heq
    have hext₁ := hitems.extension.settle (fun hno => hnew (.inr hno)) r.failures.length
    have hext₂ := hext₁.trans hlinks.extension
    obtain ⟨hresolved₁, hresolved₂⟩ :=
      diagnostics_eq_nil_of_settle hlinks.extension hrest.extension hresolved
    have hlast₁ := hlast.between (.refl r) (hlinks.extension.trans hrest.extension)
    -- the group was found clean, so its items added no failure
    have hfailures₁ : r₁.failures = r.failures :=
      (hitems.extension.failures.eq_of_length (hlast₁.clean hnew hitems.extension hg).symm).symm
    have hsilent₁ : Silent E r (r₁.settle g r.failures.length) :=
      ((hitems.silent_of_failures_eq hheap hresolved₁ hfailures₁).mono hlast₁.items.flags).settle hg
    have hsilent₂ := ihlinks (hheap.trans hext₁.heap)
      (hlast.between hext₁ hrest.extension) hresolved₂ fun t ht => by
        have hfresh : ¬ h.Flagged g := fun hno => hnew (.inl (hheap.flags g hno))
        rcases List.mem_append.1 ht with ht | ht
        · obtain ⟨y, hy, rfl⟩ := List.mem_map.1 ht
          exact ⟨y, _, _, rfl, hlinked g hfresh hg y (.inl (Option.mem_toList.1 hy))⟩
        · obtain ⟨y, hy, rfl⟩ := List.mem_map.1 ht
          exact ⟨y, _, _, rfl, hlinked g hfresh hg y (.inr hy)⟩
    have hsilent₃ := ihrest (hheap.trans hext₂.heap) (hlast.between hext₂ (.refl _)) hresolved
      fun t ht => hts t (List.mem_cons_of_mem _ ht)
    exact (hsilent₁.trans hsilent₂).trans hsilent₃
  | unknown | known =>
    obtain ⟨_, _, _, hno, -⟩ := hts _ List.mem_cons_self
    cases hno

end Checks

/-! ### The second run -/

/-- A state of the second run beside one of the first: the same failures so far, and the same groups
entered but for some that are flagged in the end. -/
structure Retraces (E : Heap) (r s : ValidationState) : Prop where
  heap : s.heap = E
  failures : s.failures = r.failures
  visited : s.visited ⊆ r.visited
  entered : ∀ x ∈ r.visited, x ∈ s.visited ∨ E.Flagged x

namespace Retraces

theorem enter (hre : Retraces E r s) (g : GroupId) : Retraces E (r.enter g) (s.enter g) := by
  refine ⟨hre.heap, hre.failures, List.cons_subset_cons g hre.visited, fun x hx => ?_⟩
  rcases List.mem_cons.1 hx with rfl | hx
  · exact .inl List.mem_cons_self
  · exact (hre.entered x hx).imp_left (List.mem_cons_of_mem g)

theorem fail (hre : Retraces E r s) (f : Failure) : Retraces E (r.fail f) (s.fail f) :=
  ⟨hre.heap, congrArg (· ++ [f]) hre.failures, hre.visited, hre.entered⟩

/-- The second run stays where it is during a silent stretch of the first. -/
theorem wait (hre : Retraces E r s) (hext : r.Extends r') (hsilent : Silent E r r') :
    Retraces E r' s := by
  refine ⟨hre.heap, hre.failures.trans hsilent.failures.symm,
    List.Subset.trans hre.visited hext.visited, fun x hx => ?_⟩
  by_cases hin : x ∈ r.visited
  · exact hre.entered x hin
  · exact .inr (hsilent.flagged x hx hin)

theorem done (hre : Retraces E r s) (hE : ∀ x, r.heap.Flagged x → E.Flagged x) (hg : r.Done g) :
    s.Done g := by
  rcases hg with hg | hg
  · exact .inl (hre.heap ▸ hE g hg)
  · exact (hre.entered g hg).elim .inr fun hg => .inl (hre.heap ▸ hg)

end Retraces

/-- **A second run goes along with the first one.** -/
theorem Checks.retrace (hlinked : ∀ x, ¬ h.Flagged x → E.Flagged x →
      ∀ y, (h.group x).above = some y ∨ y ∈ (h.group x).subs → E.Flagged y)
    (hrun : Checks h profileOf maxDepth ts r r') (hheap : h.Flagging r.heap)
    (hlast : Lasting E r r') (hresolved : r'.diagnostics = []) (hre : Retraces E r s) :
    ∃ s', Checks h profileOf maxDepth ts s s' ∧ Retraces E r' s' := by
  induction hrun generalizing s with
  | nil r => exact ⟨s, .nil s, hre⟩
  | skip hdone hrest ih =>
    obtain ⟨s', hs', hre'⟩ := ih hheap hlast hresolved hre
    have hE : ∀ x, _ → E.Flagged x := fun x hx => hlast.flags x (hrest.extension.heap.flags x hx)
    exact ⟨s', .skip (hre.done hE hdone) hs', hre'⟩
  | unresolved _ _ _ hrest =>
    exact absurd hresolved (diagnostics_ne_nil_of_emit hrest.extension)
  | @enter g implied depth rest d r r₁ r₂ r' hin hnew hprofile hitems hlinks hrest ihitems ihlinks
      ihrest =>
    have hext₁ := hitems.extension.settle (fun hno => hnew (.inr hno)) r.failures.length
    have hext₂ := hext₁.trans hlinks.extension
    obtain ⟨hresolved₁, hresolved₂⟩ :=
      diagnostics_eq_nil_of_settle hlinks.extension hrest.extension hresolved
    have hlast₁ := hlast.between (.refl r) (hlinks.extension.trans hrest.extension)
    have hlast₂ := hlast.between hext₁ hrest.extension
    have hlast₃ := hlast.between hext₂ (.refl _)
    by_cases hg : E.Flagged g
    · -- the second run passes over the group
      have hsilent : Silent E r r₂ :=
        Checks.silent hlinked (.enter hin hnew hprofile hitems hlinks (.nil r₂)) hheap
          (hlast.between (.refl r) hrest.extension) hresolved₂ fun t ht => by
            rw [List.mem_singleton.1 ht]
            exact ⟨g, implied, depth, rfl, hg⟩
      obtain ⟨s', hs', hre'⟩ := ihrest (hheap.trans hext₂.heap) hlast₃ hresolved
        (hre.wait hext₂ hsilent)
      exact ⟨s', .skip (.inl (hre.heap ▸ hg)) hs', hre'⟩
    · have hnew' : ¬ s.Done g := by
        rintro (hno | hno)
        · exact hg (hre.heap ▸ hno)
        · exact hnew (.inr (hre.visited hno))
      obtain ⟨s₁, hs₁, hre₁⟩ := ihitems hheap hlast₁.items hresolved₁ (hre.enter g)
      -- both runs find the group at fault and leave its flag alone
      have hfault : r₁.failures.length ≠ r.failures.length := fun hclean => by
        refine hg (hlast₁.flags g (flagged_settle.2 (.inr ⟨rfl, hclean, ?_⟩)))
        exact ((hheap.trans hitems.extension.heap).hasGroup g).2 hin
      have hfault' : s₁.failures.length ≠ s.failures.length := by
        rwa [hre₁.failures, hre.failures]
      obtain ⟨s₂, hs₂, hre₂⟩ := ihlinks (hheap.trans hext₁.heap) hlast₂ hresolved₂
        (by rwa [settle_of_ne hfault])
      obtain ⟨s', hs', hre'⟩ := ihrest (hheap.trans hext₂.heap) hlast₃ hresolved hre₂
      refine ⟨s', .enter hin hnew' hprofile hs₁ ?_ hs', hre'⟩
      rwa [settle_of_ne hfault']
  | unknown hnone hrest ih =>
    obtain ⟨s', hs', hre'⟩ := ih hheap (hlast.between (.fail _ _) (.refl _)) hresolved
      (hre.fail _)
    exact ⟨s', .unknown hnone hs', hre'⟩
  | known hsome hnested hrest ihnested ihrest =>
    have hext := hnested.extension
    have hresolved₁ := diagnostics_eq_nil_of_extends hrest.extension hresolved
    have hlast₁ := hlast.between (.refl _) hrest.extension
    have hlast₂ := hlast.between hext (.refl _)
    obtain ⟨s₁, hs₁, hre₁⟩ := ihnested hheap hlast₁ hresolved₁ hre
    obtain ⟨s', hs', hre'⟩ := ihrest (hheap.trans hext.heap) hlast₂ hresolved hre₁
    exact ⟨s', .known hsome hs₁ hs', hre'⟩

/-! ### Validating twice -/

/-- A run emits diagnostics of unresolved types only. -/
theorem Checks.code_of_mem_diagnostics (hrun : Checks h profileOf maxDepth ts r r')
    (hr : ∀ d ∈ r.diagnostics, d.code = .typeUnresolved) :
    ∀ d ∈ r'.diagnostics, d.code = .typeUnresolved := by
  induction hrun with
  | nil r => exact hr
  | skip _ _ ih => exact ih hr
  | unresolved _ _ _ _ ih =>
    refine ih fun d hd => ?_
    rcases List.mem_append.1 hd with hd | hd
    · exact hr d hd
    · rw [List.mem_singleton.1 hd]
      rfl
  | enter _ _ _ _ _ _ ihitems ihlinks ihrest =>
    exact ihrest (ihlinks (by rw [diagnostics_settle]; exact ihitems hr))
  | unknown _ _ ih => exact ih hr
  | known _ _ _ ihnested ihrest => exact ihrest (ihnested hr)

namespace Heap

theorem heap_validate (h : Heap) (g : GroupId) (profileOf : ObjectType → Option TypeProfile)
    (policy : ValidationPolicy) :
    (h.validate g profileOf policy).heap = (h.validationEnd g profileOf policy.maxDepth).heap := by
  unfold validate
  dsimp only
  split <;> rfl

theorem mem_diagnostics_validate {policy : ValidationPolicy} {d : Diagnostic}
    (hd : d ∈ (h.validationEnd g profileOf policy.maxDepth).diagnostics) :
    d ∈ (h.validate g profileOf policy).diagnostics := by
  unfold validate
  dsimp only
  split
  · exact hd
  · exact List.mem_append_left _ hd
  · exact hd

/-- The answer tells the failures of the run. -/
theorem answer_validate_congr {h' : Heap} {policy : ValidationPolicy}
    (heq : (h'.validationEnd g profileOf policy.maxDepth).failures =
      (h.validationEnd g profileOf policy.maxDepth).failures) :
    (h'.validate g profileOf policy).answer = (h.validate g profileOf policy).answer := by
  unfold validate
  dsimp only
  rw [heq]
  split <;> rfl

/-- **A second validation answers like the first**, if the first one met no type that could not be
described, and if every group that it flagged has only flagged groups above and below it. -/
theorem validate_again (hclosed : h.Closed) (hin : h.HasGroup g)
    (profileOf : ObjectType → Option TypeProfile) (policy : ValidationPolicy)
    (hresolved : ∀ d ∈ (h.validate g profileOf policy).diagnostics, d.code ≠ .typeUnresolved)
    (hlinked : ∀ x, ¬ h.Flagged x → (h.validate g profileOf policy).heap.Flagged x →
      ∀ y, (h.group x).above = some y ∨ y ∈ (h.group x).subs →
        (h.validate g profileOf policy).heap.Flagged y) :
    ((h.validate g profileOf policy).heap.validate g profileOf policy).answer =
      (h.validate g profileOf policy).answer := by
  have hfirst := checks_validationEnd hclosed hin (.refl h) profileOf policy.maxDepth
  have hsecond := checks_validationEnd hclosed hin hfirst.extension.heap profileOf policy.maxDepth
  have hnone : (h.validationEnd g profileOf policy.maxDepth).diagnostics = [] := by
    refine List.eq_nil_iff_forall_not_mem.2 fun d hd => hresolved d (mem_diagnostics_validate hd) ?_
    exact hfirst.code_of_mem_diagnostics (fun d hd => absurd hd List.not_mem_nil) d hd
  rw [heap_validate] at hlinked ⊢
  obtain ⟨s, hs, hre⟩ := hfirst.retrace hlinked (.refl h) ⟨fun _ hx => hx, fun _ _ _ hx => hx⟩ hnone
    (s := { heap := (h.validationEnd g profileOf policy.maxDepth).heap })
    ⟨rfl, rfl, List.Subset.refl _, fun _ hx => absurd hx List.not_mem_nil⟩
  refine answer_validate_congr ?_
  rw [hsecond.unique hs, hre.failures]

/-- Persons, who may be employees or lead a team, and their rooms.  Nothing is said of the type of a
person's room. -/
def staffTypes : Registry :=
  let person := .root "Person" "Person"
  let room := .root "Room" "Room"
  ((((default : Registry).register
    person none [⟨"name", none, none⟩, ⟨"room", none, none⟩]).register
    (.sub "Employee" "Employee" person) none [⟨"salary", none, none⟩]).register
    room none [⟨"number", none, none⟩]).register
    (.root "Team" "Team") none [⟨"lead", some person, none⟩, ⟨"room", some room, none⟩]

/-- A team without a budget, whose lead may be an employee. -/
def team : Heap where
  groups := #[
    { name := "team", type := some (.root "Team" "Team")
      items := .ofList [("budget", ⟨0⟩), ("lead", ⟨1⟩)] },
    { name := "lead", nestedIn := some ⟨1⟩, below := some (.ofList [⟨2⟩])
      items := .ofList [("name", ⟨2⟩)] },
    { name := "employee", type := some (.sub "Employee" "Employee" (.root "Person" "Person"))
      above := some ⟨1⟩, items := .ofList [("salary", ⟨3⟩)] }]
  items := #[
    { name := "budget", owner := ⟨0⟩ },
    { name := "lead", owner := ⟨0⟩, value := { primary := some ⟨1⟩ } },
    { name := "name", owner := ⟨1⟩ },
    { name := "salary", owner := ⟨2⟩ }]
  variants := #[.generic]

/-- The lead and the employee are flagged, and linked to one another. -/
theorem team_linked :
    let first := team.validate ⟨0⟩ staffTypes.profile? { reaction := .warn }
    ∀ x, ¬ team.Flagged x → first.heap.Flagged x → ∀ y,
      (team.group x).above = some y ∨ y ∈ (team.group x).subs → first.heap.Flagged y := by
  rintro first ⟨n⟩ - hx y hy
  match n with
  | 0 => exact absurd hx (by decide)
  | 1 =>
    rcases hy with hy | hy
    · cases hy
    · obtain rfl : y = ⟨2⟩ := by simpa using (show y ∈ [(⟨2⟩ : GroupId)] from hy)
      decide
  | 2 =>
    rcases hy with hy | hy
    · obtain rfl := Option.some.inj hy
      decide
    · exact absurd hy List.not_mem_nil
  | n + 3 => exact absurd hy (by rintro (hno | hno) <;> cases hno)

theorem validate_again_team :
    let first := team.validate ⟨0⟩ staffTypes.profile? { reaction := .warn }
    first.answer = .ok [{
        path := "budget"
        message := "Attribute 'budget' is not defined on Team"
        typeName := some "Team" }] ∧
      (first.heap.validate ⟨0⟩ staffTypes.profile? { reaction := .warn }).answer = first.answer :=
  ⟨rfl, validate_again (by decide) (by decide) _ _ (by decide) team_linked⟩

/-- A person with a subclass group that has an unknown attribute. -/
def staff : Heap where
  groups := #[
    { name := "person", type := some (.root "Person" "Person"), below := some (.ofList [⟨1⟩])
      items := .ofList [("name", ⟨0⟩)] },
    { name := "employee", type := some (.sub "Employee" "Employee" (.root "Person" "Person"))
      above := some ⟨0⟩, items := .ofList [("reports", ⟨1⟩)] }]
  items := #[{ name := "name", owner := ⟨0⟩ }, { name := "reports", owner := ⟨1⟩ }]
  variants := #[.generic]

/-- A team without a budget, which shares a room with its lead. -/
def flat : Heap where
  groups := #[
    { name := "team", type := some (.root "Team" "Team")
      items := .ofList [("budget", ⟨0⟩), ("lead", ⟨1⟩), ("room", ⟨2⟩)] },
    { name := "lead", nestedIn := some ⟨1⟩, items := .ofList [("room", ⟨3⟩)] },
    { name := "room", nestedIn := some ⟨2⟩, items := .ofList [("window", ⟨4⟩)] }]
  items := #[
    { name := "budget", owner := ⟨0⟩ },
    { name := "lead", owner := ⟨0⟩, value := { primary := some ⟨1⟩ } },
    { name := "room", owner := ⟨0⟩, value := { primary := some ⟨2⟩ } },
    { name := "room", owner := ⟨1⟩, value := { primary := some ⟨2⟩ } },
    { name := "window", owner := ⟨2⟩ }]
  variants := #[.generic]

/-- **A second validation may answer otherwise.**  The person is flagged before the employee is
entered, so the failure there is forgotten.  The lead is flagged although the type of the room is
not known there, so the second validation meets the room in the team only, where it is. -/
theorem validate_again_differs :
    let unknown (path name typeName : String) : Failure :=
      ⟨path, s!"Attribute '{name}' is not defined on {typeName}", some typeName⟩
    let first (h : Heap) := h.validate ⟨0⟩ staffTypes.profile? { reaction := .warn }
    let second (h : Heap) := (first h).heap.validate ⟨0⟩ staffTypes.profile? { reaction := .warn }
    (staff.Closed ∧ (first staff).answer = .ok [unknown "reports" "reports" "Employee"] ∧
      (second staff).answer = .ok []) ∧
    flat.Closed ∧ (first flat).answer = .ok [unknown "budget" "budget" "Team"] ∧
      (second flat).answer =
        .ok [unknown "budget" "budget" "Team", unknown "room.window" "window" "Room"] :=
  ⟨⟨by decide, rfl, rfl⟩, by decide, rfl, rfl⟩

end Heap

end AttributeGraph
