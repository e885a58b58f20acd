/-
Coverage is the largest relation that its own rules allow.

The comparison marks a pair only while it is being compared, and forgets it
afterwards: the same pair is judged anew elsewhere, under other marks.  So its
answers are first described relative to the marks.  `CoversUnder M` is the
largest relation in which every pair is assumed, being in `M`, or passes the scan
of its items with all pairs that the scan compares in the relation.  What makes
the marks disappear again is `coversUnder_step`: a pair passes its scan relative
to the marks and itself exactly if it is in the relation relative to the marks
alone.

The depth of the comparison is bounded by the number of pairs of groups, since no
pair is marked twice.
-/
import AttributeGraph.Heap.Coverage
import AttributeGraph.Proofs.Links
import Mathlib.Data.List.Nodup
import Mathlib.Data.List.ProdSigma
import Mathlib.Order.Bounds.Defs

namespace AttributeGraph

/-! ### Scanning -/

/-- How a scan passes a slot of the value or of the key: the groups of both sides are related, or
both are missing, or only this side's is missing and the scan stops. -/
inductive PrimaryScan (R : GroupId → GroupId → Prop) :
    Option GroupId → Option GroupId → SlotVerdict → Prop
  | compared {a b : GroupId} (hab : R a b) : PrimaryScan R (some a) (some b) .proceed
  | neither : PrimaryScan R none none .proceed
  | missing (b : GroupId) : PrimaryScan R none (some b) .shortCircuit

/-- How a scan passes typed groups: this side has none at all; or only the other side has none and
the scan stops; or the groups under each key of this side are related. -/
inductive TypedScan (R : GroupId → GroupId → Prop) :
    Option (OrderedMap TypeTag GroupId) → Option (OrderedMap TypeTag GroupId) → SlotVerdict → Prop
  | untyped (theirs : Option (OrderedMap TypeTag GroupId)) : TypedScan R none theirs .proceed
  | missing (mine : OrderedMap TypeTag GroupId) : TypedScan R (some mine) none .shortCircuit
  | compared {mine theirs : OrderedMap TypeTag GroupId}
      (hkeys : ∀ k a, mine.find? k = some a → ∃ b, theirs.find? k = some b ∧ R a b) :
      TypedScan R (some mine) (some theirs) .proceed

/-- How a scan passes slots in order: the first that stops it ends the scan. -/
inductive SlotsScan : List (SlotVerdict → Prop) → SlotVerdict → Prop
  | done : SlotsScan [] .proceed
  | next {slot : SlotVerdict → Prop} {rest : List (SlotVerdict → Prop)} {v : SlotVerdict}
      (hslot : slot .proceed) (hrest : SlotsScan rest v) : SlotsScan (slot :: rest) v
  | stop {slot : SlotVerdict → Prop} (rest : List (SlotVerdict → Prop))
      (hslot : slot .shortCircuit) : SlotsScan (slot :: rest) .shortCircuit

/-- How a scan passes an item: value, key, typed values, typed keys. -/
def ItemScan (R : GroupId → GroupId → Prop) (mine theirs : Item) : SlotVerdict → Prop :=
  SlotsScan [PrimaryScan R mine.value.primary theirs.value.primary,
    PrimaryScan R mine.key.primary theirs.key.primary,
    TypedScan R mine.value.byType theirs.value.byType,
    TypedScan R mine.key.byType theirs.key.byType]

namespace Heap

variable {h : Heap} {R S : GroupId → GroupId → Prop} {a b : GroupId}

/-- How a scan passes the items of another group, up to the first one that stops it. -/
inductive ItemsScan (h : Heap) (R : GroupId → GroupId → Prop) (a : GroupId) :
    List (String × ItemId) → Prop
  | done : ItemsScan h R a []
  | next {n : String} {i j : ItemId} {rest : List (String × ItemId)}
      (hn : (h.group a).items.find? n = some i)
      (hitem : ItemScan R (h.item i) (h.item j) .proceed) (hrest : ItemsScan h R a rest) :
      ItemsScan h R a ((n, j) :: rest)
  | stop {n : String} {i j : ItemId} (rest : List (String × ItemId))
      (hn : (h.group a).items.find? n = some i)
      (hitem : ItemScan R (h.item i) (h.item j) .shortCircuit) : ItemsScan h R a ((n, j) :: rest)

/-- What covering asks of two groups: they are the same, or the other one has no items, or both
have some and the scan passes them. -/
def Passes (h : Heap) (R : GroupId → GroupId → Prop) (a b : GroupId) : Prop :=
  a = b ∨ (h.group b).hasAttributes = false ∨
    ((h.group a).hasAttributes = true ∧ (h.group b).hasAttributes = true ∧
      h.ItemsScan R a (h.group b).items.entries)

/-- A relation every pair of which passes through the relation itself. -/
def IsCoverage (h : Heap) (R : GroupId → GroupId → Prop) : Prop := ∀ a b, R a b → h.Passes R a b

/-! ### A larger relation passes more -/

theorem SlotsScan.mono {slots slots' : List (SlotVerdict → Prop)} {v : SlotVerdict}
    (hslots : List.Forall₂ (fun s s' => ∀ v, s v → s' v) slots slots')
    (hscan : SlotsScan slots v) : SlotsScan slots' v := by
  induction hscan generalizing slots' with
  | done =>
    cases hslots
    exact .done
  | next hslot _ ih =>
    cases hslots with
    | cons hhead htail => exact .next (hhead _ hslot) (ih htail)
  | stop rest hslot =>
    cases hslots with
    | cons hhead htail => exact .stop _ (hhead _ hslot)

theorem PrimaryScan.mono (hRS : ∀ a b, R a b → S a b) {x y : Option GroupId} (v : SlotVerdict)
    (hscan : PrimaryScan R x y v) : PrimaryScan S x y v := by
  cases hscan with
  | compared hab => exact .compared (hRS _ _ hab)
  | neither => exact .neither
  | missing b => exact .missing b

theorem TypedScan.mono (hRS : ∀ a b, R a b → S a b)
    {x y : Option (OrderedMap TypeTag GroupId)} (v : SlotVerdict)
    (hscan : TypedScan R x y v) : TypedScan S x y v := by
  cases hscan with
  | untyped => exact .untyped _
  | missing mine => exact .missing mine
  | compared hkeys =>
    refine .compared fun k a hk => ?_
    obtain ⟨b, hb, hab⟩ := hkeys k a hk
    exact ⟨b, hb, hRS a b hab⟩

theorem ItemScan.mono (hRS : ∀ a b, R a b → S a b) {mine theirs : Item} {v : SlotVerdict}
    (hscan : ItemScan R mine theirs v) : ItemScan S mine theirs v :=
  SlotsScan.mono (.cons (PrimaryScan.mono hRS) (.cons (PrimaryScan.mono hRS)
    (.cons (TypedScan.mono hRS) (.cons (TypedScan.mono hRS) .nil)))) hscan

theorem ItemsScan.mono (hRS : ∀ a b, R a b → S a b) {items : List (String × ItemId)}
    (hscan : h.ItemsScan R a items) : h.ItemsScan S a items := by
  induction hscan with
  | done => exact .done
  | next hn hitem _ ih => exact .next hn (ItemScan.mono hRS hitem) ih
  | stop rest hn hitem => exact .stop rest hn (ItemScan.mono hRS hitem)

theorem Passes.mono (hRS : ∀ a b, R a b → S a b) (hpass : h.Passes R a b) : h.Passes S a b :=
  hpass.imp_right (Or.imp_right fun ⟨ha, hb, hscan⟩ => ⟨ha, hb, hscan.mono hRS⟩)

/-! ### Coverage relative to marks -/

/-- The largest relation whose pairs are marked or pass through the relation. -/
def CoversUnder (h : Heap) (marks : List (GroupId × GroupId)) (a b : GroupId) : Prop :=
  ∃ R : GroupId → GroupId → Prop, R a b ∧ ∀ x y, R x y → (x, y) ∈ marks ∨ h.Passes R x y

variable {marks : List (GroupId × GroupId)}

theorem coversUnder_of_mem (hab : (a, b) ∈ marks) : h.CoversUnder marks a b :=
  ⟨fun x y => (x, y) ∈ marks, hab, fun _ _ => .inl⟩

theorem CoversUnder.passes (hab : h.CoversUnder marks a b) :
    (a, b) ∈ marks ∨ h.Passes (h.CoversUnder marks) a b := by
  obtain ⟨R, hR, hall⟩ := hab
  exact (hall a b hR).imp_right (Passes.mono fun x y hxy => ⟨R, hxy, hall⟩)

theorem coversUnder_nil_iff : h.CoversUnder [] a b ↔ ∃ R, h.IsCoverage R ∧ R a b := by
  simp only [CoversUnder, IsCoverage, List.not_mem_nil, false_or, and_comm]

/-- What passes through the relation relative to the marks and itself is in the relation relative
to the marks alone. -/
theorem coversUnder_of_passes (hpass : h.Passes (h.CoversUnder ((a, b) :: marks)) a b) :
    h.CoversUnder marks a b := by
  refine ⟨h.CoversUnder ((a, b) :: marks), coversUnder_of_mem List.mem_cons_self, ?_⟩
  intro x y hxy
  rcases hxy.passes with hmem | hpass'
  · rcases List.mem_cons.1 hmem with heq | hmem
    · obtain ⟨rfl, rfl⟩ := Prod.mk.inj heq
      exact .inr hpass
    · exact .inl hmem
  · exact .inr hpass'

/-- A further mark only adds to the relation. -/
theorem CoversUnder.cons (p : GroupId × GroupId) (hab : h.CoversUnder marks a b) :
    h.CoversUnder (p :: marks) a b := by
  obtain ⟨R, hR, hall⟩ := hab
  exact ⟨R, hR, fun x y hxy => (hall x y hxy).imp_left (List.mem_cons_of_mem p)⟩

/-- **A mark can be dropped once the pair has passed.** -/
theorem coversUnder_step (hne : a ≠ b) (ha : (h.group a).hasAttributes = true)
    (hb : (h.group b).hasAttributes = true) (hmark : (a, b) ∉ marks) :
    h.CoversUnder marks a b ↔
      h.ItemsScan (h.CoversUnder ((a, b) :: marks)) a (h.group b).items.entries := by
  constructor
  · intro hab
    rcases hab.passes with hmem | heq | hempty | ⟨-, -, hscan⟩
    · exact absurd hmem hmark
    · exact absurd heq hne
    · rw [hb] at hempty
      cases hempty
    · exact hscan.mono fun x y hxy => hxy.cons (a, b)
  · intro hscan
    exact coversUnder_of_passes (.inr (.inr ⟨ha, hb, hscan⟩))

/-- A group without items covers no other group that has some. -/
theorem not_coversUnder (hne : a ≠ b) (ha : (h.group a).hasAttributes = false)
    (hb : (h.group b).hasAttributes = true) (hmark : (a, b) ∉ marks) :
    ¬ h.CoversUnder marks a b := by
  intro hab
  rcases hab.passes with hmem | heq | hempty | ⟨ha', -, -⟩
  · exact hmark hmem
  · exact hne heq
  · rw [hb] at hempty
    cases hempty
  · rw [ha] at ha'
    cases ha'

theorem coversUnder_of_trivial (hpass : a = b ∨ (h.group b).hasAttributes = false) :
    h.CoversUnder marks a b :=
  ⟨fun x y => x = y ∨ (h.group y).hasAttributes = false, hpass,
    fun _ _ hxy => .inr (hxy.imp_right .inl)⟩

end Heap

/-! ### Comparisons that leave the marks as they are -/

namespace Covering

variable {α β : Type} {marks : List (GroupId × GroupId)}

/-- Under the given marks a comparison ends, with an outcome of a kind and the same marks. -/
def Yields (marks : List (GroupId × GroupId)) (x : Covering α) (Q : α → Prop) : Prop :=
  ∀ s, s.marks = marks → ∃ r s', x.run s = some (r, s') ∧ s'.marks = marks ∧ Q r

/-- The comparison decides a proposition. -/
def Decides (marks : List (GroupId × GroupId)) (x : Covering Bool) (P : Prop) : Prop :=
  Yields marks x fun r => r = true ↔ P

/-- The comparison finds how a scan passes, and fails if it does not pass. -/
def Judges (marks : List (GroupId × GroupId)) (x : Covering SlotVerdict)
    (scan : SlotVerdict → Prop) : Prop :=
  Yields marks x fun r => ∀ v, scan v ↔ r = v ∧ v ≠ .fail

theorem Yields.pure {Q : α → Prop} {r : α} (hr : Q r) : Yields marks (pure r) Q :=
  fun s hs => ⟨r, s, rfl, hs, hr⟩

theorem Yields.bind {x : Covering α} {f : α → Covering β} {P : α → Prop} {Q : β → Prop}
    (hx : Yields marks x P) (hf : ∀ r, P r → Yields marks (f r) Q) : Yields marks (x >>= f) Q := by
  intro s hs
  obtain ⟨r, s', hrun, hs', hr⟩ := hx s hs
  obtain ⟨r', s'', hrun', hs'', hr'⟩ := hf r hr s' hs'
  exact ⟨r', s'', by simp [StateT.run_bind, hrun, hrun'], hs'', hr'⟩

theorem Yields.mono {x : Covering α} {P Q : α → Prop} (hx : Yields marks x P)
    (hPQ : ∀ r, P r → Q r) : Yields marks x Q := by
  intro s hs
  obtain ⟨r, s', hrun, hs', hr⟩ := hx s hs
  exact ⟨r, s', hrun, hs', hPQ r hr⟩

theorem yields_report (d : Diagnostic) : Yields marks (report d) fun _ => True :=
  fun s hs => ⟨(), { s with diagnostics := s.diagnostics ++ [d] }, rfl, hs, trivial⟩

theorem yields_get : Yields marks get fun s => s.marks = marks :=
  fun s hs => ⟨s, s, rfl, hs, hs⟩

/-- A mark that is made for a comparison is taken back after it. -/
theorem Yields.within {pair : GroupId × GroupId} {body : Covering Bool} {Q : Bool → Prop}
    (hbody : Yields (pair :: marks) body Q) : Yields marks (within pair body) Q := by
  intro s hs
  obtain ⟨r, s', hrun, hs', hr⟩ := hbody { s with marks := pair :: s.marks } (by simp [hs])
  refine ⟨r, { s' with marks := s'.marks.erase pair }, ?_, by simp [hs'], hr⟩
  simp [Covering.within, StateT.run_bind, hrun]

/-- A verdict is judged right if it is the only one that the scan allows. -/
theorem judges_pure {scan : SlotVerdict → Prop} {w : SlotVerdict} (hw : scan w) (hne : w ≠ .fail)
    (honly : ∀ v, scan v → v = w) : Judges marks (pure w) scan := by
  refine Yields.pure fun v => ⟨fun hv => ?_, fun hv => ?_⟩
  · rw [honly v hv]
    exact ⟨rfl, hne⟩
  · rw [← hv.1]
    exact hw

/-- A failure is judged right if the scan does not pass. -/
theorem judges_fail {scan : SlotVerdict → Prop} (hnone : ∀ v, ¬ scan v) :
    Judges marks (pure .fail) scan :=
  Yields.pure fun v => ⟨fun hv => absurd hv (hnone v), fun hv => absurd hv.1.symm hv.2⟩

/-- The first slot that stops the scan ends it. -/
theorem firstOf_judges {slots : List (Covering SlotVerdict)} {scans : List (SlotVerdict → Prop)}
    (hslots : List.Forall₂ (Judges marks) slots scans) :
    Judges marks (firstOf slots) (SlotsScan scans) := by
  induction hslots with
  | nil =>
    refine judges_pure .done (by simp) fun v hscan => ?_
    cases hscan
    rfl
  | @cons slot scan slots scans hslot _ ih =>
    refine Yields.bind hslot fun r hr => ?_
    have hverdict : ∀ {v}, scan v → r = v := fun hv => ((hr _).1 hv).1
    cases r with
    | proceed =>
      have hproceed : scan .proceed := (hr _).2 ⟨rfl, by simp⟩
      refine Yields.mono ih fun r' hr' v => ?_
      rw [← hr' v]
      refine ⟨fun hscan => ?_, .next hproceed⟩
      cases hscan with
      | next _ hrest => exact hrest
      | stop _ hstop => cases hverdict hstop
    | fail =>
      refine judges_fail fun v hscan => ?_
      cases hscan with
      | next hnext _ => cases hverdict hnext
      | stop _ hstop => cases hverdict hstop
    | shortCircuit =>
      refine judges_pure (.stop _ ((hr _).2 ⟨rfl, by simp⟩)) (by simp) fun v hscan => ?_
      cases hscan with
      | next hnext _ => cases hverdict hnext
      | stop _ _ => rfl

end Covering

namespace Heap

open Covering

variable {h : Heap} {P : GroupId → GroupId → Prop} {compare : Compare}
  {marks : List (GroupId × GroupId)}

/-- A comparison of groups decides a relation; without a second group it answers no. -/
def DecidesPairs (marks : List (GroupId × GroupId)) (compare : Compare)
    (P : GroupId → GroupId → Prop) : Prop :=
  ∀ a o, Decides marks (compare a o) (∃ b, o = some b ∧ P a b)

theorem coverPrimary_judges (hcompare : DecidesPairs marks compare P)
    (mine theirs : Option GroupId) :
    Judges marks (coverPrimary compare mine theirs) (PrimaryScan P mine theirs) := by
  match mine, theirs with
  | some a, theirs =>
    refine Yields.bind (hcompare a theirs) fun r hr => ?_
    cases r with
    | true =>
      obtain ⟨b, rfl, hab⟩ := hr.1 rfl
      refine judges_pure (.compared hab) (by simp) fun v hscan => ?_
      cases hscan
      rfl
    | false =>
      refine judges_fail fun v hscan => ?_
      cases hscan with
      | compared hab => cases hr.2 ⟨_, rfl, hab⟩
  | none, some b =>
    refine judges_pure (.missing b) (by simp) fun v hscan => ?_
    cases hscan
    rfl
  | none, none =>
    refine judges_pure .neither (by simp) fun v hscan => ?_
    cases hscan
    rfl

/-- Typed groups are compared in order, and the outcome does not depend on it. -/
theorem coverEntries_yields (hcompare : DecidesPairs marks compare P)
    (theirs : OrderedMap TypeTag GroupId) : ∀ l : List (TypeTag × GroupId),
    Yields marks (coverEntries compare theirs l) fun r =>
      (r = .proceed ∨ r = .fail) ∧
        (r = .proceed ↔ ∀ e ∈ l, ∃ b, theirs.find? e.1 = some b ∧ P e.2 b) := by
  intro l
  induction l with
  | nil => exact Yields.pure (by simp)
  | cons e l ih =>
    refine Yields.bind (hcompare e.2 (theirs.find? e.1)) fun r hr => ?_
    cases r with
    | true =>
      refine Yields.mono ih fun r' hr' => ⟨hr'.1, ?_⟩
      rw [hr'.2, List.forall_mem_cons]
      exact ⟨fun hl => ⟨hr.1 rfl, hl⟩, And.right⟩
    | false =>
      refine Yields.pure ⟨.inr rfl, ?_⟩
      rw [List.forall_mem_cons]
      refine ⟨fun hfail => ?_, fun hl => absurd (hr.2 hl.1) (by simp)⟩
      cases hfail

theorem coverTyped_judges (hcompare : DecidesPairs marks compare P)
    (mine theirs : Option (OrderedMap TypeTag GroupId)) :
    Judges marks (coverTyped compare mine theirs) (TypedScan P mine theirs) := by
  match mine, theirs with
  | none, theirs =>
    refine judges_pure (.untyped theirs) (by simp) fun v hscan => ?_
    cases hscan
    rfl
  | some mine, none =>
    refine judges_pure (.missing mine) (by simp) fun v hscan => ?_
    cases hscan
    rfl
  | some mine, some theirs =>
    refine Yields.mono (coverEntries_yields hcompare theirs mine.entries) fun r hr v => ?_
    have hkeys : r = .proceed ↔
        ∀ k a, mine.find? k = some a → ∃ b, theirs.find? k = some b ∧ P a b := by
      rw [hr.2]
      simp only [OrderedMap.find?_eq_some_iff (m := mine), Prod.forall]
    constructor
    · intro hscan
      cases hscan with
      | compared hall => exact ⟨hkeys.2 hall, by simp⟩
    · intro hv
      obtain ⟨rfl, hne⟩ := hv
      obtain rfl := hr.1.resolve_right hne
      exact .compared (hkeys.1 rfl)

theorem coverItem_judges (hcompare : DecidesPairs marks compare P) (mine theirs : Item) :
    Judges marks (coverItem compare mine theirs) (ItemScan P mine theirs) :=
  firstOf_judges (.cons (coverPrimary_judges hcompare _ _)
    (.cons (coverPrimary_judges hcompare _ _) (.cons (coverTyped_judges hcompare _ _)
      (.cons (coverTyped_judges hcompare _ _) .nil))))

theorem coverItems_decides (hcompare : DecidesPairs marks compare P) (a : GroupId) :
    ∀ l : List (String × ItemId),
      Decides marks (h.coverItems compare a l) (h.ItemsScan P a l) := by
  intro l
  induction l with
  | nil => exact Yields.pure (by simp [ItemsScan.done])
  | cons e l ih =>
    obtain ⟨n, j⟩ := e
    cases hn : (h.group a).items.find? n with
    | none =>
      simp only [coverItems, hn]
      refine Yields.pure ⟨fun hr => absurd hr Bool.false_ne_true, fun hscan => ?_⟩
      cases hscan with
      | next hn' _ _ =>
        rw [hn] at hn'
        cases hn'
      | stop _ hn' _ =>
        rw [hn] at hn'
        cases hn'
    | some i =>
      simp only [coverItems, hn]
      have hsame : ∀ {i'}, (h.group a).items.find? n = some i' → i' = i :=
        fun hi' => Option.some.inj (hi'.symm.trans hn)
      refine Yields.bind (coverItem_judges hcompare (h.item i) (h.item j)) fun r hr => ?_
      have hverdict : ∀ {i' v}, (h.group a).items.find? n = some i' →
          ItemScan P (h.item i') (h.item j) v → r = v := by
        intro i' v hi' hscan
        rw [hsame hi'] at hscan
        exact ((hr v).1 hscan).1
      cases r with
      | proceed =>
        refine Yields.mono ih fun r' hr' => hr'.trans ⟨?_, fun hscan => ?_⟩
        · exact .next hn ((hr _).2 ⟨rfl, by simp⟩)
        · cases hscan with
          | next _ _ hrest => exact hrest
          | stop _ hn' hstop => cases hverdict hn' hstop
      | fail =>
        refine Yields.pure ⟨fun hr => absurd hr Bool.false_ne_true, fun hscan => ?_⟩
        cases hscan with
        | next hn' hnext _ => cases hverdict hn' hnext
        | stop _ hn' hstop => cases hverdict hn' hstop
      | shortCircuit =>
        refine Yields.bind (yields_report _) fun _ _ => Yields.pure ⟨fun _ => ?_, fun _ => rfl⟩
        exact .stop _ hn ((hr _).2 ⟨rfl, by simp⟩)

/-! ### The depth of a comparison -/

/-- Marked pairs are distinct pairs of groups with items. -/
structure MarksSound (h : Heap) (marks : List (GroupId × GroupId)) : Prop where
  nodup : marks.Nodup
  items : ∀ p ∈ marks, (h.group p.1).hasAttributes = true ∧ (h.group p.2).hasAttributes = true

theorem hasGroup_of_hasAttributes {g : GroupId} (hg : (h.group g).hasAttributes = true) :
    h.HasGroup g := by
  by_contra hout
  rw [group_of_not_hasGroup hout] at hg
  cases hg

theorem hasAttributes_iff {g : GroupId} :
    (h.group g).hasAttributes = true ↔ ∃ n i, (h.group g).items.find? n = some i := by
  simp only [OrderedMap.find?_eq_some_iff, Group.hasAttributes, OrderedMap.isEmpty,
    Bool.not_eq_true', List.isEmpty_eq_false_iff, ← List.length_pos_iff,
    List.length_pos_iff_exists_mem, Prod.exists]

/-- There are no more marks than pairs of groups. -/
theorem MarksSound.length_le (hm : h.MarksSound marks) :
    marks.length ≤ h.groups.size * h.groups.size := by
  have hsub : marks ⊆ h.groupIds ×ˢ h.groupIds := by
    intro p hp
    obtain ⟨ha, hb⟩ := hm.items p hp
    exact List.mem_product.2 ⟨mem_groupIds.2 (hasGroup_of_hasAttributes ha),
      mem_groupIds.2 (hasGroup_of_hasAttributes hb)⟩
  have hle := (List.subperm_of_subset hm.nodup hsub).length_le
  simpa [List.length_product, groupIds] using hle

theorem marksSound_nil (h : Heap) : h.MarksSound [] :=
  ⟨.nil, fun _ hp => absurd hp List.not_mem_nil⟩

theorem MarksSound.cons (hm : h.MarksSound marks) {a b : GroupId} (hmark : (a, b) ∉ marks)
    (ha : (h.group a).hasAttributes = true) (hb : (h.group b).hasAttributes = true) :
    h.MarksSound ((a, b) :: marks) :=
  ⟨List.nodup_cons.2 ⟨hmark, hm.nodup⟩, List.forall_mem_cons.2 ⟨⟨ha, hb⟩, hm.items⟩⟩

/-- **A comparison decides coverage relative to the marks**, if it may go deeper than there are
pairs left to be marked. -/
theorem coversWithin_decides : ∀ (fuel : Nat) (marks : List (GroupId × GroupId)),
    h.MarksSound marks → h.groups.size * h.groups.size < fuel + marks.length →
    DecidesPairs marks (h.coversWithin fuel) (h.CoversUnder marks) := by
  intro fuel
  induction fuel with
  | zero =>
    intro marks hm hfuel
    have := hm.length_le
    omega
  | succ fuel ih =>
    intro marks hm hfuel a o
    match o with
    | none => exact Yields.pure (by simp)
    | some b =>
      have hpair : (∃ b', some b = some b' ∧ h.CoversUnder marks a b') ↔ h.CoversUnder marks a b :=
        ⟨fun ⟨_, hb', hab⟩ => Option.some.inj hb' ▸ hab, fun hab => ⟨b, rfl, hab⟩⟩
      rw [hpair, coversWithin]
      by_cases heq : b = a
      · rw [if_pos heq]
        exact Yields.pure (iff_of_true rfl (coversUnder_of_trivial (.inl heq.symm)))
      rw [if_neg heq]
      have hne : a ≠ b := fun hab => heq hab.symm
      cases hb : (h.group b).hasAttributes with
      | false =>
        have hab : h.CoversUnder marks a b := coversUnder_of_trivial (.inr hb)
        cases ha : (h.group a).hasAttributes with
        | false => exact Yields.pure (iff_of_true rfl hab)
        | true => exact Yields.pure (iff_of_true rfl hab)
      | true =>
        cases ha : (h.group a).hasAttributes with
        | false =>
          have hmark : (a, b) ∉ marks := fun hp => by
            have := (hm.items _ hp).1
            rw [ha] at this
            cases this
          exact Yields.pure (iff_of_false (by simp) (not_coversUnder hne ha hb hmark))
        | true =>
          refine Yields.bind yields_get fun s hs => ?_
          rw [hs]
          by_cases hmark : (a, b) ∈ marks
          · rw [if_pos hmark]
            exact Yields.pure (iff_of_true rfl (coversUnder_of_mem hmark))
          rw [if_neg hmark]
          have hm' := hm.cons hmark ha hb
          have hcompare := ih ((a, b) :: marks) hm' (by rw [List.length_cons]; omega)
          refine Yields.within (Yields.mono (coverItems_decides hcompare a _) fun r hr => ?_)
          rw [hr, coversUnder_step hne ha hb hmark]

/-- A comparison that starts without marks may go deeper than there are pairs. -/
theorem size_lt_coverageDepth (h : Heap) :
    h.groups.size * h.groups.size < h.coverageDepth + ([] : List (GroupId × GroupId)).length :=
  Nat.lt_succ_of_le (Nat.mul_le_mul (Nat.le_succ _) (Nat.le_succ _))

/-- A group covers another one exactly if it does so relative to no marks. -/
theorem coverage_iff {a b : GroupId} :
    (h.coverage a (some b)).1 = true ↔ h.CoversUnder [] a b := by
  obtain ⟨r, s, hrun, -, hr⟩ :=
    coversWithin_decides _ [] (marksSound_nil h) h.size_lt_coverageDepth a (some b) {} rfl
  rw [coverage, hrun]
  exact hr.trans ⟨fun ⟨_, hb, hab⟩ => Option.some.inj hb ▸ hab, fun hab => ⟨b, rfl, hab⟩⟩

/-- **Coverage is the greatest relation every pair of which is one group twice, or has no items on
the other side, or passes the scan of the other side's items up to the first structural stop, all
compared pairs being in the relation.** -/
theorem coverage_isGreatest (h : Heap) :
    IsGreatest {R : GroupId → GroupId → Prop | h.IsCoverage R}
      fun a b => (h.coverage a (some b)).1 = true := by
  have hcoverage : (fun a b => (h.coverage a (some b)).1 = true) = h.CoversUnder [] := by
    funext a b
    exact propext coverage_iff
  rw [hcoverage]
  constructor
  · intro a b hab
    exact hab.passes.resolve_left List.not_mem_nil
  · intro R hR a b hab
    exact ⟨R, hab, fun x y hxy => .inr (hR x y hxy)⟩

end Heap

end AttributeGraph
