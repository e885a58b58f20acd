/-
Coverage that is found without a short circuit.

A comparison that answers yes may have ended early, and then a diagnostic says so.
Without a diagnostic every scan went on to its last item, so the answer says more:
`Includes` is what such a scan asks of two groups, and an `IsInclusion` is a
relation that asks it of all its pairs.

A pair that is met again while it is being compared is answered with yes and not
looked at.  It counts as included relative to the marks (`IncludedUnder`), and as
with coverage itself a mark can be dropped once its pair has been scanned
(`includedUnder_iff_includes`).  So a silent yes is given exactly to the pairs of
inclusions (`coverage_eq_silent_iff`), and along an inclusion every walk through
primary groups on the right side can be followed on the left.
-/
import AttributeGraph.Proofs.Coverage
import AttributeGraph.Proofs.Related

namespace AttributeGraph

/-! ### Scans that nothing stops -/

theorem primaryScan_proceed_iff {R : GroupId → GroupId → Prop} {x y : Option GroupId} :
    PrimaryScan R x y .proceed ↔ Option.Rel R x y := by
  constructor
  · intro hscan
    cases hscan with
    | compared hab => exact .some hab
    | neither => exact .none
  · intro hrel
    cases hrel with
    | some hab => exact .compared hab
    | none => exact .neither

theorem slotsScan_proceed_cons_iff {slot : SlotVerdict → Prop} {rest : List (SlotVerdict → Prop)} :
    SlotsScan (slot :: rest) .proceed ↔ slot .proceed ∧ SlotsScan rest .proceed := by
  constructor
  · intro hscan
    cases hscan with
    | next hslot hrest => exact ⟨hslot, hrest⟩
  · intro hscan
    exact .next hscan.1 hscan.2

theorem slotsScan_nil : SlotsScan [] .proceed := .done

/-- Nothing stops the scan of an item if nothing stops it in any of the four places. -/
theorem itemScan_proceed_iff {R : GroupId → GroupId → Prop} {x y : Item} :
    ItemScan R x y .proceed ↔
      (∀ side, Option.Rel R (x.slot side).primary (y.slot side).primary) ∧
        ∀ side, TypedScan R (x.slot side).byType (y.slot side).byType .proceed := by
  have hsides : ∀ P : Side → Prop, (∀ side, P side) ↔ P .value ∧ P .key := by
    intro P
    refine ⟨fun hall => ⟨hall .value, hall .key⟩, fun hboth side => ?_⟩
    cases side with
    | value => exact hboth.1
    | key => exact hboth.2
  simp only [ItemScan, slotsScan_proceed_cons_iff, slotsScan_nil, and_true,
    primaryScan_proceed_iff, hsides, Item.slot, and_assoc]

namespace Heap

variable {h : Heap} {R S : GroupId → GroupId → Prop} {a b : GroupId}

/-- A group declares every attribute of another one, and nothing stops the scans of its items. -/
def Includes (h : Heap) (R : GroupId → GroupId → Prop) (a b : GroupId) : Prop :=
  ∀ n j, (h.group b).items.find? n = some j →
    ∃ i, (h.group a).items.find? n = some i ∧ ItemScan R (h.item i) (h.item j) .proceed

/-- A relation whose groups are the same, or one includes the other through the relation itself. -/
def IsInclusion (h : Heap) (R : GroupId → GroupId → Prop) : Prop :=
  ∀ a b, R a b → a = b ∨ h.Includes R a b

theorem Includes.mono (hRS : ∀ a b, R a b → S a b) (hab : h.Includes R a b) :
    h.Includes S a b := by
  intro n j hj
  obtain ⟨i, hi, hscan⟩ := hab n j hj
  exact ⟨i, hi, ItemScan.mono hRS hscan⟩

theorem includes_of_not_hasAttributes (hb : (h.group b).hasAttributes = false) :
    h.Includes R a b := by
  intro n j hj
  have hsome := hasAttributes_iff.2 ⟨n, j, hj⟩
  simp [hb] at hsome

/-- A group without items includes only groups without items. -/
theorem Includes.hasAttributes (hab : h.Includes R a b)
    (hb : (h.group b).hasAttributes = true) : (h.group a).hasAttributes = true := by
  obtain ⟨n, j, hj⟩ := hasAttributes_iff.1 hb
  obtain ⟨i, hi, -⟩ := hab n j hj
  exact hasAttributes_iff.2 ⟨n, i, hi⟩

/-! ### Inclusion relative to marks -/

/-- The largest relation whose pairs are marked, or the same group twice, or included through the
relation. -/
def IncludedUnder (h : Heap) (marks : List (GroupId × GroupId)) (a b : GroupId) : Prop :=
  ∃ R : GroupId → GroupId → Prop, R a b ∧
    ∀ x y, R x y → (x, y) ∈ marks ∨ x = y ∨ h.Includes R x y

variable {marks : List (GroupId × GroupId)}

theorem includedUnder_of_mem (hab : (a, b) ∈ marks) : h.IncludedUnder marks a b :=
  ⟨fun x y => (x, y) ∈ marks, hab, fun _ _ => .inl⟩

theorem includedUnder_self (a : GroupId) : h.IncludedUnder marks a a :=
  ⟨Eq, rfl, fun _ _ hxy => .inr (.inl hxy)⟩

theorem IncludedUnder.cases (hab : h.IncludedUnder marks a b) :
    (a, b) ∈ marks ∨ a = b ∨ h.Includes (h.IncludedUnder marks) a b := by
  obtain ⟨R, hR, hall⟩ := hab
  rcases hall a b hR with hmem | heq | hincludes
  · exact .inl hmem
  · exact .inr (.inl heq)
  · exact .inr (.inr (hincludes.mono fun x y hxy => ⟨R, hxy, hall⟩))

/-- **A mark can be dropped once its pair has been scanned.** -/
theorem includedUnder_iff_includes (hne : a ≠ b) (hmark : (a, b) ∉ marks) :
    h.IncludedUnder marks a b ↔ h.Includes (h.IncludedUnder ((a, b) :: marks)) a b := by
  constructor
  · intro hab
    rcases hab.cases with hmem | heq | hincludes
    · exact absurd hmem hmark
    · exact absurd heq hne
    · refine hincludes.mono fun x y hxy => ?_
      obtain ⟨R, hR, hall⟩ := hxy
      exact ⟨R, hR, fun u v huv => (hall u v huv).imp_left (List.mem_cons_of_mem _)⟩
  · intro hincludes
    refine ⟨h.IncludedUnder ((a, b) :: marks), includedUnder_of_mem List.mem_cons_self, ?_⟩
    intro x y hxy
    rcases hxy.cases with hmem | hrest
    · rcases List.mem_cons.1 hmem with heq | hmem
      · obtain ⟨rfl, rfl⟩ := Prod.mk.inj heq
        exact .inr (.inr hincludes)
      · exact .inl hmem
    · exact .inr hrest

theorem includedUnder_nil_iff : h.IncludedUnder [] a b ↔ ∃ R, h.IsInclusion R ∧ R a b := by
  simp only [IncludedUnder, IsInclusion, List.not_mem_nil, false_or, and_comm]

end Heap

/-! ### Comparisons that say nothing -/

namespace Covering

variable {α β : Type} {marks : List (GroupId × GroupId)} {P Q : Prop} {a : α} {b : β}

/-- Under the given marks a comparison ends with the same marks, and it gives an answer without a
diagnostic exactly if a proposition holds. -/
def Quietly (marks : List (GroupId × GroupId)) (x : Covering α) (a : α) (P : Prop) : Prop :=
  ∀ s, s.marks = marks → ∃ r new,
    x.run s = some (r, { marks := marks, diagnostics := s.diagnostics ++ new }) ∧
      (r = a ∧ new = [] ↔ P)

theorem Quietly.congr {x : Covering α} (hx : Quietly marks x a P) (hPQ : P ↔ Q) :
    Quietly marks x a Q := by
  rwa [← propext hPQ]

theorem quietly_pure (r : α) : Quietly marks (pure r) a (r = a) := by
  intro s hs
  refine ⟨r, [], ?_, by simp⟩
  rw [← hs, List.append_nil]
  rfl

/-- A comparison is quiet if both its parts are, and only if the first one goes on with the answer
that the second one needs. -/
theorem Quietly.bind {x : Covering α} {f : α → Covering β} (hx : Quietly marks x a P)
    (hf : Quietly marks (f a) b Q) (hother : ∀ r, r ≠ a → Quietly marks (f r) b False) :
    Quietly marks (x >>= f) b (P ∧ Q) := by
  intro s hs
  obtain ⟨r, new, hrun, hP⟩ := hx s hs
  by_cases hr : r = a
  · subst hr
    obtain ⟨r', new', hrun', hQ⟩ := hf { marks := marks, diagnostics := s.diagnostics ++ new } rfl
    refine ⟨r', new ++ new', by simp [StateT.run_bind, hrun, hrun'], ?_⟩
    rw [← hP, ← hQ, List.append_eq_nil_iff]
    tauto
  · obtain ⟨r', new', hrun', hQ⟩ :=
      hother r hr { marks := marks, diagnostics := s.diagnostics ++ new } rfl
    refine ⟨r', new ++ new', by simp [StateT.run_bind, hrun, hrun'], ?_⟩
    rw [← hP, List.append_eq_nil_iff]
    tauto

theorem quietly_get {f : CoverageState → Covering α}
    (hf : ∀ s, s.marks = marks → Quietly marks (f s) a P) : Quietly marks (get >>= f) a P :=
  fun s hs => hf s hs s hs

theorem Quietly.within {pair : GroupId × GroupId} {body : Covering Bool} {r : Bool}
    (hbody : Quietly (pair :: marks) body r P) : Quietly marks (within pair body) r P := by
  intro s hs
  obtain ⟨r', new, hrun, hP⟩ := hbody { s with marks := pair :: s.marks } (by simp [hs])
  refine ⟨r', new, ?_, hP⟩
  simp [Covering.within, StateT.run_bind, hrun]

/-- A comparison that reports something is not quiet. -/
theorem quietly_report (d : Diagnostic) (r : α) :
    Quietly marks (report d >>= fun _ => pure r) a False := by
  intro s hs
  refine ⟨r, [d], ?_, by simp⟩
  rw [← hs]
  rfl

/-- Nothing stops a scan quietly if every slot goes on quietly. -/
theorem firstOf_quietly {slots : List (Covering SlotVerdict)} {scans : List (SlotVerdict → Prop)}
    (hslots : List.Forall₂ (fun slot scan => Quietly marks slot .proceed (scan .proceed)) slots
      scans) : Quietly marks (firstOf slots) .proceed (SlotsScan scans .proceed) := by
  induction hslots with
  | nil => exact (quietly_pure SlotVerdict.proceed).congr (by simp [slotsScan_nil])
  | cons hslot _ ih =>
    refine (hslot.bind ih fun r hr => ?_).congr slotsScan_proceed_cons_iff.symm
    cases r with
    | proceed => exact absurd rfl hr
    | fail => exact (quietly_pure _).congr (by simp)
    | shortCircuit => exact (quietly_pure _).congr (by simp)

end Covering

namespace Heap

open Covering

variable {h : Heap} {P : GroupId → GroupId → Prop} {compare : Compare} {a b : GroupId}
  {marks : List (GroupId × GroupId)}

/-- A comparison of groups says yes quietly to the pairs of a relation. -/
def QuietPairs (marks : List (GroupId × GroupId)) (compare : Compare)
    (P : GroupId → GroupId → Prop) : Prop :=
  ∀ a o, Quietly marks (compare a o) true (∃ b, o = some b ∧ P a b)

theorem coverPrimary_quietly (hcompare : QuietPairs marks compare P)
    (mine theirs : Option GroupId) :
    Quietly marks (coverPrimary compare mine theirs) .proceed
      (PrimaryScan P mine theirs .proceed) := by
  rw [primaryScan_proceed_iff]
  match mine, theirs with
  | some a, theirs =>
    refine ((hcompare a theirs).bind (b := SlotVerdict.proceed) (quietly_pure _)
      fun r hr => ?_).congr ?_
    · rw [Bool.eq_false_iff.2 hr]
      exact (quietly_pure _).congr (by simp)
    · cases theirs <;> simp
  | none, some b => exact (quietly_pure _).congr (by simp)
  | none, none => exact (quietly_pure _).congr (by simp)

theorem coverEntries_quietly (hcompare : QuietPairs marks compare P)
    (theirs : OrderedMap TypeTag GroupId) (l : List (TypeTag × GroupId)) :
    Quietly marks (coverEntries compare theirs l) .proceed
      (∀ e ∈ l, ∃ b, theirs.find? e.1 = some b ∧ P e.2 b) := by
  induction l with
  | nil => exact (quietly_pure _).congr (by simp)
  | cons e l ih =>
    refine ((hcompare e.2 (theirs.find? e.1)).bind ih fun r hr => ?_).congr ?_
    · rw [Bool.eq_false_iff.2 hr]
      exact (quietly_pure _).congr (by simp)
    · rw [List.forall_mem_cons]

theorem coverTyped_quietly (hcompare : QuietPairs marks compare P)
    (mine theirs : Option (OrderedMap TypeTag GroupId)) :
    Quietly marks (coverTyped compare mine theirs) .proceed
      (TypedScan P mine theirs .proceed) := by
  match mine, theirs with
  | none, theirs => exact (quietly_pure _).congr (by simp [TypedScan.untyped])
  | some mine, none =>
    refine (quietly_pure SlotVerdict.shortCircuit).congr ⟨fun hno => ?_, fun hscan => ?_⟩
    · cases hno
    · cases hscan
  | some mine, some theirs =>
    refine (coverEntries_quietly hcompare theirs mine.entries).congr ?_
    simp only [Prod.forall, ← OrderedMap.find?_eq_some_iff (m := mine)]
    constructor
    · intro hkeys
      exact .compared hkeys
    · intro hscan
      cases hscan with
      | compared hkeys => exact hkeys

theorem coverItem_quietly (hcompare : QuietPairs marks compare P) (mine theirs : Item) :
    Quietly marks (coverItem compare mine theirs) .proceed (ItemScan P mine theirs .proceed) :=
  firstOf_quietly (.cons (coverPrimary_quietly hcompare _ _)
    (.cons (coverPrimary_quietly hcompare _ _) (.cons (coverTyped_quietly hcompare _ _)
      (.cons (coverTyped_quietly hcompare _ _) .nil))))

theorem coverItems_quietly (hcompare : QuietPairs marks compare P) (a : GroupId)
    (l : List (String × ItemId)) :
    Quietly marks (h.coverItems compare a l) true
      (∀ e ∈ l, ∃ i, (h.group a).items.find? e.1 = some i ∧
        ItemScan P (h.item i) (h.item e.2) .proceed) := by
  induction l with
  | nil => exact (quietly_pure _).congr (by simp)
  | cons e l ih =>
    obtain ⟨n, j⟩ := e
    cases hn : (h.group a).items.find? n with
    | none =>
      simp only [coverItems, hn]
      exact (quietly_pure _).congr (by simp [hn])
    | some i =>
      simp only [coverItems, hn]
      refine ((coverItem_quietly hcompare (h.item i) (h.item j)).bind ih fun r hr => ?_).congr ?_
      · cases r with
        | proceed => exact absurd rfl hr
        | fail => exact (quietly_pure _).congr (by simp)
        | shortCircuit => exact quietly_report _ _
      · simp [hn]

/-- A map without attributes is included in every map. -/
theorem includedUnder_of_not_hasAttributes {marks : List (GroupId × GroupId)}
    (hb : (h.group b).hasAttributes = false) : h.IncludedUnder marks a b := by
  refine ⟨fun x y => x = a ∧ y = b, ⟨rfl, rfl⟩, ?_⟩
  rintro x y ⟨rfl, rfl⟩
  exact .inr (.inr (includes_of_not_hasAttributes hb))

/-- Another map that includes one with attributes has attributes. -/
theorem IncludedUnder.hasAttributes {marks : List (GroupId × GroupId)}
    (hab : h.IncludedUnder marks a b) (hm : h.MarksSound marks) (hne : a ≠ b)
    (hb : (h.group b).hasAttributes = true) : (h.group a).hasAttributes = true := by
  rcases hab.cases with hmem | hsame | hincludes
  · exact (hm.items _ hmem).1
  · exact absurd hsame hne
  · exact hincludes.hasAttributes hb

/-- **A comparison says yes quietly to what is included relative to the marks**, if it may go deeper
than there are pairs left to be marked. -/
theorem coversWithin_quietly (fuel : Nat) : ∀ marks : List (GroupId × GroupId),
    h.MarksSound marks → h.groups.size * h.groups.size < fuel + marks.length →
    QuietPairs marks (h.coversWithin fuel) (h.IncludedUnder marks) := by
  induction fuel with
  | zero =>
    intro marks hm hfuel
    have := hm.length_le
    omega
  | succ fuel ih =>
    intro marks hm hfuel a o
    match o with
    | none => exact (quietly_pure _).congr (by simp)
    | some b =>
      suffices hpair : Quietly marks (h.coversWithin (fuel + 1) a (some b)) true
          (h.IncludedUnder marks a b) from hpair.congr (by simp)
      rw [coversWithin]
      by_cases heq : b = a
      · subst heq
        rw [if_pos rfl]
        exact (quietly_pure _).congr (by simp [includedUnder_self])
      rw [if_neg heq]
      have hne : a ≠ b := fun hab => heq hab.symm
      cases hb : (h.group b).hasAttributes with
      | false =>
        have hab : h.IncludedUnder marks a b := includedUnder_of_not_hasAttributes hb
        cases (h.group a).hasAttributes <;> exact (quietly_pure _).congr (by simp [hab])
      | true =>
        cases ha : (h.group a).hasAttributes with
        | false =>
          have hab : ¬ h.IncludedUnder marks a b := by
            intro hab
            simp [hab.hasAttributes hm hne hb] at ha
          exact (quietly_pure _).congr (by simp [hab])
        | true =>
          refine quietly_get fun s hs => ?_
          rw [hs]
          by_cases hmark : (a, b) ∈ marks
          · rw [if_pos hmark]
            exact (quietly_pure _).congr (by simp [includedUnder_of_mem hmark])
          rw [if_neg hmark]
          have hm' := hm.cons hmark ha hb
          have hcompare := ih ((a, b) :: marks) hm' (by rw [List.length_cons]; omega)
          refine ((coverItems_quietly hcompare a _).within).congr ?_
          rw [includedUnder_iff_includes hne hmark, Includes]
          simp only [Prod.forall, ← OrderedMap.find?_eq_some_iff (m := (h.group b).items)]

/-- **The answer is yes without a diagnostic exactly for the pairs of inclusions.** -/
theorem coverage_eq_silent_iff :
    h.coverage a (some b) = (true, []) ↔ ∃ R, h.IsInclusion R ∧ R a b := by
  obtain ⟨r, new, hrun, hquiet⟩ :=
    coversWithin_quietly _ [] (marksSound_nil h) h.size_lt_coverageDepth a (some b) {} rfl
  have hanswer : h.coverage a (some b) = (r, new) := by simp [coverage, hrun]
  rw [hanswer, Prod.mk.injEq, hquiet, ← includedUnder_nil_iff]
  simp

/-! ### Walks through primary groups -/

/-- The names of local attributes can be followed from a group, each but the last one with a step
into the primary group on the given side of the item. -/
inductive CanFollow (h : Heap) : GroupId → List (String × Side) → String → Prop
  | last {g : GroupId} {n : String} {i : ItemId} (hn : (h.group g).items.find? n = some i) :
      CanFollow h g [] n
  | step {g x : GroupId} {n last : String} {side : Side} {i : ItemId} {rest : List (String × Side)}
      (hn : (h.group g).items.find? n = some i) (hx : ((h.item i).slot side).primary = some x)
      (hrest : CanFollow h x rest last) : CanFollow h g ((n, side) :: rest) last

theorem CanFollow.of_inclusion {steps : List (String × Side)} {last : String}
    (hfollow : h.CanFollow b steps last) {R : GroupId → GroupId → Prop} (hR : h.IsInclusion R)
    (hab : R a b) : h.CanFollow a steps last := by
  induction hfollow generalizing a with
  | last hn =>
    rcases hR _ _ hab with rfl | hincludes
    · exact .last hn
    · obtain ⟨i, hi, -⟩ := hincludes _ _ hn
      exact .last hi
  | step hn hx hrest ih =>
    rcases hR _ _ hab with rfl | hincludes
    · exact .step hn hx hrest
    · obtain ⟨i, hi, hscan⟩ := hincludes _ _ hn
      -- where the right side has a primary group, the left side has one, and the pair is related
      have hprimary := (itemScan_proceed_iff.1 hscan).1
      obtain ⟨u, hu, hux⟩ := exists_left_of_rel (hprimary _) hx
      exact .step hi hu (ih hux)

/-- **A yes without a diagnostic proves coverage along every walk.**  However the groups are shared
and whatever cycles they form, the local attributes that can be followed one after another from the
covered group, through primary groups of values and keys, can be followed from the other one. -/
theorem canFollow_of_coverage (hcovers : h.coverage a (some b) = (true, []))
    (steps : List (String × Side)) (last : String) (hfollow : h.CanFollow b steps last) :
    h.CanFollow a steps last := by
  obtain ⟨R, hR, hab⟩ := coverage_eq_silent_iff.1 hcovers
  exact hfollow.of_inclusion hR hab

/-- A group nested in itself, and two others nested in one another: their maps have the attribute
`next` for values and keys, and only the first one and the last one have a size. -/
def chains : Heap where
  groups := #[
    { name := "chain", items := .ofList [("size", ⟨0⟩), ("next", ⟨1⟩)] },
    { name := "odd", items := .ofList [("next", ⟨2⟩)] },
    { name := "even", items := .ofList [("next", ⟨3⟩), ("size", ⟨4⟩)] }]
  items := #[
    { name := "size", owner := ⟨0⟩ },
    { name := "next", owner := ⟨0⟩
      value := { primary := some ⟨0⟩ }, key := { primary := some ⟨0⟩ } },
    { name := "next", owner := ⟨1⟩
      value := { primary := some ⟨2⟩ }, key := { primary := some ⟨1⟩ } },
    { name := "next", owner := ⟨2⟩
      value := { primary := some ⟨1⟩ }, key := { primary := some ⟨2⟩ } },
    { name := "size", owner := ⟨2⟩ }]
  variants := #[.generic]

/-- The groups of the two sides are met again before anything is found missing, and the size lies
behind two steps. -/
theorem canFollow_of_coverage_chains :
    chains.coverage ⟨0⟩ (some ⟨1⟩) = (true, []) ∧
      chains.CanFollow ⟨1⟩ [("next", .value), ("next", .key)] "size" ∧
      chains.CanFollow ⟨0⟩ [("next", .value), ("next", .key)] "size" := by
  have hcovers : chains.coverage ⟨0⟩ (some ⟨1⟩) = (true, []) := by rfl
  have hfollow : chains.CanFollow ⟨1⟩ [("next", .value), ("next", .key)] "size" :=
    .step (i := ⟨2⟩) rfl rfl (.step (i := ⟨3⟩) rfl rfl (.last (i := ⟨4⟩) rfl))
  exact ⟨hcovers, hfollow, canFollow_of_coverage hcovers _ _ hfollow⟩

end Heap

end AttributeGraph
