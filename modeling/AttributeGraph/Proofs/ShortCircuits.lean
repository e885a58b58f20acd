/-
Where comparisons stop short.

A comparison stops where the other side has a nested group, or groups per type, and
this side has no place for any.  The stop ends the scan of the two groups in whose
items it is found, with a yes and a diagnostic.  For the scan around it, though, it
is just two nested groups that cover each other, so that scan goes on: it may come to
further stops, and it may still fail.

To say which stops a comparison comes to, a scan is first laid out as a list of
checks (`checks`, `coverItems_eq`).  A check is met if those before it pass, and
`StopsAt` follows the checks that are met from pair to pair.  A comparison reports
each of these stops once and nothing else (`coversWithin_reports`).  So a stop decides
the call exactly if it is the only one and no scan around it fails; one in the items
of the two groups themselves settles the answer and comes last (`coverage_stops`).
-/
import AttributeGraph.Proofs.Coverage

namespace AttributeGraph

/-! ### The checks of a scan -/

/-- How a comparison goes on to two nested groups: in the value or in the key of an attribute, as
the primary groups there or as those of one key. -/
structure ScanStep where
  name : String
  side : Side
  key : Option TypeTag
deriving DecidableEq

/-- What the scan of two groups asks for: two nested groups that cover each other, or nothing, since
it stops, or an attribute that is not there. -/
inductive ScanCheck where
  | pair (step : ScanStep) (mine : GroupId) (theirs : Option GroupId)
  | stop (name : String)
  | lack (name : String)
deriving DecidableEq

namespace ScanCheck

/-- The step to the nested groups of a check. -/
def step? : ScanCheck → Option ScanStep
  | pair step _ _ => some step
  | _ => none

/-- The scan goes on behind two nested groups that are related. -/
def Passes (R : GroupId → GroupId → Prop) : ScanCheck → Prop
  | pair _ a o => ∃ b, o = some b ∧ R a b
  | _ => False

end ScanCheck

/-- The checks of two primary groups. -/
def checksOfPrimary (name : String) (side : Side) (mine theirs : Option GroupId) : List ScanCheck :=
  match mine, theirs with
  | some g, _ => [.pair ⟨name, side, none⟩ g theirs]
  | none, some _ => [.stop name]
  | none, none => []

/-- The checks of the groups that two slots file per type. -/
def checksOfTyped (name : String) (side : Side)
    (mine theirs : Option (OrderedMap TypeTag GroupId)) : List ScanCheck :=
  match mine, theirs with
  | none, _ => []
  | some _, none => [.stop name]
  | some mine, some theirs =>
    mine.entries.map fun e => .pair ⟨name, side, some e.1⟩ e.2 (theirs.find? e.1)

/-- The checks of two items. -/
def checksOfItems (name : String) (mine theirs : Item) : List ScanCheck :=
  checksOfPrimary name .value mine.value.primary theirs.value.primary ++
    (checksOfPrimary name .key mine.key.primary theirs.key.primary ++
      (checksOfTyped name .value mine.value.byType theirs.value.byType ++
        checksOfTyped name .key mine.key.byType theirs.key.byType))

/-- A check of a list is met if all checks before it pass. -/
def MetAmong (R : GroupId → GroupId → Prop) (checks : List ScanCheck) (c : ScanCheck) : Prop :=
  ∃ before after, checks = before ++ c :: after ∧ ∀ d ∈ before, d.Passes R

variable {R : GroupId → GroupId → Prop} {c d : ScanCheck} {cs : List ScanCheck} {step : ScanStep}
  {n : String}

theorem metAmong_cons : MetAmong R (d :: cs) c ↔ c = d ∨ d.Passes R ∧ MetAmong R cs c := by
  constructor
  · rintro ⟨before, after, heq, hbefore⟩
    cases before with
    | nil => exact .inl (List.cons.inj heq).1.symm
    | cons e before =>
      obtain ⟨rfl, rfl⟩ := List.cons.inj heq
      obtain ⟨hd, hbefore⟩ := List.forall_mem_cons.1 hbefore
      exact .inr ⟨hd, before, after, rfl, hbefore⟩
  · rintro (rfl | ⟨hd, before, after, rfl, hbefore⟩)
    · exact ⟨[], cs, rfl, fun _ he => absurd he List.not_mem_nil⟩
    · exact ⟨d :: before, after, rfl, List.forall_mem_cons.2 ⟨hd, hbefore⟩⟩

theorem not_metAmong_nil : ¬ MetAmong R [] c := by
  rintro ⟨before, after, heq, -⟩
  exact List.append_ne_nil_of_right_ne_nil before (List.cons_ne_nil c after) heq.symm

theorem MetAmong.mem (hmet : MetAmong R cs c) : c ∈ cs := by
  obtain ⟨before, after, rfl, -⟩ := hmet
  exact List.mem_append_right before List.mem_cons_self

/-! ### The steps of a scan -/

/-- The steps of a list of checks. -/
def stepsOf (cs : List ScanCheck) : List ScanStep := cs.filterMap ScanCheck.step?

/-- Where a step goes: to which side, and whether to typed groups there. -/
def ScanStep.place (step : ScanStep) : Side × Bool := (step.side, step.key.isSome)

theorem disjoint_of_place {l m : List ScanStep} {p q : Side × Bool}
    (hl : ∀ s ∈ l, s.name = n ∧ s.place = p) (hm : ∀ s ∈ m, s.name = n ∧ s.place = q)
    (hpq : p ≠ q) : l.Disjoint m :=
  fun s hs ht => hpq ((hl s hs).2.symm.trans (hm s ht).2)

theorem stepsOf_append (cs ds : List ScanCheck) : stepsOf (cs ++ ds) = stepsOf cs ++ stepsOf ds :=
  List.filterMap_append

section Slots

variable (n : String) (side : Side)

theorem stepsOf_checksOfPrimary (x y : Option GroupId) :
    stepsOf (checksOfPrimary n side x y) = if x.isSome then [⟨n, side, none⟩] else [] := by
  match x, y with
  | some g, _ => rfl
  | none, some _ => rfl
  | none, none => rfl

theorem stepsOf_checksOfTyped (x y : Option (OrderedMap TypeTag GroupId)) :
    ∃ keys : List TypeTag, keys.Nodup ∧
      stepsOf (checksOfTyped n side x y) = keys.map fun k => ⟨n, side, some k⟩ := by
  match x, y with
  | none, _ => exact ⟨[], .nil, rfl⟩
  | some _, none => exact ⟨[], .nil, rfl⟩
  | some mine, some theirs =>
    refine ⟨mine.keys, mine.nodup_keys, ?_⟩
    simp [stepsOf, checksOfTyped, OrderedMap.keys, List.filterMap_map, Function.comp_def,
      ScanCheck.step?]

/-- The steps to primary groups have their name and place, and occur once. -/
theorem steps_primary (x y : Option GroupId) :
    (∀ s ∈ stepsOf (checksOfPrimary n side x y), s.name = n ∧ s.place = (side, false)) ∧
      (stepsOf (checksOfPrimary n side x y)).Nodup := by
  rw [stepsOf_checksOfPrimary]
  split_ifs <;> simp [ScanStep.place]

/-- The steps to typed groups have their name and place, and occur once. -/
theorem steps_typed (x y : Option (OrderedMap TypeTag GroupId)) :
    (∀ s ∈ stepsOf (checksOfTyped n side x y), s.name = n ∧ s.place = (side, true)) ∧
      (stepsOf (checksOfTyped n side x y)).Nodup := by
  obtain ⟨keys, hkeys, hsteps⟩ := stepsOf_checksOfTyped n side x y
  rw [hsteps]
  constructor
  · intro s hs
    obtain ⟨k, -, rfl⟩ := List.mem_map.1 hs
    exact ⟨rfl, rfl⟩
  · exact hkeys.map fun k k' heq => Option.some.inj (ScanStep.mk.inj heq).2.2

end Slots

/-- The steps to the groups of two items have their name, and each occurs once. -/
theorem steps_items (n : String) (x y : Item) :
    (∀ s ∈ stepsOf (checksOfItems n x y), s.name = n) ∧ (stepsOf (checksOfItems n x y)).Nodup := by
  obtain ⟨hvalue, hvalues⟩ := steps_primary n .value x.value.primary y.value.primary
  obtain ⟨hkey, hkeys⟩ := steps_primary n .key x.key.primary y.key.primary
  obtain ⟨htyped, htypeds⟩ := steps_typed n .value x.value.byType y.value.byType
  obtain ⟨htypedKey, htypedKeys⟩ := steps_typed n .key x.key.byType y.key.byType
  simp only [checksOfItems, stepsOf_append]
  constructor
  · intro s hs
    simp only [List.mem_append] at hs
    rcases hs with hs | hs | hs | hs
    · exact (hvalue s hs).1
    · exact (hkey s hs).1
    · exact (htyped s hs).1
    · exact (htypedKey s hs).1
  · refine hvalues.append (hkeys.append (htypeds.append htypedKeys ?_) ?_) ?_
    · exact disjoint_of_place htyped htypedKey (by decide)
    · exact List.disjoint_append_right.2 ⟨disjoint_of_place hkey htyped (by decide),
        disjoint_of_place hkey htypedKey (by decide)⟩
    · simp only [List.disjoint_append_right]
      exact ⟨disjoint_of_place hvalue hkey (by decide), disjoint_of_place hvalue htyped (by decide),
        disjoint_of_place hvalue htypedKey (by decide)⟩

namespace Heap

open Covering

variable {h : Heap} {compare : Compare} {a b g : GroupId} {next : Covering Bool}
  {marks : List (GroupId × GroupId)}

/-- The checks of the items of another group. -/
def checks (h : Heap) (a : GroupId) : List (String × ItemId) → List ScanCheck
  | [] => []
  | (n, j) :: rest =>
    match (h.group a).items.find? n with
    | none => .lack n :: h.checks a rest
    | some i => checksOfItems n (h.item i) (h.item j) ++ h.checks a rest

theorem mem_stepsOf_checks {entries : List (String × ItemId)}
    (hs : step ∈ stepsOf (h.checks a entries)) : step.name ∈ entries.map Prod.fst := by
  induction entries with
  | nil => cases hs
  | cons e rest ih =>
    obtain ⟨n, j⟩ := e
    rw [checks] at hs
    cases hi : (h.group a).items.find? n with
    | none =>
      rw [hi] at hs
      exact List.mem_cons_of_mem _ (ih hs)
    | some i =>
      rw [hi, stepsOf_append] at hs
      rcases List.mem_append.1 hs with hs | hs
      · exact List.mem_cons.2 (.inl ((steps_items n _ _).1 step hs))
      · exact List.mem_cons_of_mem _ (ih hs)

/-- No two checks lead to nested groups by the same step. -/
theorem nodup_stepsOf_checks {entries : List (String × ItemId)}
    (hkeys : (entries.map Prod.fst).Nodup) : (stepsOf (h.checks a entries)).Nodup := by
  induction entries with
  | nil => exact .nil
  | cons e rest ih =>
    obtain ⟨n, j⟩ := e
    obtain ⟨hn, hkeys⟩ := List.nodup_cons.1 hkeys
    rw [checks]
    cases hi : (h.group a).items.find? n with
    | none => exact ih hkeys
    | some i =>
      rw [stepsOf_append]
      obtain ⟨hname, hitem⟩ := steps_items n (h.item i) (h.item j)
      refine hitem.append (ih hkeys) fun s hs hrest => hn ?_
      rw [← hname s hs]
      exact mem_stepsOf_checks hrest

/-- Make checks in order, and go on behind them. -/
def runChecks (h : Heap) (compare : Compare) (g : GroupId) :
    List ScanCheck → Covering Bool → Covering Bool
  | [], next => next
  | .pair _ u o :: rest, next => do
    if ← compare u o then h.runChecks compare g rest next else return false
  | .stop n :: _, _ => do
    report (.shortCircuit (Path.join (h.pathTo g) n))
    return true
  | .lack _ :: _, _ => return false

theorem runChecks_append (cs ds : List ScanCheck) :
    h.runChecks compare g (cs ++ ds) next =
      h.runChecks compare g cs (h.runChecks compare g ds next) := by
  induction cs with
  | nil => rfl
  | cons c cs ih =>
    cases c with
    | pair step u o => simp only [List.cons_append, runChecks, ih]
    | stop n => rfl
    | lack n => rfl

/-- What the scan of two items makes of the verdict on a slot. -/
def goOn (h : Heap) (g : GroupId) (n : String) (slot : Covering SlotVerdict)
    (next : Covering Bool) : Covering Bool := do
  match ← slot with
  | .proceed => next
  | .fail => return false
  | .shortCircuit =>
    report (.shortCircuit (Path.join (h.pathTo g) n))
    return true

theorem goOn_firstOf_cons (slot : Covering SlotVerdict) (slots : List (Covering SlotVerdict)) :
    h.goOn g n (firstOf (slot :: slots)) next =
      h.goOn g n slot (h.goOn g n (firstOf slots) next) := by
  simp only [goOn, firstOf, bind_assoc]
  refine bind_congr fun v => ?_
  cases v <;> simp

theorem goOn_coverPrimary (side : Side) (x y : Option GroupId) :
    h.goOn g n (coverPrimary compare x y) next =
      h.runChecks compare g (checksOfPrimary n side x y) next := by
  match x, y with
  | some u, o =>
    simp only [goOn, coverPrimary, checksOfPrimary, runChecks, bind_assoc, pure_bind]
    refine bind_congr fun r => ?_
    cases r <;> rfl
  | none, some v => simp [goOn, coverPrimary, checksOfPrimary, runChecks]
  | none, none => simp [goOn, coverPrimary, checksOfPrimary, runChecks]

theorem goOn_coverTyped (side : Side) (x y : Option (OrderedMap TypeTag GroupId)) :
    h.goOn g n (coverTyped compare x y) next =
      h.runChecks compare g (checksOfTyped n side x y) next := by
  match x, y with
  | none, _ => simp [goOn, coverTyped, checksOfTyped, runChecks]
  | some mine, none => simp [goOn, coverTyped, checksOfTyped, runChecks]
  | some mine, some theirs =>
    rw [coverTyped, checksOfTyped]
    induction mine.entries with
    | nil => simp [goOn, coverEntries, runChecks]
    | cons e rest ih =>
      rw [List.map_cons, runChecks, ← ih, coverEntries]
      simp only [goOn, bind_assoc]
      refine bind_congr fun r => ?_
      cases r <;> simp

theorem goOn_coverItem (x y : Item) :
    h.goOn g n (coverItem compare x y) next =
      h.runChecks compare g (checksOfItems n x y) next := by
  rw [coverItem, goOn_firstOf_cons, goOn_firstOf_cons, goOn_firstOf_cons, goOn_firstOf_cons,
    goOn_coverPrimary .value, goOn_coverPrimary .key, goOn_coverTyped .value,
    goOn_coverTyped .key, checksOfItems, runChecks_append, runChecks_append, runChecks_append]
  simp [goOn, firstOf]

/-- **Scanning the items of a group is making their checks in order.** -/
theorem coverItems_eq (entries : List (String × ItemId)) :
    h.coverItems compare g entries =
      h.runChecks compare g (h.checks g entries) (pure true) := by
  induction entries with
  | nil => rfl
  | cons e rest ih =>
    obtain ⟨n, j⟩ := e
    rw [coverItems, checks]
    cases hi : (h.group g).items.find? n with
    | none => rfl
    | some i =>
      dsimp only
      rw [runChecks_append, ← ih, ← goOn_coverItem]
      refine bind_congr fun v => ?_
      cases v <;> rfl

end Heap

/-! ### Stops -/

/-- Where a comparison stops: the way from the two groups compared to those whose scan stops, the
group of this side there, and the name of the attribute. -/
structure Stop where
  way : List ScanStep
  group : GroupId
  name : String
deriving DecidableEq

/-- A stop that a step leads to. -/
def Stop.below (step : ScanStep) (w : Stop) : Stop := { w with way := step :: w.way }

/-- The stops that a check comes to. -/
def ScanCheck.StopsAt (S : GroupId → GroupId → Stop → Prop) (g : GroupId) :
    ScanCheck → Stop → Prop
  | pair step a o, w => ∃ b, o = some b ∧ ∃ w', S a b w' ∧ w = w'.below step
  | stop n, w => w = ⟨[], g, n⟩
  | lack _, _ => False

/-- The first step to a stop is one of the steps of the scan. -/
theorem ScanCheck.StopsAt.mem_stepsOf {S : GroupId → GroupId → Stop → Prop} {g : GroupId}
    {w : Stop} (hw : c.StopsAt S g w) (hc : c ∈ cs) (hhead : w.way.head? = some step) :
    step ∈ stepsOf cs := by
  cases c with
  | lack n => exact hw.elim
  | stop n =>
    obtain rfl : w = ⟨[], g, n⟩ := hw
    cases hhead
  | pair step' u o =>
    obtain ⟨b, -, w', -, rfl⟩ := hw
    obtain rfl : step' = step := Option.some.inj hhead
    exact List.mem_filterMap.2 ⟨_, hc, rfl⟩

/-- Each stop of a kind is listed once, and one that no step leads to comes last. -/
structure Listed (S : Stop → Prop) (stops : List Stop) : Prop where
  nodup : stops.Nodup
  mem : ∀ w, w ∈ stops ↔ S w
  last : ∀ w ∈ stops, w.way = [] → stops.getLast? = some w

namespace Listed

variable {S T : Stop → Prop} {l m : List Stop} {w : Stop}

theorem nil (hS : ∀ w, ¬ S w) : Listed S [] where
  nodup := .nil
  mem w := by simp [hS w]
  last w hw := absurd hw List.not_mem_nil

theorem single (hS : ∀ w', S w' ↔ w' = w) : Listed S [w] where
  nodup := List.nodup_singleton w
  mem w' := by rw [List.mem_singleton, hS]
  last w' hw' _ := by rw [List.mem_singleton.1 hw', List.getLast?_singleton]

theorem congr (hl : Listed S l) (hST : ∀ w, S w ↔ T w) : Listed T l := by
  rwa [← funext fun w => propext (hST w)]

theorem below (hl : Listed S l) (step : ScanStep) :
    Listed (fun w => ∃ w', S w' ∧ w = w'.below step) (l.map (Stop.below step)) where
  nodup := hl.nodup.map fun w w' heq => by
    obtain ⟨_, _, _⟩ := w
    obtain ⟨_, _, _⟩ := w'
    obtain ⟨hway, rfl, rfl⟩ := Stop.mk.inj heq
    obtain ⟨-, rfl⟩ := List.cons.inj hway
    rfl
  mem w := by
    rw [List.mem_map]
    exact exists_congr fun w' => and_congr (hl.mem w') eq_comm
  last w hw hway := by
    obtain ⟨w', -, rfl⟩ := List.mem_map.1 hw
    cases hway

theorem append (hl : Listed S l) (hm : Listed T m) (hway : ∀ w, S w → w.way ≠ [])
    (hST : ∀ w, S w → ¬ T w) : Listed (fun w => S w ∨ T w) (l ++ m) where
  nodup := List.nodup_append.2 ⟨hl.nodup, hm.nodup, fun w hw w' hw' heq =>
    hST w ((hl.mem w).1 hw) (heq ▸ (hm.mem w').1 hw')⟩
  mem w := by rw [List.mem_append, hl.mem, hm.mem]
  last w hw hnil := by
    rcases List.mem_append.1 hw with hw | hw
    · exact absurd hnil (hway w ((hl.mem w).1 hw))
    · rw [List.getLast?_append, hm.last w hw hnil]
      rfl

/-- There is one stop exactly if all are the same. -/
theorem length_eq_one_iff (hl : Listed S l) (hw : S w) :
    l.length = 1 ↔ ∀ w', S w' → w' = w := by
  have hmem := (hl.mem w).2 hw
  constructor
  · intro hone w' hw'
    obtain ⟨v, rfl⟩ := List.length_eq_one_iff.1 hone
    rw [List.mem_singleton.1 hmem, List.mem_singleton.1 ((hl.mem w').2 hw')]
  · intro hall
    have hsub : l ⊆ [w] := fun w' hw' => List.mem_singleton.2 (hall w' ((hl.mem w').1 hw'))
    have hle := (List.subperm_of_subset hl.nodup hsub).length_le
    exact Nat.le_antisymm hle (List.length_pos_of_mem hmem)

end Listed

namespace Heap

open Covering

variable {h : Heap} {compare : Compare} {a b g : GroupId} {next x y : Covering Bool}
  {marks : List (GroupId × GroupId)} {S T : Stop → Prop} {P : Prop}

/-- The diagnostic of a stop. -/
def reportOf (h : Heap) (w : Stop) : Diagnostic :=
  .shortCircuit (Path.join (h.pathTo w.group) w.name)

/-- Under the given marks a comparison ends with the same marks, and it reports the stops of a kind
and nothing else.  If no step leads to one of them, its answer is yes. -/
def Reports (h : Heap) (marks : List (GroupId × GroupId)) (x : Covering Bool) (S : Stop → Prop) :
    Prop :=
  ∀ s, s.marks = marks → ∃ r stops, Listed S stops ∧ (∀ w, S w → w.way = [] → r = true) ∧
    x.run s = some (r, { marks := marks, diagnostics := s.diagnostics ++ stops.map h.reportOf })

theorem Reports.congr (hx : h.Reports marks x S) (hST : ∀ w, S w ↔ T w) : h.Reports marks x T := by
  rwa [← funext fun w => propext (hST w)]

theorem reports_pure (r : Bool) (hS : ∀ w, ¬ S w) : h.Reports marks (pure r) S := by
  intro s hs
  refine ⟨r, [], .nil hS, fun w hw => absurd hw (hS w), ?_⟩
  rw [List.map_nil, List.append_nil, ← hs]
  rfl

/-- What is compared behind a yes reports its stops behind the first ones. -/
theorem Reports.andThen (step : ScanStep) (hdecides : Decides marks x P) (hx : h.Reports marks x S)
    (hy : h.Reports marks y T) (hT : ∀ w, T w → w.way.head? ≠ some step) :
    h.Reports marks (x >>= fun r => if r then y else pure false)
      fun w => (∃ w', S w' ∧ w = w'.below step) ∨ P ∧ T w := by
  intro s hs
  obtain ⟨r, stops, hstops, -, hrun⟩ := hx s hs
  have hbelow := hstops.below step
  have hway : ∀ w, (∃ w', S w' ∧ w = w'.below step) → w.way ≠ [] := by
    rintro _ ⟨w', -, rfl⟩
    exact List.cons_ne_nil _ _
  obtain ⟨r', s', hrun', -, hr⟩ := hdecides s hs
  obtain ⟨rfl, -⟩ := Prod.mk.inj (Option.some.inj (hrun'.symm.trans hrun))
  have hsame : stops.map h.reportOf = (stops.map (Stop.below step)).map h.reportOf := by
    rw [List.map_map]
    rfl
  cases r' with
  | false =>
    have hP : ¬ P := fun hP => Bool.false_ne_true (hr.2 hP)
    refine ⟨false, _, hbelow.congr fun w => ?_, fun w hw hnil => ?_, ?_⟩
    · simp [hP]
    · exact hw.elim (fun hw => absurd hnil (hway w hw)) fun hw => absurd hw.1 hP
    · rw [← hsame, StateT.run_bind, hrun]
      rfl
  | true =>
    obtain ⟨r, rest, hrest, hyes, hrun''⟩ := hy
      { marks := marks, diagnostics := s.diagnostics ++ stops.map h.reportOf } rfl
    have hall := hbelow.append hrest hway (by rintro _ ⟨w', -, rfl⟩ hw; exact hT _ hw rfl)
    refine ⟨r, _, hall.congr fun w => ?_, fun w hw hnil => ?_, ?_⟩
    · simp [hr.1 rfl]
    · exact hyes w (hw.resolve_left fun hw => hway w hw hnil).2 hnil
    · rw [List.map_append, ← hsame, ← List.append_assoc, StateT.run_bind, hrun]
      exact hrun''

/-- The comparisons of groups report the stops of their pairs. -/
def ReportsPairs (h : Heap) (marks : List (GroupId × GroupId)) (compare : Compare)
    (S : GroupId → GroupId → Stop → Prop) : Prop :=
  ∀ a o, h.Reports marks (compare a o) fun w => ∃ b, o = some b ∧ S a b w

variable {C : GroupId → GroupId → Prop} {K : GroupId → GroupId → Stop → Prop}

/-- Making checks in order reports the stops of those that are met. -/
theorem runChecks_reports (hdecides : DecidesPairs marks compare C)
    (hreports : h.ReportsPairs marks compare K) (hsteps : (stepsOf cs).Nodup) :
    h.Reports marks (h.runChecks compare g cs (pure true))
      fun w => ∃ c, MetAmong C cs c ∧ c.StopsAt K g w := by
  induction cs with
  | nil => exact reports_pure true fun w ⟨c, hc, _⟩ => not_metAmong_nil hc
  | cons c cs ih =>
    simp only [metAmong_cons]
    cases c with
    | lack n =>
      refine reports_pure false fun w hw => ?_
      obtain ⟨c, rfl | ⟨hno, -⟩, hw⟩ := hw
      · exact hw
      · exact hno
    | stop n =>
      intro s hs
      refine ⟨true, [⟨[], g, n⟩], .single fun w => ⟨?_, fun hw => ⟨.stop n, .inl rfl, hw⟩⟩,
        fun _ _ _ => rfl, ?_⟩
      · rintro ⟨c, rfl | ⟨hno, -⟩, hw⟩
        · exact hw
        · exact hno.elim
      · rw [← hs]
        rfl
    | pair step u o =>
      obtain ⟨hstep, hsteps⟩ := List.nodup_cons.1 (show (step :: stepsOf cs).Nodup from hsteps)
      refine ((hreports u o).andThen step (hdecides u o) (ih hsteps) ?_).congr fun w => ?_
      · rintro w ⟨c, hc, hw⟩ hhead
        exact hstep (hw.mem_stepsOf hc.mem hhead)
      · simp only [or_and_right, exists_or, exists_eq_left, and_assoc, exists_and_left]
        exact or_congr_left ⟨fun ⟨w', ⟨b, hb, hw⟩, heq⟩ => ⟨b, hb, w', hw, heq⟩,
          fun ⟨b, hb, w', hw, heq⟩ => ⟨w', ⟨b, hb, hw⟩, heq⟩⟩

/-- A mark that is made for a comparison is taken back after it. -/
theorem Reports.within {pair : GroupId × GroupId}
    (hbody : h.Reports (pair :: marks) x S) : h.Reports marks (within pair x) S := by
  intro s hs
  obtain ⟨r, stops, hstops, hyes, hrun⟩ :=
    hbody { s with marks := pair :: s.marks } (by simp [hs])
  refine ⟨r, stops, hstops, hyes, ?_⟩
  simp [Covering.within, StateT.run_bind, hrun]

/-! ### The stops of a comparison -/

/-- Two groups are scanned: they are two, have items both, and are not being compared already. -/
structure Opens (h : Heap) (marks : List (GroupId × GroupId)) (a b : GroupId) : Prop where
  ne : b ≠ a
  left : (h.group a).hasAttributes = true
  right : (h.group b).hasAttributes = true
  fresh : (a, b) ∉ marks

/-- Two groups are scanned, and their scan comes to a check. -/
def Comes (h : Heap) (marks : List (GroupId × GroupId)) (a b : GroupId) (c : ScanCheck) : Prop :=
  h.Opens marks a b ∧
    MetAmong (h.CoversUnder ((a, b) :: marks)) (h.checks a (h.group b).items.entries) c

/-- The stops that a comparison comes to. -/
inductive StopsAt (h : Heap) : List (GroupId × GroupId) → GroupId → GroupId → Stop → Prop
  | here {marks : List (GroupId × GroupId)} {a b : GroupId} {n : String}
      (hcomes : h.Comes marks a b (.stop n)) : StopsAt h marks a b ⟨[], a, n⟩
  | nested {marks : List (GroupId × GroupId)} {a b u v : GroupId} {step : ScanStep} {w : Stop}
      (hcomes : h.Comes marks a b (.pair step u (some v)))
      (hstop : StopsAt h ((a, b) :: marks) u v w) : StopsAt h marks a b (w.below step)

theorem stopsAt_iff {w : Stop} :
    h.StopsAt marks a b w ↔
      ∃ c, h.Comes marks a b c ∧ c.StopsAt (h.StopsAt ((a, b) :: marks)) a w := by
  constructor
  · intro hw
    cases hw with
    | here hcomes => exact ⟨_, hcomes, rfl⟩
    | nested hcomes hstop => exact ⟨_, hcomes, _, rfl, _, hstop, rfl⟩
  · rintro ⟨c, hcomes, hw⟩
    cases c with
    | lack n => exact hw.elim
    | stop n =>
      obtain rfl : w = ⟨[], a, n⟩ := hw
      exact .here hcomes
    | pair step u o =>
      obtain ⟨v, rfl, w', hstop, rfl⟩ := hw
      exact .nested hcomes hstop

theorem coversWithin_of_opens (hopen : h.Opens marks a b) (fuel : Nat) {s : CoverageState}
    (hs : s.marks = marks) : (h.coversWithin (fuel + 1) a (some b)).run s =
      (within (a, b) (h.coverItems (h.coversWithin fuel) a (h.group b).items.entries)).run s := by
  have hfresh : (a, b) ∉ s.marks := hs ▸ hopen.fresh
  simp [coversWithin, hopen.ne, hopen.left, hopen.right, StateT.run_bind, hfresh]

/-- Two groups that are not scanned get their answer at once. -/
theorem exists_coversWithin_of_not_opens (hopen : ¬ h.Opens marks a b) (fuel : Nat) :
    ∃ r, ∀ s, s.marks = marks → (h.coversWithin (fuel + 1) a (some b)).run s = some (r, s) := by
  by_cases heq : b = a
  · exact ⟨true, fun s _ => by rw [coversWithin, if_pos heq]; rfl⟩
  cases ha : (h.group a).hasAttributes with
  | false =>
    refine ⟨!(h.group b).hasAttributes, fun s _ => ?_⟩
    simp [coversWithin, heq, ha]
  | true =>
    refine ⟨true, fun s hs => ?_⟩
    cases hb : (h.group b).hasAttributes with
    | false => simp [coversWithin, heq, ha, hb]
    | true =>
      have hmark : (a, b) ∈ s.marks := by
        by_contra hno
        exact hopen ⟨heq, ha, hb, hs ▸ hno⟩
      simp [coversWithin, heq, ha, hb, StateT.run_bind, hmark]

/-- **A comparison reports its stops, each once and nothing else**, if it may go deeper than there
are pairs left to be marked. -/
theorem coversWithin_reports (fuel : Nat) : ∀ marks : List (GroupId × GroupId),
    h.MarksSound marks → h.groups.size * h.groups.size < fuel + marks.length →
    h.ReportsPairs marks (h.coversWithin fuel) (h.StopsAt marks) := by
  induction fuel with
  | zero =>
    intro marks hm hfuel
    have := hm.length_le
    omega
  | succ fuel ih =>
    intro marks hm hfuel a o
    match o with
    | none => exact reports_pure false (by simp)
    | some b =>
      suffices hpair : h.Reports marks (h.coversWithin (fuel + 1) a (some b))
          (h.StopsAt marks a b) from hpair.congr (by simp)
      by_cases hopen : h.Opens marks a b
      · have hm' := hm.cons hopen.fresh hopen.left hopen.right
        have hfuel' : h.groups.size * h.groups.size < fuel + ((a, b) :: marks).length := by
          rw [List.length_cons]
          omega
        have hscan : h.Reports ((a, b) :: marks)
            (h.coverItems (h.coversWithin fuel) a (h.group b).items.entries)
            (h.StopsAt marks a b) := by
          rw [coverItems_eq]
          refine (runChecks_reports (coversWithin_decides fuel _ hm' hfuel') (ih _ hm' hfuel')
            (nodup_stepsOf_checks (h.group b).items.nodup_keys)).congr fun w => ?_
          simp [stopsAt_iff, Comes, hopen]
        intro s hs
        rw [coversWithin_of_opens hopen fuel hs]
        exact hscan.within s hs
      · obtain ⟨r, hr⟩ := exists_coversWithin_of_not_opens hopen fuel
        have hno : ∀ w, ¬ h.StopsAt marks a b w := by
          intro w hw
          obtain ⟨c, hcomes, -⟩ := stopsAt_iff.1 hw
          exact hopen hcomes.1
        intro s hs
        rw [hr s hs]
        exact reports_pure r hno s hs

/-- **What a short circuit decides.**  The diagnostics are those of the stops that the comparison
comes to, in which each counts once.  A stop in the items of the two groups themselves settles the
answer, and its diagnostic is the last.  But a diagnostic means a yes, and is the only one, exactly
if the comparison comes to no more than one stop and the first group covers the other by the
rules. -/
theorem coverage_stops (h : Heap) (a b : GroupId) :
    (∃ stops, Listed (h.StopsAt [] a b) stops ∧
      (h.coverage a (some b)).2 = stops.map h.reportOf) ∧
    ((h.coverage a (some b)).1 = true ↔ ∃ R, h.IsCoverage R ∧ R a b) ∧
    (∀ w, h.StopsAt [] a b w → w.way = [] → (h.coverage a (some b)).1 = true) ∧
    (((h.coverage a (some b)).2 ≠ [] →
        (h.coverage a (some b)).1 = true ∧ (h.coverage a (some b)).2.length = 1) ↔
      ∀ w, h.StopsAt [] a b w →
        (∃ R, h.IsCoverage R ∧ R a b) ∧ ∀ w', h.StopsAt [] a b w' → w' = w) := by
  obtain ⟨r, stops, hstops, hyes, hrun⟩ :=
    coversWithin_reports _ [] (marksSound_nil h) (h.size_lt_coverageDepth) a (some b) {} rfl
  replace hstops : Listed (h.StopsAt [] a b) stops := hstops.congr (by simp)
  have hdiagnostics : (h.coverage a (some b)).2 = stops.map h.reportOf := by
    rw [coverage, hrun]
    rfl
  have hanswer : (h.coverage a (some b)).1 = r := by
    rw [coverage, hrun]
  have hcovers := (coverage_iff (h := h) (a := a) (b := b)).trans coversUnder_nil_iff
  refine ⟨⟨stops, hstops, hdiagnostics⟩, hcovers, fun w hw hway => ?_, ?_⟩
  · rw [hanswer]
    exact hyes w ⟨b, rfl, hw⟩ hway
  · rw [hdiagnostics, hcovers, List.length_map]
    constructor
    · intro hsettles w hw
      have hsome : stops.map h.reportOf ≠ [] :=
        List.ne_nil_of_mem (List.mem_map_of_mem ((hstops.mem w).2 hw))
      obtain ⟨hcovered, hone⟩ := hsettles hsome
      exact ⟨hcovered, (hstops.length_eq_one_iff hw).1 hone⟩
    · intro hall hsome
      obtain ⟨w, hw⟩ := List.exists_mem_of_ne_nil stops fun hnil => hsome (by rw [hnil]; rfl)
      obtain ⟨hcovered, honly⟩ := hall w ((hstops.mem w).1 hw)
      exact ⟨hcovered, (hstops.length_eq_one_iff ((hstops.mem w).1 hw)).2 honly⟩

/-- Two plans for the same rooms.  The second one details both addresses and has a budget. -/
def plans : Heap where
  groups := #[
    { name := "plan", items := .ofList [("lead", ⟨0⟩), ("office", ⟨1⟩)] },
    { name := "lead", nestedIn := some ⟨0⟩, items := .ofList [("address", ⟨2⟩)] },
    { name := "office", nestedIn := some ⟨1⟩, items := .ofList [("address", ⟨3⟩)] },
    { name := "detailed plan",
      items := .ofList [("lead", ⟨4⟩), ("office", ⟨5⟩), ("budget", ⟨6⟩)] },
    { name := "lead", nestedIn := some ⟨4⟩, items := .ofList [("address", ⟨7⟩)] },
    { name := "office", nestedIn := some ⟨5⟩, items := .ofList [("address", ⟨8⟩)] },
    { name := "address", nestedIn := some ⟨7⟩, items := .ofList [("city", ⟨9⟩)] },
    { name := "address", nestedIn := some ⟨8⟩, items := .ofList [("city", ⟨10⟩)] }]
  items := #[
    { name := "lead", owner := ⟨0⟩, value := { primary := some ⟨1⟩ } },
    { name := "office", owner := ⟨0⟩, value := { primary := some ⟨2⟩ } },
    { name := "address", owner := ⟨1⟩ },
    { name := "address", owner := ⟨2⟩ },
    { name := "lead", owner := ⟨3⟩, value := { primary := some ⟨4⟩ } },
    { name := "office", owner := ⟨3⟩, value := { primary := some ⟨5⟩ } },
    { name := "budget", owner := ⟨3⟩ },
    { name := "address", owner := ⟨4⟩, value := { primary := some ⟨6⟩ } },
    { name := "address", owner := ⟨5⟩, value := { primary := some ⟨7⟩ } },
    { name := "city", owner := ⟨6⟩ },
    { name := "city", owner := ⟨7⟩ }]
  variants := #[.generic]

/-- **A short circuit does not decide the call**: behind the one in the lead comes another one in
the office, and then the budget is missing. -/
theorem short_circuit_goes_on :
    plans.coverage ⟨0⟩ (some ⟨3⟩) =
      (false, [.shortCircuit "lead.address", .shortCircuit "office.address"]) :=
  rfl

end Heap

end AttributeGraph
