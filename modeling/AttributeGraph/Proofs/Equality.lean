/-
Two groups are equal exactly if they are bisimilar.

The comparison marks each pair when it first meets it and never takes a mark
back, so a pair counts as equal everywhere as soon as it has been met anywhere.
That this is no mistake is seen at the end of the comparison and not on the way:
if no difference has been found, every pair that was marked has its demands
among the marked pairs, so the marks form a bisimulation (`simulation_of_meets`).  The
other way round, a bisimulation that holds the first pair holds every pair that
the comparison meets, so no difference is ever found (`meets_of_simulation`).

`obligations_iff` is the only place that opens what the comparison asks of a
pair: its demands can be met by a relation exactly if the two groups match
through that relation.
-/
import AttributeGraph.Heap.Equality
import AttributeGraph.Proofs.Exploration
import AttributeGraph.Proofs.Related
import AttributeGraph.Proofs.WellFormed

namespace AttributeGraph

/-! ### Matching on the surface -/

/-- Two slots match through a relation: the primary groups are related, and the groups filed under
each key are, a slot without typed groups counting as one that files none. -/
structure SlotsMatch (S : GroupId → GroupId → Prop) (s t : Slot) : Prop where
  primary : Option.Rel S s.primary t.primary
  typed : ∀ k, Option.Rel S (s.find? k) (t.find? k)

/-- Two items match if both their slots do. -/
structure ItemsMatch (S : GroupId → GroupId → Prop) (x y : Item) : Prop where
  value : SlotsMatch S x.value y.value
  key : SlotsMatch S x.key y.key

namespace SlotsMatch

variable {S T : GroupId → GroupId → Prop} {s t u : Slot}

theorem mono (hST : ∀ a b, S a b → T a b) (hm : SlotsMatch S s t) :
    SlotsMatch T s t :=
  ⟨rel_mono hST hm.primary, fun k => rel_mono hST (hm.typed k)⟩

theorem swap (hm : SlotsMatch S s t) : SlotsMatch (fun b a => S a b) t s :=
  ⟨rel_swap hm.primary, fun k => rel_swap (hm.typed k)⟩

theorem comp (hst : SlotsMatch S s t) (htu : SlotsMatch T t u) :
    SlotsMatch (fun a c => ∃ b, S a b ∧ T b c) s u :=
  ⟨rel_comp hst.primary htu.primary, fun k => rel_comp (hst.typed k) (htu.typed k)⟩

/-- Slots that match have related groups in every place. -/
theorem get? (hm : SlotsMatch S s t) (k : Option TypeTag) : Option.Rel S (s.get? k) (t.get? k) := by
  cases k with
  | none => exact hm.primary
  | some k => exact hm.typed k

end SlotsMatch

namespace Heap

variable {h : Heap} {R S T : GroupId → GroupId → Prop} {a b c : GroupId}

/-- Two groups match: they declare the same names, with matching items, and their super groups are
related. -/
structure GroupsMatch (h : Heap) (S : GroupId → GroupId → Prop) (a b : GroupId) : Prop where
  items : ∀ n, Option.Rel (fun i j => ItemsMatch S (h.item i) (h.item j))
    ((h.group a).items.find? n) ((h.group b).items.find? n)
  above : Option.Rel S (h.group a).above (h.group b).above

/-- Related groups are identical, or match through identity and the relation itself. -/
def Bisimulation (h : Heap) (R : GroupId → GroupId → Prop) : Prop :=
  ∀ a b, R a b → a = b ∨ h.GroupsMatch (Relation.ReflGen R) a b

theorem GroupsMatch.mono (hST : ∀ a b, S a b → T a b) (hm : h.GroupsMatch S a b) :
    h.GroupsMatch T a b where
  items n := rel_mono (fun _ _ hij => ⟨hij.value.mono hST, hij.key.mono hST⟩) (hm.items n)
  above := rel_mono hST hm.above

theorem GroupsMatch.swap (hm : h.GroupsMatch S a b) : h.GroupsMatch (fun b a => S a b) b a where
  items n := rel_mono (fun _ _ hij => ⟨hij.value.swap, hij.key.swap⟩) (rel_swap (hm.items n))
  above := rel_swap hm.above

theorem GroupsMatch.comp (hab : h.GroupsMatch S a b) (hbc : h.GroupsMatch T b c) :
    h.GroupsMatch (fun a c => ∃ b, S a b ∧ T b c) a c where
  items n := rel_mono (fun _ _ ⟨_, hij, hjk⟩ => ⟨hij.value.comp hjk.value, hij.key.comp hjk.key⟩)
    (rel_comp (hab.items n) (hbc.items n))
  above := rel_comp hab.above hbc.above

/-! ### What the comparison asks of a pair -/

/-- A demand that a relation meets. -/
def MetBy (S : GroupId → GroupId → Prop) (d : Demand) : Prop := Option.Rel S d.1 d.2

/-- Demands are raised and a relation meets all of them. -/
def CanMeet (S : GroupId → GroupId → Prop) (demands : Option (List Demand)) : Prop :=
  ∃ ds, demands = some ds ∧ ∀ d ∈ ds, MetBy S d

theorem not_canMeet_none : ¬ CanMeet S none := by
  intro hds
  obtain ⟨ds, hds, -⟩ := hds
  cases hds

theorem typedDemands_iff {m n : OrderedMap TypeTag GroupId} :
    CanMeet S (typedDemands m n) ↔ ∀ k, Option.Rel S (m.find? k) (n.find? k) := by
  rw [rel_find?_iff]
  by_cases hsize : m.size = n.size
  · have hentry : ∀ e : TypeTag × GroupId, (∃ d : Demand,
        ((n.find? e.1).map fun g => (some e.2, some g)) = some d ∧ MetBy S d) ↔
        ∃ y, n.find? e.1 = some y ∧ S e.2 y := by
      intro e
      simp only [Option.map_eq_some_iff]
      constructor
      · intro hd
        obtain ⟨d, ⟨y, hy, rfl⟩, hd⟩ := hd
        exact ⟨y, hy, rel_some_iff.1 hd⟩
      · intro hxy
        obtain ⟨y, hy, hxy⟩ := hxy
        exact ⟨_, ⟨y, hy, rfl⟩, .some hxy⟩
    rw [typedDemands, if_neg (not_not.2 hsize), CanMeet, exists_mapM_iff]
    simp only [hentry, hsize, true_and]
  · rw [typedDemands, if_pos hsize]
    exact iff_of_false not_canMeet_none fun hm => hsize hm.1

theorem slotDemands_iff {s t : Slot} :
    CanMeet S (slotDemands s t) ↔ ∀ k, Option.Rel S (s.find? k) (t.find? k) := by
  rw [slotDemands, typedDemands_iff]
  simp only [Slot.find?_getD]

theorem itemDemands_iff {x y : Item} :
    CanMeet S (itemDemands x y) ↔ x.name = y.name ∧ ItemsMatch S x y := by
  by_cases hname : x.name = y.name
  · rw [itemDemands, if_neg (not_not.2 hname)]
    constructor
    · intro hmet
      obtain ⟨ds, hds, hmet⟩ := hmet
      obtain ⟨values, hvalues, hds⟩ := Option.bind_eq_some_iff.1 hds
      obtain ⟨keys, hkeys, hds⟩ := Option.bind_eq_some_iff.1 hds
      obtain rfl := Option.some.inj hds
      simp only [List.cons_append, List.forall_mem_cons, List.forall_mem_append] at hmet
      obtain ⟨hvalue, hkey, htypedValues, htypedKeys⟩ := hmet
      exact ⟨hname, ⟨hvalue, slotDemands_iff.1 ⟨values, hvalues, htypedValues⟩⟩,
        ⟨hkey, slotDemands_iff.1 ⟨keys, hkeys, htypedKeys⟩⟩⟩
    · intro hvalue
      obtain ⟨-, hvalue, hkey⟩ := hvalue
      obtain ⟨values, hvalues, htypedValues⟩ := slotDemands_iff.2 hvalue.typed
      obtain ⟨keys, hkeys, htypedKeys⟩ := slotDemands_iff.2 hkey.typed
      refine ⟨_, by rw [hvalues, hkeys]; rfl, ?_⟩
      simp only [List.cons_append, List.forall_mem_cons, List.forall_mem_append]
      exact ⟨hvalue.primary, hkey.primary, htypedValues, htypedKeys⟩
  · rw [itemDemands, if_pos hname]
    exact iff_of_false not_canMeet_none fun hm => hname hm.1

/-- The items that two groups file under one name have the same name. -/
def SameNames (h : Heap) (a b : GroupId) : Prop :=
  ∀ n i j, (h.group a).items.find? n = some i → (h.group b).items.find? n = some j →
    (h.item i).name = (h.item j).name

theorem ItemsNamed.sameNames (hnamed : h.ItemsNamed) (a b : GroupId) : h.SameNames a b :=
  fun n i j hi hj => (hnamed a n i hi).trans (hnamed b n j hj).symm

/-- Two groups match, and file items of the same names, if the items under each name do. -/
theorem groupsMatch_sameNames_iff :
    h.GroupsMatch S a b ∧ h.SameNames a b ↔
      (∀ n, Option.Rel (fun i j => (h.item i).name = (h.item j).name ∧
          ItemsMatch S (h.item i) (h.item j))
        ((h.group a).items.find? n) ((h.group b).items.find? n)) ∧
      Option.Rel S (h.group a).above (h.group b).above := by
  constructor
  · intro hm
    obtain ⟨hm, hnames⟩ := hm
    refine ⟨fun n => ?_, hm.above⟩
    have hn := hm.items n
    cases hi : (h.group a).items.find? n <;> cases hj : (h.group b).items.find? n <;>
      rw [hi, hj] at hn
    · exact .none
    · cases hn
    · cases hn
    · rw [rel_some_iff] at hn ⊢
      exact ⟨hnames n _ _ hi hj, hn⟩
  · intro hm
    obtain ⟨hm, habove⟩ := hm
    refine ⟨⟨fun n => rel_mono (fun _ _ hij => hij.2) (hm n), habove⟩, fun n i j hi hj => ?_⟩
    have hn := hm n
    rw [hi, hj, rel_some_iff] at hn
    exact hn.1

/-- What an item asks of the item that the other group files under its name. -/
theorem entryDemands_iff (e : String × ItemId) :
    CanMeet S (((h.group b).items.find? e.1).bind fun j => itemDemands (h.item e.2) (h.item j)) ↔
      ∃ j, (h.group b).items.find? e.1 = some j ∧ (h.item e.2).name = (h.item j).name ∧
        ItemsMatch S (h.item e.2) (h.item j) := by
  simp only [← itemDemands_iff, CanMeet, Option.bind_eq_some_iff]
  constructor
  · intro hmet
    obtain ⟨ds, ⟨j, hj, hds⟩, hmet⟩ := hmet
    exact ⟨j, hj, ds, hds, hmet⟩
  · intro hmet
    obtain ⟨j, hj, ds, hds, hmet⟩ := hmet
    exact ⟨ds, ⟨j, hj, hds⟩, hmet⟩

/-- **The demands of a pair can be met exactly if the two groups match.** -/
theorem obligations_iff :
    CanMeet S (h.obligations a b) ↔ h.GroupsMatch S a b ∧ h.SameNames a b := by
  rw [groupsMatch_sameNames_iff, rel_find?_iff]
  by_cases hsize : (h.group a).items.size = (h.group b).items.size
  · simp only [← entryDemands_iff, CanMeet, ← exists_mapM_iff, hsize, true_and]
    rw [obligations, if_neg (not_not.2 hsize)]
    constructor
    · intro hmet
      obtain ⟨ds, hds, hmet⟩ := hmet
      obtain ⟨parts, hparts, hds⟩ := Option.bind_eq_some_iff.1 hds
      obtain rfl := Option.some.inj hds
      simp only [List.forall_mem_append, List.forall_mem_singleton, List.mem_flatten] at hmet
      exact ⟨⟨parts, hparts, fun part hpart d hd => hmet.1 d ⟨part, hpart, hd⟩⟩, hmet.2⟩
    · intro hmet
      obtain ⟨⟨parts, hparts, hmet⟩, habove⟩ := hmet
      refine ⟨_, by rw [hparts]; rfl, ?_⟩
      simp only [List.forall_mem_append, List.forall_mem_singleton, List.mem_flatten]
      exact ⟨fun d ⟨part, hpart, hd⟩ => hmet part hpart d hd, habove⟩
  · rw [obligations, if_pos hsize]
    exact iff_of_false not_canMeet_none fun hm => hsize hm.1.1

/-! ### One step of the comparison -/

/-- A pair that has been met, or a group and itself. -/
def Marked (c : Comparison) : GroupId → GroupId → Prop :=
  Relation.ReflGen fun a b => (a, b) ∈ c.seen

/-- What one step of the comparison can do. -/
inductive CompareMove (h : Heap) (c : Comparison) : Demand → Comparison → List Demand → Prop
  | skip {d : Demand} (hd : c.differ = true ∨ MetBy (Marked c) d) : CompareMove h c d c []
  | unfold {a b : GroupId} {ds : List Demand} (hne : a ≠ b) (hseen : (a, b) ∉ c.seen)
      (hds : h.obligations a b = some ds) :
      CompareMove h c (some a, some b) { c with seen := (a, b) :: c.seen } ds
  | clash {a b : GroupId} (hne : a ≠ b) (hds : h.obligations a b = none) :
      CompareMove h c (some a, some b) { c with differ := true } []
  | oneSided {d : Demand} (hd : ¬ MetBy (fun _ _ => True) d) :
      CompareMove h c d { c with differ := true } []

theorem compareStep_move (h : Heap) (c : Comparison) (d : Demand) :
    CompareMove h c d (h.compareStep c d).1 (h.compareStep c d).2 := by
  match d with
  | (none, none) => exact .skip (.inr .none)
  | (none, some b) => exact .oneSided fun hd => by cases hd
  | (some a, none) => exact .oneSided fun hd => by cases hd
  | (some a, some b) =>
    by_cases hskip : c.differ ∨ a = b ∨ (a, b) ∈ c.seen
    · have hmove : CompareMove h c (some a, some b) c [] := by
        refine .skip (hskip.imp id fun hab => .some ?_)
        obtain rfl | hab := hab
        · exact .refl
        · exact .single hab
      simpa only [compareStep, if_pos hskip] using hmove
    · have hne : a ≠ b := fun hab => hskip (.inr (.inl hab))
      have hseen : (a, b) ∉ c.seen := fun hab => hskip (.inr (.inr hab))
      cases hds : h.obligations a b with
      | none => simpa only [compareStep, if_neg hskip, hds] using CompareMove.clash hne hds
      | some ds => simpa only [compareStep, if_neg hskip, hds] using .unfold hne hseen hds

/-! ### Marks without a difference are a bisimulation -/

/-- The demand is on the stack or among the marks. -/
def Pending (c : Comparison) (todo : List Demand) (d : Demand) : Prop :=
  d ∈ todo ∨ MetBy (Marked c) d

/-- As long as no difference is found, the demands of every marked pair are pending, and so are
those that the comparison started with. -/
structure Closing (h : Heap) (start : List Demand) (c : Comparison) (todo : List Demand) :
    Prop where
  seen : c.differ = false → ∀ p ∈ c.seen, ∃ ds, h.obligations p.1 p.2 = some ds ∧
    ∀ d ∈ ds, Pending c todo d
  start : c.differ = false → ∀ d ∈ start, Pending c todo d

theorem pending_move {c c' : Comparison} {d e : Demand} {rest new : List Demand}
    (hm : CompareMove h c d c' new) (hc : c'.differ = false) (he : Pending c (d :: rest) e) :
    Pending c' (new ++ rest) e := by
  have hmarks : MetBy (Marked c) e → MetBy (Marked c') e := by
    intro hmet
    refine rel_mono (fun a b hab => ?_) hmet
    cases hab with
    | refl => exact .refl
    | single hab =>
      refine .single ?_
      cases hm with
      | unfold => exact List.mem_cons_of_mem _ hab
      | _ => exact hab
  rcases he with he | he
  · rcases List.mem_cons.1 he with rfl | he
    · cases hm with
      | skip hd => exact .inr (hd.resolve_left (by simp [hc]))
      | unfold => exact .inr (.some (.single List.mem_cons_self))
      | clash => cases hc
      | oneSided => cases hc
    · exact .inl (List.mem_append_right _ he)
  · exact .inr (hmarks he)

theorem closing_preserved (h : Heap) (start : List Demand) :
    Preserved h.compareStep (h.Closing start) := by
  intro c d rest hc
  have hm := compareStep_move h c d
  generalize (h.compareStep c d).1 = c' at hm ⊢
  generalize (h.compareStep c d).2 = new at hm ⊢
  have hdiffer : c'.differ = false → c.differ = false := by
    intro hc'
    cases hm with
    | clash => cases hc'
    | oneSided => cases hc'
    | _ => exact hc'
  refine ⟨fun hc' p hp => ?_, fun hc' e he =>
    pending_move hm hc' (hc.start (hdiffer hc') e he)⟩
  have hold : p ∈ c.seen → ∃ ds, h.obligations p.1 p.2 = some ds ∧
      ∀ d ∈ ds, Pending c' (new ++ rest) d := by
    intro hp
    obtain ⟨ds, hds, hpending⟩ := hc.seen (hdiffer hc') p hp
    exact ⟨ds, hds, fun e he => pending_move hm hc' (hpending e he)⟩
  cases hm with
  | unfold hne hseen hds =>
    rcases List.mem_cons.1 hp with rfl | hp
    · exact ⟨_, hds, fun e he => .inl (List.mem_append_left _ he)⟩
    · exact hold hp
  | _ => exact hold hp

/-- Every pair of a relation has demands, and identity and the relation itself meet them. -/
def Simulation (h : Heap) (R : GroupId → GroupId → Prop) : Prop :=
  ∀ a b, R a b → CanMeet (Relation.ReflGen R) (h.obligations a b)

/-- **Demands that are met are met by a simulation.** -/
theorem simulation_of_meets {start : List Demand} (hmeets : h.meets start = true) :
    ∃ R, h.Simulation R ∧ ∀ d ∈ start, MetBy (Relation.ReflGen R) d := by
  unfold meets at hmeets
  split at hmeets
  · rename_i c hc
    have hdiffer : c.differ = false := by simpa using hmeets
    have hclosing : h.Closing start c [] :=
      (closing_preserved h start).explore _ _ _
        ⟨by simp, fun _ d hd => .inl hd⟩ hc
    refine ⟨fun a b => (a, b) ∈ c.seen, fun a b hab => ?_, fun d hd => ?_⟩
    · obtain ⟨ds, hds, hpending⟩ := hclosing.seen hdiffer (a, b) hab
      exact ⟨ds, hds, fun d hd => (hpending d hd).resolve_left List.not_mem_nil⟩
    · exact (hclosing.start hdiffer d hd).resolve_left List.not_mem_nil
  · cases hmeets

/-! ### A bisimulation leaves no difference to be found -/

/-- No difference is found, and a relation meets every demand on the stack. -/
structure Agreeing (R : GroupId → GroupId → Prop) (c : Comparison) (todo : List Demand) : Prop where
  differ : c.differ = false
  todo : ∀ d ∈ todo, MetBy (Relation.ReflGen R) d

theorem related_of_met (hd : MetBy (Relation.ReflGen R) (some a, some b)) (hne : a ≠ b) :
    R a b := by
  cases hd with
  | some hab =>
    cases hab with
    | refl => exact absurd rfl hne
    | single hab => exact hab

theorem agreeing_preserved (hR : h.Simulation R) : Preserved h.compareStep (Agreeing R) := by
  intro c d rest hc
  have hm := compareStep_move h c d
  generalize (h.compareStep c d).1 = c' at hm ⊢
  generalize (h.compareStep c d).2 = new at hm ⊢
  have hd : MetBy (Relation.ReflGen R) d := hc.todo d List.mem_cons_self
  have hrest : ∀ e ∈ rest, MetBy (Relation.ReflGen R) e :=
    fun e he => hc.todo e (List.mem_cons_of_mem _ he)
  cases hm with
  | skip => exact ⟨hc.differ, hrest⟩
  | @unfold a b _ hne hseen hds =>
    have hab : R a b := related_of_met hd hne
    obtain ⟨ds, hds', hmet⟩ := hR a b hab
    obtain rfl := Option.some.inj (hds.symm.trans hds')
    exact ⟨hc.differ, List.forall_mem_append.2 ⟨hmet, hrest⟩⟩
  | @clash a b hne hds =>
    have hab : R a b := related_of_met hd hne
    obtain ⟨ds, hds', -⟩ := hR a b hab
    rw [hds] at hds'
    cases hds'
  | oneSided hd' => exact absurd (rel_mono (fun _ _ _ => trivial) hd) hd'

/-! ### The comparison ends -/

/-- All pairs of groups of the heap. -/
def pairIds (h : Heap) : List (GroupId × GroupId) :=
  h.groupIds.flatMap fun b => h.groupIds.map fun a => (a, b)

theorem mem_pairIds : (a, b) ∈ h.pairIds ↔ h.HasGroup a ∧ h.HasGroup b := by
  simp [pairIds, mem_groupIds, and_comm]

/-- What the pairs that have not been met may still demand. -/
def comparisonStore (h : Heap) (c : Comparison) : Nat :=
  unvisited (fun p => h.demandCount p.1) h.pairIds c.seen

theorem totalCost_pairs {α : Type} (cost : α → Nat) (as bs : List α) :
    totalCost (fun p : α × α => cost p.1) (bs.flatMap fun b => as.map fun a => (a, b)) =
      bs.length * totalCost cost as := by
  induction bs with
  | nil => simp
  | cons b bs ih =>
    have hmap : totalCost (fun p : α × α => cost p.1) (as.map fun a => (a, b)) =
        totalCost cost as := totalCost_map _ _ as
    rw [List.flatMap_cons, totalCost_append, ih, hmap, List.length_cons, Nat.succ_mul, Nat.add_comm]

theorem comparisonStore_start (h : Heap) : h.comparisonStore {} = h.comparisonBound := by
  rw [comparisonStore, unvisited_nil, pairIds, totalCost_pairs]
  simp [comparisonBound, groupIds]

theorem length_of_mapM {α β : Type} {f : α → Option β} : ∀ {l : List α} {bs : List β},
    l.mapM f = some bs → bs.length = l.length := by
  intro l
  induction l with
  | nil => intro bs hbs; cases hbs; rfl
  | cons a l ih =>
    intro bs hbs
    rw [List.mapM_cons] at hbs
    obtain ⟨b, -, hbs⟩ := Option.bind_eq_some_iff.1 hbs
    obtain ⟨rest, hrest, hbs⟩ := Option.bind_eq_some_iff.1 hbs
    obtain rfl := Option.some.inj hbs
    simp [ih hrest]

theorem length_slotDemands {s t : Slot} {ds : List Demand} (hds : slotDemands s t = some ds) :
    ds.length = s.typed.length := by
  unfold slotDemands typedDemands at hds
  split at hds
  · cases hds
  · rw [length_of_mapM hds]
    cases hs : s.byType <;> simp [Slot.typed, hs, OrderedMap.values, OrderedMap.empty]

theorem length_itemDemands {x y : Item} {ds : List Demand} (hds : itemDemands x y = some ds) :
    ds.length = 2 + x.value.typed.length + x.key.typed.length := by
  unfold itemDemands at hds
  split at hds
  · cases hds
  · obtain ⟨values, hvalues, hds⟩ := Option.bind_eq_some_iff.1 hds
    obtain ⟨keys, hkeys, hds⟩ := Option.bind_eq_some_iff.1 hds
    obtain rfl := Option.some.inj hds
    simp only [List.length_append, List.length_cons, length_slotDemands hvalues,
      length_slotDemands hkeys]
    omega

/-- A pair raises as many demands as are counted for its first group. -/
theorem length_obligations {ds : List Demand} (hds : h.obligations a b = some ds) :
    ds.length = h.demandCount a := by
  have hitems : ∀ (l : List (String × ItemId)) (parts : List (List Demand)),
      l.mapM (fun e => ((h.group b).items.find? e.1).bind fun j =>
        itemDemands (h.item e.2) (h.item j)) = some parts →
      parts.flatten.length = totalCost
        (fun i => 2 + (h.item i).value.typed.length + (h.item i).key.typed.length)
        (l.map Prod.snd) := by
    intro l
    induction l with
    | nil => intro parts hparts; cases hparts; rfl
    | cons e l ih =>
      intro parts hparts
      rw [List.mapM_cons] at hparts
      obtain ⟨part, hpart, hparts⟩ := Option.bind_eq_some_iff.1 hparts
      obtain ⟨rest, hrest, hparts⟩ := Option.bind_eq_some_iff.1 hparts
      obtain rfl := Option.some.inj hparts
      obtain ⟨j, -, hpart⟩ := Option.bind_eq_some_iff.1 hpart
      rw [List.flatten_cons, List.length_append, length_itemDemands hpart, ih rest hrest,
        List.map_cons, totalCost_cons]
  by_cases hsize : (h.group a).items.size = (h.group b).items.size
  · rw [obligations, if_neg (not_not.2 hsize)] at hds
    obtain ⟨parts, hparts, hds⟩ := Option.bind_eq_some_iff.1 hds
    obtain rfl := Option.some.inj hds
    simp [demandCount, Group.itemIds, OrderedMap.values, ← hitems _ _ hparts]
  · rw [obligations, if_pos hsize] at hds
    cases hds

/-- Steps between groups of the heap spend more than they put back. -/
theorem compareStep_cost (hR : h.Simulation R) (hin : ∀ a b, R a b → h.HasGroup a ∧ h.HasGroup b)
    {c : Comparison} {d : Demand} {rest : List Demand} (hc : Agreeing R c (d :: rest)) :
    h.comparisonStore (h.compareStep c d).1 + totalCost (fun _ => 1) (h.compareStep c d).2 <
      h.comparisonStore c + 1 := by
  have hm := compareStep_move h c d
  have hd : MetBy (Relation.ReflGen R) d := hc.todo d List.mem_cons_self
  have hafter := agreeing_preserved hR c d rest hc
  generalize (h.compareStep c d).1 = c' at hm hafter ⊢
  generalize (h.compareStep c d).2 = new at hm hafter ⊢
  cases hm with
  | skip => simp
  | @unfold a b _ hne hseen hds =>
    have hab : R a b := related_of_met hd hne
    have hlt := unvisited_cons_lt (fun p => h.demandCount p.1) (mem_pairIds.2 (hin a b hab)) hseen
    have hlen := length_obligations hds
    simp only at hlt
    simp only [comparisonStore, totalCost_one]
    omega
  | clash => cases hafter.differ
  | oneSided => cases hafter.differ

/-- **What a simulation between groups of the heap meets is met.** -/
theorem meets_of_simulation (hR : h.Simulation R)
    (hin : ∀ a b, R a b → h.HasGroup a ∧ h.HasGroup b) {start : List Demand}
    (hstart : ∀ d ∈ start, MetBy (Relation.ReflGen R) d) : h.meets start = true := by
  have hagree : Agreeing R {} start := ⟨rfl, hstart⟩
  have hends :
      (explore h.compareStep (h.comparisonBound + start.length) {} start).isSome = true := by
    refine (agreeing_preserved hR).explore_isSome
      (fun _ _ _ hc => compareStep_cost hR hin hc) _ _ _ hagree ?_
    exact Nat.le_of_eq (by rw [comparisonStore_start, totalCost_one])
  obtain ⟨c, hc⟩ := Option.isSome_iff_exists.1 hends
  have hdiffer : c.differ = false := ((agreeing_preserved hR).explore _ _ _ hagree hc).differ
  simp [meets, hc, hdiffer]

/-! ### Equality is the largest bisimulation -/

/-- In a closed heap groups match through groups of the heap. -/
theorem GroupsMatch.inHeap (hclosed : h.Closed) (ha : h.HasGroup a) (hb : h.HasGroup b)
    (hm : h.GroupsMatch S a b) :
    h.GroupsMatch (fun x y => S x y ∧ h.HasGroup x ∧ h.HasGroup y) a b := by
  have hslot : ∀ (side : Side) (i j : ItemId), i ∈ (h.group a).itemIds → j ∈ (h.group b).itemIds →
      SlotsMatch S ((h.item i).slot side) ((h.item j).slot side) →
      SlotsMatch (fun x y => S x y ∧ h.HasGroup x ∧ h.HasGroup y) ((h.item i).slot side)
        ((h.item j).slot side) := by
    intro side i j hi hj hij
    have hx : ∀ x ∈ ((h.item i).slot side).groups, h.HasGroup x :=
      fun x hx => hclosed.hasGroup_nested ⟨side, hi, hx⟩
    have hy : ∀ y ∈ ((h.item j).slot side).groups, h.HasGroup y :=
      fun y hy => hclosed.hasGroup_nested ⟨side, hj, hy⟩
    refine ⟨rel_and hij.primary ?_ ?_, fun k => rel_and (hij.typed k) ?_ ?_⟩
    · exact fun x hp => hx x (Slot.mem_groups.2 (.inl hp))
    · exact fun y hp => hy y (Slot.mem_groups.2 (.inl hp))
    · exact fun x hp => hx x (Slot.mem_groups_of_find? hp)
    · exact fun y hp => hy y (Slot.mem_groups_of_find? hp)
  refine ⟨fun n => ?_, rel_and hm.above (fun _ => hclosed.hasGroup_above ha)
    fun _ => hclosed.hasGroup_above hb⟩
  refine rel_mono (fun i j hij => ?_) (rel_and (hm.items n)
    (fun i hi => mem_itemIds_of_find? hi) fun j hj => mem_itemIds_of_find? hj)
  obtain ⟨hij, hi, hj⟩ := hij
  exact ⟨hslot .value i j hi hj hij.value, hslot .key i j hi hj hij.key⟩

/-- The pairs of a bisimulation that are groups of a closed heap have demands that they meet. -/
theorem Bisimulation.simulation (hclosed : h.Closed) (hnamed : h.ItemsNamed)
    (hR : h.Bisimulation R) :
    h.Simulation fun a b => (R a b ∧ a ≠ b) ∧ h.HasGroup a ∧ h.HasGroup b := by
  intro a b hab
  obtain ⟨⟨hab, hne⟩, ha, hb⟩ := hab
  have hm := ((hR a b hab).resolve_left hne).inHeap hclosed ha hb
  refine obligations_iff.2 ⟨hm.mono fun x y hxy => ?_, hnamed.sameNames a b⟩
  by_cases heq : x = y
  · exact heq ▸ .refl
  · cases hxy.1 with
    | refl => exact absurd rfl heq
    | single hR => exact .single ⟨⟨hR, heq⟩, hxy.2⟩

theorem groupsAgree_of_bisimulation (hclosed : h.Closed) (hnamed : h.ItemsNamed)
    (hR : h.Bisimulation R) (ha : h.HasGroup a) (hb : h.HasGroup b) (hab : R a b) :
    h.groupsAgree (some a) (some b) = true := by
  refine meets_of_simulation (hR.simulation hclosed hnamed) (fun _ _ hxy => hxy.2) ?_
  intro d hd
  obtain rfl := List.mem_singleton.1 hd
  by_cases heq : a = b
  · exact .some (heq ▸ .refl)
  · exact .some (.single ⟨⟨hab, heq⟩, ha, hb⟩)

theorem bisimulation_of_groupsAgree (hagree : h.groupsAgree (some a) (some b) = true) :
    ∃ R, h.Bisimulation R ∧ R a b := by
  obtain ⟨R, hR, hmet⟩ := simulation_of_meets hagree
  refine ⟨Relation.ReflGen R, fun x y hxy => ?_, rel_some_iff.1 (hmet _ List.mem_cons_self)⟩
  cases hxy with
  | refl => exact .inl rfl
  | single hxy => exact .inr ((obligations_iff.1 (hR x y hxy)).1.mono fun _ _ => .single)

theorem Bisimulation.swap (hR : h.Bisimulation R) : h.Bisimulation fun a b => R b a := by
  intro a b hab
  rcases hR b a hab with rfl | hm
  · exact .inl rfl
  · refine .inr (hm.swap.mono fun x y hxy => ?_)
    cases hxy with
    | refl => exact .refl
    | single hxy => exact .single hxy

theorem Bisimulation.comp (hR : h.Bisimulation R) (hS : h.Bisimulation S) :
    h.Bisimulation fun a c => ∃ b, Relation.ReflGen R a b ∧ Relation.ReflGen S b c := by
  have hmatch : ∀ {T : GroupId → GroupId → Prop}, h.Bisimulation T → ∀ {x y : GroupId},
      Relation.ReflGen T x y → x = y ∨ h.GroupsMatch (Relation.ReflGen T) x y := by
    intro T hT x y hxy
    cases hxy with
    | refl => exact .inl rfl
    | single hxy => exact hT x y hxy
  intro a c hbc
  obtain ⟨b, hab, hbc⟩ := hbc
  rcases hmatch hR hab with rfl | hab
  · rcases hmatch hS hbc with rfl | hbc
    · exact .inl rfl
    · exact .inr (hbc.mono fun _ _ hxy => .single ⟨_, .refl, hxy⟩)
  · rcases hmatch hS hbc with rfl | hbc
    · exact .inr (hab.mono fun _ _ hxy => .single ⟨_, hxy, .refl⟩)
    · exact .inr ((hab.comp hbc).mono fun _ _ hxy => .single hxy)

/-- **Two groups are equal exactly if a bisimulation holds them**, so being equal is reflexive,
symmetric and transitive. -/
theorem groupsAgree_iff_bisimulation (h : Heap) (hclosed : h.Closed) (hnamed : h.ItemsNamed) :
    (∀ a b, h.HasGroup a → h.HasGroup b →
      (h.groupsAgree (some a) (some b) = true ↔ ∃ R, h.Bisimulation R ∧ R a b)) ∧
    (∀ a, h.HasGroup a → h.groupsAgree (some a) (some a) = true) ∧
    (∀ a b, h.HasGroup a → h.HasGroup b → h.groupsAgree (some a) (some b) = true →
      h.groupsAgree (some b) (some a) = true) ∧
    (∀ a b c, h.HasGroup a → h.HasGroup b → h.HasGroup c →
      h.groupsAgree (some a) (some b) = true → h.groupsAgree (some b) (some c) = true →
      h.groupsAgree (some a) (some c) = true) := by
  refine ⟨fun a b ha hb => ?_, fun a ha => ?_, fun a b ha hb hab => ?_,
    fun a b c ha _ hc hab hbc => ?_⟩
  · refine ⟨bisimulation_of_groupsAgree, ?_⟩
    intro hab
    obtain ⟨R, hR, hab⟩ := hab
    exact groupsAgree_of_bisimulation hclosed hnamed hR ha hb hab
  · exact groupsAgree_of_bisimulation (R := Eq) hclosed hnamed (fun _ _ => .inl) ha ha rfl
  · obtain ⟨R, hR, hab⟩ := bisimulation_of_groupsAgree hab
    exact groupsAgree_of_bisimulation hclosed hnamed hR.swap hb ha hab
  · obtain ⟨R, hR, hab⟩ := bisimulation_of_groupsAgree hab
    obtain ⟨S, hS, hbc⟩ := bisimulation_of_groupsAgree hbc
    exact groupsAgree_of_bisimulation hclosed hnamed (hR.comp hS) ha hc
      ⟨b, .single hab, .single hbc⟩

/-- Three groups with an attribute of one name: the first is nested in itself, the other two in one
another. -/
def rings : Heap where
  groups := #[
    { name := "ring", nestedIn := some ⟨0⟩, items := .ofList [("next", ⟨0⟩)] },
    { name := "left", nestedIn := some ⟨2⟩, items := .ofList [("next", ⟨1⟩)] },
    { name := "right", nestedIn := some ⟨1⟩, items := .ofList [("next", ⟨2⟩)] }]
  items := #[
    { name := "next", owner := ⟨0⟩, value := { primary := some ⟨0⟩ } },
    { name := "next", owner := ⟨1⟩, value := { primary := some ⟨2⟩ } },
    { name := "next", owner := ⟨2⟩, value := { primary := some ⟨1⟩ } }]
  variants := #[.generic]

theorem groupsAgree_iff_bisimulation_rings :
    rings.Closed ∧ rings.ItemsNamed ∧
      (rings.groupsAgree (some ⟨0⟩) (some ⟨1⟩) = true ↔ ∃ R, rings.Bisimulation R ∧ R ⟨0⟩ ⟨1⟩) := by
  have hclosed : rings.Closed := by decide
  have hnamed : rings.ItemsNamed := by decide
  exact ⟨hclosed, hnamed,
    (groupsAgree_iff_bisimulation rings hclosed hnamed).1 ⟨0⟩ ⟨1⟩ (by decide) (by decide)⟩

end Heap

end AttributeGraph
