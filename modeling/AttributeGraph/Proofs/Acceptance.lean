/-
What becomes of an input that is to be restored.

An input is refused if it says nothing, if it says something else than a group, or
if the root names a super type, as only nested groups can (`Unusable`).  Nothing
else goes wrong.  The names that attributes can have are paths of one segment, so
each leads to an item of the group itself (`reachItem_of_isSegment`).

What can be missing is a super type, and `Misses` says where it is.  The orphans
inside a description stand for these places, one for each (`Description.lists_missing`,
by induction on the description), and so do the diagnostics (`restore_ends`).
-/
import AttributeGraph.Proofs.DottedText
import AttributeGraph.Proofs.Grammar
import AttributeGraph.Proofs.MissingSupers

namespace AttributeGraph

/-! ### Lists of all that is related -/

section Lists

variable {α α' β γ : Type}

/-- All that is related to something is listed once, next to what it is related to. -/
def Lists (R : α → β → Prop) (bs : List β) : Prop :=
  ∃ as : List α, as.Nodup ∧ (∀ a b, R a b → a ∈ as) ∧ List.Forall₂ R as bs

namespace Lists

variable {R S : α → β → Prop} {bs cs : List β}

theorem nil (hR : ∀ a b, ¬ R a b) : Lists R [] :=
  ⟨[], List.nodup_nil, fun a b hab => absurd hab (hR a b), .nil⟩

theorem congr (hbs : Lists R bs) (hRS : ∀ a b, R a b ↔ S a b) : Lists S bs := by
  obtain rfl : R = S := funext fun a => funext fun b => propext (hRS a b)
  exact hbs

theorem append (hbs : Lists R bs) (hcs : Lists S cs) (hRS : ∀ a b c, R a b → ¬ S a c) :
    Lists (fun a b => R a b ∨ S a b) (bs ++ cs) := by
  obtain ⟨as, hnodup, hall, hlist⟩ := hbs
  obtain ⟨as', hnodup', hall', hlist'⟩ := hcs
  refine ⟨as ++ as', List.nodup_append'.2 ⟨hnodup, hnodup', fun a ha ha' => ?_⟩, ?_, ?_⟩
  · obtain ⟨b, -, hab⟩ := exists_right_of_mem hlist ha
    obtain ⟨c, -, hac⟩ := exists_right_of_mem hlist' ha'
    exact hRS a b c hab hac
  · intro a b hab
    exact List.mem_append.2 (hab.imp (hall a b) (hall' a b))
  · exact List.rel_append (hlist.imp fun _ _ => .inl) (hlist'.imp fun _ _ => .inr)

/-- What the members of a list list is listed together, unless two of them list the same. -/
theorem flatMap {f : γ → List β} {R : γ → α → β → Prop} {l : List γ}
    (hall : ∀ c ∈ l, Lists (R c) (f c))
    (hapart : l.Pairwise fun c c' => ∀ a b b', R c a b → ¬ R c' a b') :
    Lists (fun a b => ∃ c ∈ l, R c a b) (l.flatMap f) := by
  induction l with
  | nil => exact .nil fun a b hab => by simp at hab
  | cons c l ih =>
    rw [List.forall_mem_cons] at hall
    rw [List.pairwise_cons] at hapart
    rw [List.flatMap_cons]
    refine (append hall.1 (ih hall.2 hapart.2) ?_).congr fun a b => ?_
    · intro a b b' hab hab'
      obtain ⟨c', hc', hab'⟩ := hab'
      exact hapart.1 c' hc' a b b' hab hab'
    · simp only [List.mem_cons, exists_eq_or_imp]

theorem map_left {f : α → α'} (hf : Function.Injective f) (hbs : Lists R bs) :
    Lists (fun a' b => ∃ a, f a = a' ∧ R a b) bs := by
  obtain ⟨as, hnodup, hall, hlist⟩ := hbs
  refine ⟨as.map f, hnodup.map hf, ?_, ?_⟩
  · intro a' b hab
    obtain ⟨a, rfl, hab⟩ := hab
    exact List.mem_map_of_mem (hall a b hab)
  · rw [List.forall₂_map_left_iff]
    exact hlist.imp fun a b hab => ⟨a, rfl, hab⟩

/-- One thing is related to what an option holds. -/
theorem toList (a : α) (o : Option β) : Lists (fun a' b => a = a' ∧ o = some b) o.toList := by
  cases o with
  | none => exact .nil fun a' b hab => by cases hab.2
  | some b =>
    refine ⟨[a], List.nodup_singleton a, fun a' c hac => ?_, .cons ⟨rfl, rfl⟩ .nil⟩
    exact List.mem_singleton.2 hac.1.symm

end Lists

end Lists

/-! ### Missing super types -/

/-- The name of an orphan and the super type that it misses. -/
def Orphan.lack (o : Orphan) : String × String := (o.name, o.superTypeName)

/-- One step down in a description: an attribute, a side of it, and a place in the slot. -/
structure SlotPlace where
  name : String
  side : Side
  index : Nat
deriving DecidableEq

namespace Description

/-- The description at a place of a slot names a super type which no other one in the slot has. -/
structure MissesIn (ds : List Description) (i : Nat) (e : Description) (n : String) : Prop where
  place : ds[i]? = some e
  superTypeName : e.superTypeName = some n
  others : ∀ j f, j ≠ i → ds[j]? = some f → f.typeName ≠ some n

/-- Inside a description, at the end of some steps down, there is one of a given name that names a
super type which no other description of its slot has. -/
inductive Misses : Description → List SlotPlace → String → String → Prop
  | here {d e : Description} {a : String × NestedDescription} {side : Side} {i : Nat} {n : String}
      (ha : a ∈ d.fields) (he : MissesIn (a.2.groups side) i e n) :
      Misses d [⟨a.1, side, i⟩] e.name n
  | inside {d e : Description} {a : String × NestedDescription} {side : Side} {i : Nat}
      {q : List SlotPlace} {name n : String} (ha : a ∈ d.fields)
      (he : (a.2.groups side)[i]? = some e) (hq : Misses e q name n) :
      Misses d (⟨a.1, side, i⟩ :: q) name n

theorem Misses.ne_nil {d : Description} {q : List SlotPlace} {name n : String}
    (hq : d.Misses q name n) : q ≠ [] := by
  cases hq <;> exact List.cons_ne_nil _ _

/-- No super type is found in a slot if no other description there has the type name. -/
theorem superPlace_eq_none_iff {ds : List Description} {i : Nat} {e : Description} {n : String}
    (he : ds[i]? = some e) (hn : e.superTypeName = some n) :
    superPlace ds i = none ↔ ∀ j f, j ≠ i → ds[j]? = some f → f.typeName ≠ some n := by
  rw [superPlace, he, Option.bind_some, hn, Option.bind_some, Option.map_eq_none_iff,
    List.find?_eq_none]
  constructor
  · intro hnone j f hj hf htype
    have := hnone (f, j) (List.mk_mem_zipIdx_iff_getElem?.2 hf)
    simp [hj, htype] at this
  · intro hothers e he hfound
    simp only [ne_eq, Bool.and_eq_true, decide_eq_true_eq, decide_not, Bool.not_eq_true',
      decide_eq_false_iff_not] at hfound
    exact hothers e.2 e.1 hfound.1 (List.mk_mem_zipIdx_iff_getElem?.1 he) hfound.2

/-- The orphans inside a description stand for the super types that are missing there. -/
def ListsMissing (d : Description) : Prop :=
  Lists (fun q b => d.Misses q b.1 b.2) (d.orphans.map Orphan.lack)

section Slot

variable {ds : List Description} {n : String} {side : Side}

/-- Different places of a slot start different ways down. -/
theorem pairwise_zipIdx (ds : List Description) :
    ds.zipIdx.Pairwise fun e e' => e.2 ≠ e'.2 := by
  rw [← List.pairwise_map, List.zipIdx_map_snd]
  exact List.nodup_range'

/-- The orphans that the groups of a slot are. -/
theorem lists_slotOrphans (ds : List Description) (n : String) (side : Side) :
    Lists (fun q b => ∃ e ∈ ds.zipIdx, [(⟨n, side, e.2⟩ : SlotPlace)] = q ∧
      MissesIn ds e.2 e.1 b.2 ∧ e.1.name = b.1) ((slotOrphans ds).map Orphan.lack) := by
  have horphans : (slotOrphans ds).map Orphan.lack = ds.zipIdx.flatMap fun e =>
      ((e.1.superTypeName.filter fun _ => superPlace ds e.2 = none).map
        (Prod.mk e.1.name)).toList := by
    rw [slotOrphans, List.map_filterMap, List.filterMap_eq_flatMap_toList]
    simp only [Option.map_map]
    rfl
  rw [horphans]
  refine (Lists.flatMap (fun e _ => Lists.toList [(⟨n, side, e.2⟩ : SlotPlace)] _) ?_).congr
    fun q b => ?_
  · refine (pairwise_zipIdx ds).imp fun hne q b b' hq hq' => hne ?_
    obtain rfl := hq.1
    have hstep := (List.cons.inj hq'.1).1
    exact (SlotPlace.mk.inj hstep).2.2.symm
  · refine exists_congr fun e => and_congr_right fun he => and_congr_right fun _ => ?_
    have hplace := List.mk_mem_zipIdx_iff_getElem?.1 he
    rw [Option.map_eq_some_iff]
    simp only [Option.filter_eq_some_iff, decide_eq_true_eq]
    constructor
    · intro hb
      obtain ⟨m, ⟨hm, hnone⟩, rfl⟩ := hb
      exact ⟨⟨hplace, hm, (superPlace_eq_none_iff hplace hm).1 hnone⟩, rfl⟩
    · intro hb
      obtain ⟨⟨-, hm, hothers⟩, hname⟩ := hb
      exact ⟨b.2, ⟨hm, (superPlace_eq_none_iff hplace hm).2 hothers⟩, by rw [hname]⟩

/-- The orphans inside the groups of a slot. -/
theorem lists_nestedOrphans (hall : ∀ e ∈ ds, e.ListsMissing) (n : String) (side : Side) :
    Lists (fun q b => ∃ e ∈ ds.zipIdx, ∃ r, (⟨n, side, e.2⟩ : SlotPlace) :: r = q ∧
      e.1.Misses r b.1 b.2) ((ds.flatMap orphans).map Orphan.lack) := by
  have horphans : (ds.flatMap orphans).map Orphan.lack =
      ds.zipIdx.flatMap fun e => e.1.orphans.map Orphan.lack := by
    rw [List.map_flatMap]
    conv_lhs => rw [← List.zipIdx_map_fst 0 ds, List.flatMap_map]
  rw [horphans]
  refine Lists.flatMap (fun e he => (hall e.1 (List.fst_mem_of_mem_zipIdx he)).map_left
    List.cons_injective) ?_
  refine (pairwise_zipIdx ds).imp fun hne q b b' hq hq' => hne ?_
  obtain ⟨r, rfl, -⟩ := hq
  obtain ⟨r', hr', -⟩ := hq'
  have hstep := (List.cons.inj hr').1
  exact (SlotPlace.mk.inj hstep).2.2.symm

end Slot

/-- A super type is missing in a slot of an item, or inside one of the groups there. -/
def MissesBelow (n : String) (item : NestedDescription) (side : Side) (q : List SlotPlace)
    (b : String × String) : Prop :=
  ∃ e ∈ (item.groups side).zipIdx,
    (∃ r, ⟨n, side, e.2⟩ :: r = q ∧ e.1.Misses r b.1 b.2) ∨
      [⟨n, side, e.2⟩] = q ∧ MissesIn (item.groups side) e.2 e.1 b.2 ∧ e.1.name = b.1

section Below

variable {d : Description} {n : String} {item : NestedDescription} {side : Side}
  {q : List SlotPlace} {b : String × String}

theorem MissesBelow.head (hq : MissesBelow n item side q b) :
    ∃ i r, q = ⟨n, side, i⟩ :: r := by
  obtain ⟨e, -, ⟨r, rfl, -⟩ | ⟨rfl, -⟩⟩ := hq
  · exact ⟨e.2, r, rfl⟩
  · exact ⟨e.2, [], rfl⟩

/-- What is missing inside a description is missing below an attribute. -/
theorem misses_iff : d.Misses q b.1 b.2 ↔
    ∃ a ∈ d.fields, MissesBelow a.1 a.2 .value q b ∨ MissesBelow a.1 a.2 .key q b := by
  have hside : ∀ a : String × NestedDescription,
      (MissesBelow a.1 a.2 .value q b ∨ MissesBelow a.1 a.2 .key q b) ↔
        ∃ side, MissesBelow a.1 a.2 side q b := by
    intro a
    exact ⟨fun h => h.elim (⟨.value, ·⟩) (⟨.key, ·⟩),
      fun ⟨side, h⟩ => by cases side with | value => exact .inl h | key => exact .inr h⟩
  obtain ⟨name, m⟩ := b
  simp only [hside]
  constructor
  · intro hq
    cases hq with
    | here ha he =>
      exact ⟨_, ha, _, (_, _), List.mk_mem_zipIdx_iff_getElem?.2 he.place, .inr ⟨rfl, he, rfl⟩⟩
    | inside ha he hr =>
      exact ⟨_, ha, _, (_, _), List.mk_mem_zipIdx_iff_getElem?.2 he, .inl ⟨_, rfl, hr⟩⟩
  · intro hq
    obtain ⟨a, ha, side, e, he, ⟨r, rfl, hr⟩ | ⟨rfl, hmisses, rfl⟩⟩ := hq
    · exact .inside ha (List.mk_mem_zipIdx_iff_getElem?.1 he) hr
    · exact .here ha hmisses

/-- The orphans of a slot of an item. -/
theorem lists_orphansIn (hall : ∀ e ∈ item.groups side, e.ListsMissing) (n : String) :
    Lists (MissesBelow n item side) ((item.orphansIn side).map Orphan.lack) := by
  rw [NestedDescription.orphansIn, List.map_append]
  refine ((lists_nestedOrphans hall n side).append (lists_slotOrphans _ n side) ?_).congr
    fun q b => by simp only [MissesBelow, ← exists_or, ← and_or_left]
  intro q b c hq hq'
  obtain ⟨e, -, r, rfl, hmisses⟩ := hq
  obtain ⟨e', -, heq, -⟩ := hq'
  exact hmisses.ne_nil (List.cons.inj heq).2.symm

/-- The orphans of an item, those of the values before those of the keys. -/
theorem lists_itemOrphans (hall : ∀ side, ∀ e ∈ item.groups side, e.ListsMissing) (n : String) :
    Lists (fun q b => MissesBelow n item .value q b ∨ MissesBelow n item .key q b)
      (item.orphans.map Orphan.lack) := by
  rw [item.orphans_eq, List.map_append]
  refine (lists_orphansIn (hall .value) n).append (lists_orphansIn (hall .key) n) ?_
  intro q b c hq hq'
  obtain ⟨i, r, rfl⟩ := hq.head
  obtain ⟨i', r', heq⟩ := hq'.head
  cases heq

/-- **The orphans inside a description stand for what is missing there**, if no attribute is
described twice. -/
theorem lists_missing (hd : d.Everywhere Parsed) : d.ListsMissing := by
  induction hd with
  | @intro d hparsed _ ih =>
    have horphans : d.orphans.map Orphan.lack =
        d.fields.flatMap fun a => a.2.orphans.map Orphan.lack := by
      rw [d.orphans_eq, List.map_flatMap]
      simp only [List.map_map]
      rfl
    rw [ListsMissing, horphans]
    refine (Lists.flatMap (fun a ha => lists_itemOrphans (ih a ha) a.1) ?_).congr
      fun q b => misses_iff.symm
    have hnames : d.fields.Pairwise fun a a' => a.1 ≠ a'.1 := List.pairwise_map.1 hparsed.names
    refine hnames.imp fun hne q b b' hq hq' => hne ?_
    have hhead : ∀ {a : String × NestedDescription} {b : String × String},
        MissesBelow a.1 a.2 .value q b ∨ MissesBelow a.1 a.2 .key q b →
          q.head?.map SlotPlace.name = some a.1 := by
      intro a b hq
      obtain ⟨i, r, rfl⟩ | ⟨i, r, rfl⟩ := hq.imp MissesBelow.head MissesBelow.head <;> rfl
    exact Option.some.inj ((hhead hq).symm.trans (hhead hq'))

end Below

/-! ### Inputs that are refused -/

/-- An input that cannot be restored. -/
inductive Unusable : Value → Prop
  /-- A text that is not JSON. -/
  | notJson {input : Value} (hinput : meaning? input = none) : Unusable input
  /-- A value that the grammar does not admit. -/
  | notGroup {input v : Value} (hv : meaning? input = some v) (hno : ¬ v.IsGroup) : Unusable input
  /-- A root that names a super type. -/
  | superType {input t : Value} {fields : List (String × Value)}
      (hv : meaning? input = some (.object fields))
      (ht : fieldOf "superTypeName" fields = some t) : Unusable input

section Read

variable {input v : Value} {d : Description}

/-- The description of a group says what super type it names. -/
theorem superTypeName_of_readGroup {p : Pointer} (hread : readGroup p v = pure d) :
    ∃ fields, v = .object fields ∧
      fieldOf "superTypeName" fields = d.superTypeName.map .text := by
  obtain ⟨fields, rfl, hfields, -⟩ := exists_object_of_readGroup hread
  refine ⟨fields, rfl, ?_⟩
  rw [hfields "superTypeName" (by decide), fieldOf_propertyList]
  rfl

/-- An input is read as a description that names no super type unless it is unusable. -/
theorem read_of_usable (hinput : ¬ Unusable input) :
    ∃ v d, read input = .ok (v, d) ∧ d.superTypeName = none := by
  cases hv : meaning? input with
  | none => exact absurd (.notJson hv) hinput
  | some v =>
    rcases read_cases hv with ⟨-, d, hread⟩ | ⟨hno, -⟩
    · refine ⟨v, d, hread, ?_⟩
      obtain ⟨fields, rfl, hsuper⟩ := superTypeName_of_readGroup (readGroup_of_read hread).2
      cases hname : d.superTypeName with
      | none => rfl
      | some n =>
        rw [hname] at hsuper
        exact absurd (.superType hv hsuper) hinput
    · exact absurd (.notGroup hv hno) hinput

/-- An unusable input is not read, or it names a super type. -/
theorem read_of_unusable (hinput : Unusable input) :
    (∃ e, read input = .error e ∧ e.name = "ParseError") ∨
      ∃ v d, read input = .ok (v, d) ∧ d.superTypeName.isSome = true := by
  cases hinput with
  | notJson hinput => exact .inl ⟨notJson, read_of_no_meaning hinput, rfl⟩
  | notGroup hv hno =>
    rcases read_cases hv with ⟨hgroup, -⟩ | ⟨-, first, more, hread⟩
    · exact absurd hgroup hno
    · exact .inl ⟨_, hread, rfl⟩
  | superType hv ht =>
    rcases read_cases hv with ⟨-, d, hread⟩ | ⟨-, first, more, hread⟩
    · refine .inr ⟨_, d, hread, ?_⟩
      obtain ⟨fields, heq, hsuper⟩ := superTypeName_of_readGroup (readGroup_of_read hread).2
      obtain rfl := Value.object.inj heq
      rw [ht] at hsuper
      obtain ⟨n, hn, -⟩ := Option.map_eq_some_iff.1 hsuper.symm
      rw [hn]
      rfl
    · exact .inl ⟨_, hread, rfl⟩

end Read

end Description

namespace Heap

/-! ### Names of attributes as paths -/

/-- **The name of an attribute leads to an item of the group itself**, and that succeeds. -/
theorem reachItem_of_isSegment {n : String} (hn : IsSegment n) (h : Heap) (g : GroupId) :
    h.reachItem g (.text n) true = .ok (some (h.ensureItem g n).1, (h.ensureItem g n).2) := by
  rw [reachItem, Path.parse_of_isSegment hn]
  rfl

/-! ### What restoring comes to -/

variable {input : Value} {options : RawOptions} {resolver : Option Resolver} {o : Options}

theorem tryRestore_of_error {h : Heap} {e : Error}
    (he : (h.restore input options resolver).answer = .error e) :
    h.tryRestore input options resolver = .ok (.error (.group e)) := by
  rw [tryRestore, he]
  rfl

/-- **An unusable input is refused**, and nothing is built. -/
theorem restore_of_unusable (ho : options.resolve = .ok o)
    (hdefer : o.restore.resolvesNames = false) (hinput : Description.Unusable input) (h : Heap)
    (resolver : Option Resolver) :
    ∃ e, h.restore input options resolver = { heap := h, answer := .error e } ∧
      e.name = "ParseError" := by
  unfold restore
  simp only [ho, hdefer, Bool.false_eq_true, false_and, if_false]
  rcases Description.read_of_unusable hinput with ⟨e, hread, hname⟩ | ⟨v, d, hread, hsuper⟩
  · exact ⟨e, by rw [hread], hname⟩
  · exact ⟨rootSuperType d.name, by simp only [hread, hsuper, if_true], rfl⟩

/-- Diagnostics report what is missing inside a description, every missing super type once. -/
def ReportsMissing (d : Description) (ds : List Diagnostic) : Prop :=
  ∃ places : List (List SlotPlace), places.Nodup ∧
    (∀ q, q ∈ places ↔ ∃ name n, d.Misses q name n) ∧
    List.Forall₂ (fun q dg => ∃ path name n, d.Misses q name n ∧
      dg = .superTypeUnresolved path name n) places ds

/-- The orphans are reported, each for the place that it stands for. -/
theorem reportsMissing_orphans {d : Description} (hd : d.Everywhere Description.Parsed) :
    ReportsMissing d (d.orphans.map Orphan.diagnostic) := by
  obtain ⟨places, hnodup, hall, hlist⟩ := Description.lists_missing hd
  rw [List.forall₂_map_right_iff] at hlist
  refine ⟨places, hnodup, fun q => ⟨fun hq => ?_, ?_⟩, ?_⟩
  · obtain ⟨o, -, hq⟩ := exists_right_of_mem hlist hq
    exact ⟨_, _, hq⟩
  · intro hq
    obtain ⟨name, n, hq⟩ := hq
    exact hall q (name, n) hq
  · rw [List.forall₂_map_right_iff]
    exact hlist.imp fun q o hq => ⟨_, _, _, hq, rfl⟩

/-- Whatever is reported of a restoration may be emitted while restoring. -/
theorem ReportsMissing.emit {d : Description} {ds : List Diagnostic} (hds : ReportsMissing d ds) :
    ∀ dg ∈ ds, dg.emit = .ok dg := by
  intro dg hdg
  obtain ⟨places, -, -, hlist⟩ := hds
  obtain ⟨q, -, path, name, n, -, rfl⟩ := exists_left_of_mem hlist hdg
  rfl

/-- The attributes of a description lead to items of their groups, none of them further down. -/
def LeadsToItems (d : Description) : Prop :=
  ∀ a ∈ d.fields, ∀ (h : Heap) (g : GroupId),
    h.reachItem g (.text a.1) true = .ok (some (h.ensureItem g a.1).1, (h.ensureItem g a.1).2)

theorem leadsToItems_of_parsed {d : Description} (hd : d.Everywhere Description.Parsed) :
    d.Everywhere LeadsToItems := by
  induction hd with
  | intro hparsed _ ih =>
    refine .intro (fun a ha h g => ?_) ih
    exact reachItem_of_isSegment (isAttributeName_iff.1 (hparsed.allowed a ha)) h g

/-- **Restoring fails on unusable input only**, with a parse error and without a trace.  Any other
input is built, and every super type that is missing in its description is reported once. -/
theorem restore_ends (hinput : input.Regular) (ho : options.resolve = .ok o)
    (hdefer : o.restore.resolvesNames = false) (h : Heap) (resolver : Option Resolver) :
    let restored := h.restore input options resolver
    ((∃ e, restored.answer = .error e) ↔ Description.Unusable input) ∧
    (∀ e, restored.answer = .error e → e.name = "ParseError" ∧ restored.heap = h ∧
      restored.diagnostics = [] ∧ h.tryRestore input options resolver = .ok (.error (.group e))) ∧
    ∀ y, restored.answer = .ok y → ∃ v d, Description.read input = .ok (v, d) ∧
      SameGroup v d.toValue ∧ d.Everywhere LeadsToItems ∧ ReportsMissing d restored.diagnostics ∧
      ∀ dg ∈ restored.diagnostics, dg.emit = .ok dg := by
  intro restored
  by_cases hunusable : Description.Unusable input
  · obtain ⟨e, he, hname⟩ := restore_of_unusable ho hdefer hunusable h resolver
    have hrestored : restored = { heap := h, answer := .error e } := he
    refine ⟨iff_of_true ⟨e, by rw [hrestored]⟩ hunusable, fun e' he' => ?_, fun y hy => ?_⟩
    · have htry := tryRestore_of_error he'
      rw [hrestored] at he' ⊢
      obtain rfl := Except.error.inj he'
      exact ⟨hname, rfl, rfl, htry⟩
    · rw [hrestored] at hy
      cases hy
  · obtain ⟨v, d, hread, hsuper⟩ := Description.read_of_usable hunusable
    obtain ⟨hsame, hparsed⟩ := Description.sameGroup_of_read hinput hread
    obtain ⟨y, F, zs, hrun, -⟩ := exists_accounted hparsed h o.hierarchy
    have hrestored : restored = { heap := F, diagnostics := _, answer := .ok y } :=
      restore_deferred ho hread hsuper hrun hdefer resolver
    have hreports := reportsMissing_orphans hparsed
    rw [hrestored]
    refine ⟨iff_of_false ?_ hunusable, fun e he => ?_, fun y' _ => ?_⟩
    · rintro ⟨e, he⟩
      cases he
    · cases he
    · exact ⟨v, d, hread, hsame, leadsToItems_of_parsed hparsed, hreports, hreports.emit⟩

/-- The catalog is built and lacks two super types; a text that says nothing is refused. -/
theorem restore_ends_catalog :
    let restored := Heap.empty.restore catalog {} none
    catalog.Regular ∧ ({} : RawOptions).resolve = .ok {} ∧ restored.answer = .ok ⟨0⟩ ∧
    ¬ Description.Unusable catalog ∧ restored.diagnostics.length = 2 ∧
    ReportsMissing catalogDescription restored.diagnostics ∧
    ∃ e, (Heap.empty.restore (.text "") {} none).answer = .error e := by
  intro restored
  have hoptions : ({} : RawOptions).resolve = .ok {} := rfl
  have hanswer : restored.answer = .ok ⟨0⟩ := answer_of_toOption (by decide +kernel)
  obtain ⟨hfails, -, hbuilt⟩ := restore_ends regular_catalog hoptions rfl .empty none
  obtain ⟨v, d, hread, -, -, hreports, -⟩ := hbuilt _ hanswer
  have hcatalog : Description.read catalog = .ok (catalog, catalogDescription) := rfl
  obtain ⟨rfl, rfl⟩ := Prod.mk.inj (Except.ok.inj (hcatalog.symm.trans hread))
  refine ⟨regular_catalog, hoptions, hanswer, fun hunusable => ?_, by decide +kernel, hreports, ?_⟩
  · obtain ⟨e, he⟩ := hfails.2 hunusable
    cases hanswer.symm.trans he
  · exact (restore_ends (.text "") hoptions rfl .empty none).1.2 (.notJson rfl)

end Heap

end AttributeGraph
