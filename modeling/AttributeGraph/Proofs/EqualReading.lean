/-
Equal groups are read alike.

Equality pairs the super groups of two groups as it pairs the groups nested in them,
so it goes through both walks that a reader takes: down the names of a path
(`ReadAlike.locate`) and up from level to level (`Supers.exists_related`).  At each step
the names, the nested groups and the super groups are present on both sides or on
neither, and what is present is related again.

What the readers find is therefore related by the relation that the comparison
itself has found.  That it is equal once more needs a comparison that starts from
there, and this ends because the relation can be cut down to groups of the heap
(`Simulation.inHeap`).
-/
import AttributeGraph.Proofs.Equality
import AttributeGraph.Proofs.Inheritance

namespace AttributeGraph

theorem rel_refl {α : Type} {S : α → α → Prop} (hS : ∀ a, S a a) (x : Option α) :
    Option.Rel S x x := by
  cases x with
  | none => exact .none
  | some a => exact .some (hS a)

theorem SlotsMatch.refl {S : GroupId → GroupId → Prop} (hS : ∀ a, S a a) (s : Slot) :
    SlotsMatch S s s :=
  ⟨rel_refl hS _, fun _ => rel_refl hS _⟩

namespace Heap

variable {h : Heap} {R S : GroupId → GroupId → Prop} {a b x y : GroupId} {l m : List GroupId}
  {i j : ItemId} {n : String} {p : Path}

/-! ### Groups and items that are alike -/

/-- Two items have the same name and match through a relation. -/
structure ItemsReadAlike (h : Heap) (S : GroupId → GroupId → Prop) (i j : ItemId) : Prop where
  name : (h.item i).name = (h.item j).name
  items : ItemsMatch S (h.item i) (h.item j)

/-- Related groups declare the same names, for items that are alike, and have related super
groups. -/
structure ReadAlike (h : Heap) (S : GroupId → GroupId → Prop) : Prop where
  items : ∀ x y, S x y → ∀ n,
    Option.Rel (h.ItemsReadAlike S) ((h.group x).items.find? n) ((h.group y).items.find? n)
  above : ∀ x y, S x y → Option.Rel S (h.group x).above (h.group y).above

/-- What a simulation relates is alike, and a group is like itself. -/
theorem Simulation.readAlike (hR : h.Simulation R) : h.ReadAlike (Relation.ReflGen R) := by
  constructor
  · intro x y hxy n
    cases hxy with
    | refl =>
      exact rel_refl (fun i => ⟨rfl, SlotsMatch.refl (fun _ => .refl) _,
        SlotsMatch.refl (fun _ => .refl) _⟩) _
    | single hxy =>
      have hmatch := (groupsMatch_sameNames_iff.1 (obligations_iff.1 (hR x y hxy))).1
      exact rel_mono (fun i j hij => ⟨hij.1, hij.2⟩) (hmatch n)
  · intro x y hxy
    cases hxy with
    | refl => exact rel_refl (fun _ => .refl) _
    | single hxy => exact (obligations_iff.1 (hR x y hxy)).1.above

/-- A simulation is one between groups of a closed heap, too. -/
theorem Simulation.inHeap (hclosed : h.Closed) (hR : h.Simulation R) :
    h.Simulation fun x y => R x y ∧ h.HasGroup x ∧ h.HasGroup y := by
  rintro x y ⟨hxy, hx, hy⟩
  obtain ⟨hmatch, hnames⟩ := obligations_iff.1 (hR x y hxy)
  refine obligations_iff.2 ⟨(hmatch.inHeap hclosed hx hy).mono ?_, hnames⟩
  rintro u v ⟨huv, hu, hv⟩
  cases huv with
  | refl => exact .refl
  | single huv => exact .single ⟨huv, hu, hv⟩

/-- Items that are alike through a simulation of the heap are equal. -/
theorem ItemsReadAlike.agree (hR : h.Simulation R)
    (hin : ∀ x y, R x y → h.HasGroup x ∧ h.HasGroup y)
    (hij : h.ItemsReadAlike (Relation.ReflGen R) i j) : h.itemsAgree i j = true := by
  obtain ⟨demands, hdemands, hmet⟩ := itemDemands_iff.2 ⟨hij.name, hij.items⟩
  rw [itemsAgree, hdemands]
  exact meets_of_simulation hR hin hmet

/-- Groups that a simulation of the heap relates are equal. -/
theorem groupsAgree_of_simulation (hR : h.Simulation R)
    (hin : ∀ x y, R x y → h.HasGroup x ∧ h.HasGroup y) (hxy : Relation.ReflGen R x y) :
    h.groupsAgree (some x) (some y) = true :=
  meets_of_simulation hR hin fun _ hd => List.mem_singleton.1 hd ▸ .some hxy

/-! ### Readers -/

/-- Two walks end alike: at items that are alike, or both before a missing name, or both at an item
that nests nothing. -/
inductive EndsReadAlike (h : Heap) (S : GroupId → GroupId → Prop) : Reached → Reached → Prop
  | found {i j : ItemId} (hij : h.ItemsReadAlike S i j) : EndsReadAlike h S (.found i) (.found j)
  | missing : EndsReadAlike h S .missing .missing
  | blocked : EndsReadAlike h S .blocked .blocked

namespace ReadAlike

variable (hS : h.ReadAlike S)

include hS

/-- A path is walked alike from related groups. -/
theorem locate (tail : List String) : ∀ {x y : GroupId} (head : String), S x y →
    h.EndsReadAlike S (h.locate x head tail) (h.locate y head tail) := by
  induction tail with
  | nil =>
    intro x y head hxy
    have hitem := hS.items x y hxy head
    rw [Heap.locate, Heap.locate]
    generalize (h.group x).items.find? head = u at hitem ⊢
    generalize (h.group y).items.find? head = v at hitem ⊢
    cases hitem with
    | none => exact .missing
    | some hij => exact .found hij
  | cons next rest ih =>
    intro x y head hxy
    have hitem := hS.items x y hxy head
    rw [Heap.locate, Heap.locate]
    generalize (h.group x).items.find? head = u at hitem ⊢
    generalize (h.group y).items.find? head = v at hitem ⊢
    cases hitem with
    | none => exact .missing
    | @some i j hij =>
      have hprimary := hij.items.value.primary
      simp only
      generalize (h.item i).value.primary = u at hprimary ⊢
      generalize (h.item j).value.primary = v at hprimary ⊢
      cases hprimary with
      | none => exact .blocked
      | some huv => exact ih next huv

theorem resolveAlong (hlm : List.Forall₂ S l m) (p : Path) :
    Option.Rel (h.ItemsReadAlike S) (h.resolveAlong p l) (h.resolveAlong p m) := by
  induction hlm with
  | nil => exact .none
  | @cons x y l m hxy _ ih =>
    have hends := hS.locate p.tail p.head hxy
    rw [Heap.resolveAlong, Heap.resolveAlong]
    generalize h.locate x p.head p.tail = u at hends ⊢
    generalize h.locate y p.head p.tail = v at hends ⊢
    cases hends with
    | found hij => exact .some hij
    | missing => exact ih
    | blocked => exact .none

theorem containsAlong (hlm : List.Forall₂ S l m) (p : Path) :
    h.containsAlong p l = h.containsAlong p m := by
  induction hlm with
  | nil => rfl
  | cons hxy hlm ih =>
    have hfound := isSome_iff_of_rel (hS.resolveAlong (.cons hxy hlm) p)
    rw [Heap.containsAlong, Heap.containsAlong, ih, Bool.eq_iff_iff.2 hfound]

theorem groupAlong (hlm : List.Forall₂ S l m) (p : Path) :
    Option.Rel S (h.groupAlong p l) (h.groupAlong p m) := by
  induction hlm with
  | nil => exact .none
  | @cons x y l m hxy hlm ih =>
    have hitem := hS.resolveAlong (.cons hxy hlm) p
    rw [Heap.groupAlong, Heap.groupAlong]
    generalize h.resolveAlong p (x :: l) = u at hitem ⊢
    generalize h.resolveAlong p (y :: m) = v at hitem ⊢
    cases hitem with
    | none => exact ih
    | some hij => exact hij.items.value.primary

theorem namesAlong (hlm : List.Forall₂ S l m) (n : String) :
    n ∈ h.namesAlong l ↔ n ∈ h.namesAlong m := by
  induction hlm with
  | nil => rfl
  | @cons x y l m hxy _ ih =>
    have hkeys : n ∈ (h.group x).items.keys ↔ n ∈ (h.group y).items.keys := by
      rw [← OrderedMap.contains_iff, ← OrderedMap.contains_iff]
      exact isSome_iff_of_rel (hS.items x y hxy n)
    rw [Heap.namesAlong, Heap.namesAlong, OrderedSet.mem_foldl_insert, OrderedSet.mem_foldl_insert,
      ih, hkeys]

end ReadAlike

/-- **Equal groups are read alike.**  If climbing from one of them ends, every path is there for
both or for neither; its item is there for both, and then the two are equal, or for neither; so is
its nested group; and the groups have the same names. -/
theorem read_alike_of_groupsAgree (hclosed : h.Closed) (ha : h.HasGroup a) (hb : h.HasGroup b)
    (hends : h.EndsAbove a) (hagree : h.groupsAgree (some a) (some b) = true) :
    h.EndsAbove b ∧
    (∀ p : Path, h.hasPath a p = h.hasPath b p ∧
      Option.Rel (fun i j => h.itemsAgree i j = true) (h.itemAt? a p) (h.itemAt? b p) ∧
      Option.Rel (fun x y => h.groupsAgree (some x) (some y) = true) (h.nestedAt? a p)
        (h.nestedAt? b p)) ∧
    ∀ n, n ∈ h.names a ↔ n ∈ h.names b := by
  obtain ⟨T, hT, hmet⟩ := simulation_of_meets hagree
  have hR := hT.inHeap hclosed
  have hin : ∀ x y, T x y ∧ h.HasGroup x ∧ h.HasGroup y → h.HasGroup x ∧ h.HasGroup y :=
    fun _ _ hxy => hxy.2
  have hab : Relation.ReflGen (fun x y => T x y ∧ h.HasGroup x ∧ h.HasGroup y) a b := by
    cases rel_some_iff.1 (hmet _ List.mem_cons_self) with
    | refl => exact .refl
    | single hab => exact .single ⟨hab, ha, hb⟩
  obtain ⟨l, hl⟩ := hends
  obtain ⟨m, hm, hlm⟩ := hl.exists_related hR.readAlike.above hab
  refine ⟨⟨m, hm⟩, fun p => ⟨?_, ?_, ?_⟩, fun n => ?_⟩
  · rw [hasPath, hasPath, hl.superChain_eq, hm.superChain_eq]
    exact hR.readAlike.containsAlong hlm p
  · rw [itemAt?, itemAt?, hl.superChain_eq, hm.superChain_eq]
    exact rel_mono (fun i j hij => hij.agree hR hin) (hR.readAlike.resolveAlong hlm p)
  · rw [nestedAt?, nestedAt?, hl.superChain_eq, hm.superChain_eq]
    exact rel_mono (fun x y hxy => groupsAgree_of_simulation hR hin hxy)
      (hR.readAlike.groupAlong hlm p)
  · rw [names, names, hl.superChain_eq, hm.superChain_eq]
    exact hR.readAlike.namesAlong hlm n

/-- Two derived groups with bases of their own: one is nested in itself, the other one in the first,
and the homes of both bases nest groups with a city. -/
def relatives : Heap where
  groups := #[
    { name := "left", above := some ⟨1⟩, items := .ofList [("next", ⟨0⟩), ("rank", ⟨1⟩)] },
    { name := "left base", below := some (.ofList [⟨0⟩]), items := .ofList [("home", ⟨2⟩)] },
    { name := "left home", nestedIn := some ⟨2⟩, items := .ofList [("city", ⟨3⟩)] },
    { name := "right", above := some ⟨4⟩, items := .ofList [("rank", ⟨4⟩), ("next", ⟨5⟩)] },
    { name := "right base", below := some (.ofList [⟨3⟩]), items := .ofList [("home", ⟨6⟩)] },
    { name := "right home", nestedIn := some ⟨6⟩, items := .ofList [("city", ⟨7⟩)] }]
  items := #[
    { name := "next", owner := ⟨0⟩, value := { primary := some ⟨0⟩ } },
    { name := "rank", owner := ⟨0⟩ },
    { name := "home", owner := ⟨1⟩, value := { primary := some ⟨2⟩ } },
    { name := "city", owner := ⟨2⟩ },
    { name := "rank", owner := ⟨3⟩ },
    { name := "next", owner := ⟨3⟩, value := { primary := some ⟨0⟩ } },
    { name := "home", owner := ⟨4⟩, value := { primary := some ⟨5⟩ } },
    { name := "city", owner := ⟨5⟩ }]
  variants := #[.generic]

/-- The city of the home is inherited on both sides, from different groups. -/
theorem read_alike_of_groupsAgree_relatives :
    let p : Path := ⟨"home", ["city"], by decide⟩
    relatives.Closed ∧ relatives.EndsAbove ⟨0⟩ ∧
      relatives.groupsAgree (some ⟨0⟩) (some ⟨3⟩) = true ∧
      relatives.hasPath ⟨0⟩ p = relatives.hasPath ⟨3⟩ p ∧
      relatives.itemAt? ⟨0⟩ p = some ⟨3⟩ ∧ relatives.itemAt? ⟨3⟩ p = some ⟨7⟩ ∧
      relatives.itemsAgree ⟨3⟩ ⟨7⟩ = true := by
  intro p
  have hclosed : relatives.Closed := by decide
  have hends : relatives.EndsAbove ⟨0⟩ := ⟨_, .step rfl (.top rfl)⟩
  have hagree : relatives.groupsAgree (some ⟨0⟩) (some ⟨3⟩) = true := by decide
  obtain ⟨-, hread, -⟩ :=
    read_alike_of_groupsAgree hclosed (by decide) (by decide) hends hagree
  obtain ⟨hpath, hitem, -⟩ := hread p
  have hleft : relatives.itemAt? ⟨0⟩ p = some ⟨3⟩ := rfl
  have hright : relatives.itemAt? ⟨3⟩ p = some ⟨7⟩ := rfl
  rw [hleft, hright, rel_some_iff] at hitem
  exact ⟨hclosed, hends, hagree, hpath, hleft, hright, hitem⟩

end Heap

end AttributeGraph
