/-
Adding and removing paths keeps a set of paths.

A group that starts without attributes and is changed by path only stands for a
finite set of paths, closed under prefixes.  `PathEdit.on` says what a change does
to the set, and `PathEdit.answer` what the caller is told; neither looks at a heap.
`Represents` is what the readers then have to say: which paths have an item, which
item that is, where a nested group believes to be, and what the list of all paths
has.

One change keeps the group the root of a tree that declares the paths of the set
(`edit_declares`), so a run of changes does, and such a tree is read as the set
(`represents_of_declares`).  The main statement puts the two together:
`represents_editAll`.
-/
import AttributeGraph.Proofs.PathReaders
import Mathlib.Data.Finset.Union
import Mathlib.Data.Finset.Filter

namespace AttributeGraph

/-! ### Changes to a set of paths -/

namespace PathInput

/-- The path of an input that has one. -/
def path? (input : PathInput) : Option Path := Path.ofSegments? input.pieces

/-- What a caller is told: nothing, or that the input is no path. -/
def answer (input : PathInput) : Except Error Unit :=
  if input.path?.isSome then .ok () else .error (.invalidPath input.toValue)

end PathInput

/-- A path and every path that leads to it. -/
def Path.prefixes (p : Path) : Finset (List String) := p.segments.inits.toFinset.erase []

/-- The path of an input and every path that leads to it; none if it has no path. -/
def PathInput.prefixes (input : PathInput) : Finset (List String) :=
  (input.path?.map Path.prefixes).getD ∅

/-- A change to the paths of a group. -/
inductive PathEdit where
  | add (input : PathInput)
  | addAll (texts : List String)
  | remove (input : PathInput)
deriving DecidableEq

namespace PathEdit

/-- The set of paths that a change leaves.  A path is added with all that lead to it, and removed
with all that go on from it; of several texts those before the first that is no path are added. -/
def on (S : Finset (List String)) : PathEdit → Finset (List String)
  | add input => S ∪ input.prefixes
  | addAll texts =>
    S ∪ (texts.takeWhile fun t => (PathInput.text t).path?.isSome).toFinset.biUnion
      fun t => (PathInput.text t).prefixes
  | remove input =>
    match input.path? with
    | none => S
    | some p => S.filter fun q => ¬ p.segments <+: q

/-- What a caller is told about a change; of several texts, about the first that is no path. -/
def answer : PathEdit → Except Error Unit
  | add input => input.answer
  | addAll texts =>
    match texts.find? fun t => (PathInput.text t).path?.isNone with
    | none => .ok ()
    | some t => (PathInput.text t).answer
  | remove input => input.answer

end PathEdit

namespace Heap

/-! ### Changes to a group -/

/-- The outcome of a change that may fail, and then changes nothing. -/
def changed (h : Heap) : Except Error Heap → Outcome Unit
  | .ok new => { heap := new, answer := .ok () }
  | .error e => { heap := h, answer := .error e }

/-- Change the paths of a group. -/
def edit (h : Heap) (g : GroupId) : PathEdit → Outcome Unit
  | .add input => h.changed (h.addPath g input)
  | .addAll texts => h.addPaths g texts
  | .remove input => h.changed (h.removePath g input)

/-- Make changes in order, going on where one fails: the answers, and the heap in the end. -/
def editAll (h : Heap) (g : GroupId) : List PathEdit → List (Except Error Unit) × Heap
  | [] => ([], h)
  | e :: es =>
    let done := h.edit g e
    let rest := done.heap.editAll g es
    (done.answer :: rest.1, rest.2)

variable {h : Heap} {g : GroupId} {S : Finset (List String)}

/-- What the readers say of a group that stands for a set of paths. -/
structure Represents (h : Heap) (g : GroupId) (S : Finset (List String)) : Prop where
  /-- The members are paths. -/
  valid : ∀ p ∈ S, ∃ q : Path, q.segments = p
  /-- What leads to a member is a member. -/
  closed : ∀ p ∈ S, ∀ r, r ≠ [] → r <+: p → r ∈ S
  /-- The members are the paths that have an item. -/
  found : ∀ p : Path, (h.itemAt? g p).isSome = true ↔ p.segments ∈ S
  /-- The members are the paths that are contained. -/
  contained : ∀ p : Path, h.hasPath g p = true ↔ p.segments ∈ S
  /-- An item has the last name of its path. -/
  named : ∀ (p : Path) (i : ItemId), h.itemAt? g p = some i →
    p.segments.getLast? = some (h.item i).name
  /-- Different paths have different items. -/
  distinct : ∀ (p q : Path) (i : ItemId), h.itemAt? g p = some i → h.itemAt? g q = some i → p = q
  /-- A nested group knows the path that it is found by. -/
  located : ∀ (p : Path) (x : GroupId), h.nestedAt? g p = some x → h.pathTo x = p.toText
  /-- The members are listed in order. -/
  listed : h.paths g = Text.sortByUnits (S.toList.map Path.format)

/-! ### Trees that declare a set of paths -/

/-- A group is the root of a tree that declares the paths of a set. -/
structure DeclaresSet (h : Heap) (g : GroupId) (S : Finset (List String)) : Prop where
  tree : h.PathTree g
  declares : ∀ p, h.Declares g p ↔ p ∈ S

theorem segments_injective {p q : Path} (heq : p.segments = q.segments) : p = q := by
  obtain ⟨_, _, _⟩ := p
  obtain ⟨_, _, _⟩ := q
  obtain ⟨rfl, rfl⟩ := List.cons.inj heq
  rfl

/-- **A tree that declares a set of paths is read as that set.** -/
theorem represents_of_declares (hd : h.DeclaresSet g S) : h.Represents g S := by
  have ht := hd.tree
  have hfound : ∀ p : Path, (h.itemAt? g p).isSome = true ↔ p.segments ∈ S := fun p =>
    (ht.isSome_itemAt?_iff p).trans (hd.declares _)
  refine ⟨fun p hp => ?_, fun p hp r hne hr => ?_, hfound, fun p => ?_, fun p i hi => ?_,
    fun p q i hp hq => ?_, fun p x hx => ?_, ?_⟩
  · obtain ⟨hne, hsegments⟩ := ht.segment_of_declares ((hd.declares p).2 hp)
    exact Path.exists_of_segments hne hsegments
  · exact (hd.declares r).1 (((hd.declares p).2 hp).of_isPrefix hr hne)
  · rw [ht.hasPath_eq, hfound]
  · obtain ⟨q, n, heq⟩ := exists_segments_eq p
    obtain ⟨x, hx, hi⟩ := itemBelow_eq_some_iff.1 ((ht.itemAt?_eq_some_iff heq).1 hi)
    rw [((ht.group q x hx).items n i hi).name, heq, List.getLast?_concat]
  · obtain ⟨p', n, hp'⟩ := exists_segments_eq p
    obtain ⟨q', m, hq'⟩ := exists_segments_eq q
    obtain ⟨rfl, rfl⟩ := ht.itemBelow_inj ((ht.itemAt?_eq_some_iff hp').1 hp)
      ((ht.itemAt?_eq_some_iff hq').1 hq)
    exact segments_injective (hp'.trans hq'.symm)
  · exact ht.pathTo_eq (ht.follow_of_nestedAt? hx)
  · exact ht.paths_eq fun p => (hd.declares p).symm

/-! ### One change -/

section Edits

variable {input : PathInput} {p : Path} {t : String} {texts rest : List String}

theorem parse_of_path? (hp : input.path? = some p) : Path.parse input = .ok p := by
  rw [Path.parse, show Path.ofSegments? input.pieces = some p from hp]

theorem parse_of_path?_eq_none (hp : input.path? = none) :
    Path.parse input = .error (.invalidPath input.toValue) := by
  rw [Path.parse, show Path.ofSegments? input.pieces = none from hp]

theorem addPath_of_path? (hp : input.path? = some p) :
    h.addPath g input = .ok (h.ensurePath g p.head p.tail).2 := by
  rw [addPath, addNested, parse_of_path? hp]
  rfl

theorem reachItem_true_of_path? (hp : input.path? = some p) :
    h.reachItem g input true =
      .ok (some (h.ensurePath g p.head p.tail).1, (h.ensurePath g p.head p.tail).2) := by
  rw [reachItem, parse_of_path? hp]
  rfl

theorem reachItem_false_of_path? (hp : input.path? = some p) :
    h.reachItem g input false = .ok (h.itemAt? g p, h) := by
  rw [reachItem, parse_of_path? hp]
  rfl

/-- What is no path is not added. -/
theorem addPath_of_path?_eq_none (hp : input.path? = none) :
    h.addPath g input = .error (.invalidPath input.toValue) := by
  rw [addPath, addNested, parse_of_path?_eq_none hp]
  rfl

/-- What is no path is not removed. -/
theorem removePath_of_path?_eq_none (hp : input.path? = none) :
    h.removePath g input = .error (.invalidPath input.toValue) := by
  rw [removePath, parse_of_path?_eq_none hp]
  rfl

theorem mem_prefixes {q : List String} : q ∈ p.prefixes ↔ q ≠ [] ∧ q <+: p.segments := by
  rw [Path.prefixes, Finset.mem_erase, List.mem_toFinset, List.mem_inits]

theorem prefixes_of_path? (hp : input.path? = some p) : input.prefixes = p.prefixes := by
  rw [PathInput.prefixes, hp]
  rfl

theorem prefixes_of_path?_eq_none (hp : input.path? = none) : input.prefixes = ∅ := by
  rw [PathInput.prefixes, hp]
  rfl

theorem answer_of_path? (hp : input.path? = some p) : input.answer = .ok () := by
  rw [PathInput.answer, hp]
  rfl

theorem answer_of_path?_eq_none (hp : input.path? = none) :
    input.answer = .error (.invalidPath input.toValue) := by
  rw [PathInput.answer, hp]
  rfl

/-- Adding a path unites the set with the paths that lead to it. -/
theorem DeclaresSet.addPath (hd : h.DeclaresSet g S) (p : Path) :
    (h.ensurePath g p.head p.tail).2.DeclaresSet g (S ∪ p.prefixes) := by
  obtain ⟨ht, hdeclares⟩ := hd.tree.ensurePath p.tail (q := []) rfl p.valid
  refine ⟨ht, fun q => (hdeclares q).trans ?_⟩
  rw [Finset.mem_union, mem_prefixes, hd.declares]
  refine or_congr_right ⟨?_, fun ⟨hne, hq⟩ => ⟨q, hne, hq, rfl⟩⟩
  rintro ⟨r, hne, hr, rfl⟩
  exact ⟨hne, hr⟩

/-- Removing a path takes all paths that go on from it out of the set. -/
theorem DeclaresSet.removePath (hd : h.DeclaresSet g S) (hp : input.path? = some p) :
    ∃ h', h.removePath g input = .ok h' ∧
      h'.DeclaresSet g (S.filter fun q => ¬ p.segments <+: q) := by
  obtain ⟨q, n, heq⟩ := exists_segments_eq p
  rw [removePath_of_parse (parse_of_path? hp)]
  cases hi : h.itemAt? g p with
  | none =>
    refine ⟨h, rfl, hd.tree, fun r => ?_⟩
    -- no member goes on from a path without item
    rw [Finset.mem_filter, hd.declares, iff_self_and]
    intro hr hprefix
    have hdeclared := ((hd.declares r).2 hr).of_isPrefix hprefix (List.cons_ne_nil _ _)
    rw [← hd.tree.isSome_itemAt?_iff, hi] at hdeclared
    cases hdeclared
  | some i =>
    obtain ⟨ht, hdeclares⟩ := hd.tree.eraseItem ((hd.tree.itemAt?_eq_some_iff heq).1 hi)
    refine ⟨_, rfl, ht, fun r => (hdeclares r).trans ?_⟩
    rw [Finset.mem_filter, heq, hd.declares]

/-- Texts are added in order, up to the first that is no path. -/
theorem DeclaresSet.addPaths (texts : List String) : ∀ {h : Heap} {S : Finset (List String)},
    h.DeclaresSet g S →
      (h.addPaths g texts).heap.DeclaresSet g (PathEdit.on S (.addAll texts)) ∧
        (h.addPaths g texts).answer = PathEdit.answer (.addAll texts) := by
  induction texts with
  | nil =>
    intro h S hd
    refine ⟨?_, rfl⟩
    simpa [Heap.addPaths, PathEdit.on] using hd
  | cons t rest ih =>
    intro h S hd
    cases hp : (PathInput.text t).path? with
    | none =>
      rw [Heap.addPaths, addPath_of_path?_eq_none hp]
      refine ⟨?_, ?_⟩
      · simpa [PathEdit.on, hp] using hd
      · simp [PathEdit.answer, hp, answer_of_path?_eq_none hp]
    | some p =>
      rw [Heap.addPaths, addPath_of_path? hp]
      obtain ⟨hd', hanswer⟩ := ih (hd.addPath p)
      refine ⟨?_, ?_⟩
      · simpa [PathEdit.on, hp, prefixes_of_path? hp, Finset.union_assoc] using hd'
      · simpa [PathEdit.answer, hp] using hanswer

/-- **A change does to the tree what it does to the set**, and answers alike. -/
theorem edit_declares (hd : h.DeclaresSet g S) (e : PathEdit) :
    (h.edit g e).heap.DeclaresSet g (e.on S) ∧ (h.edit g e).answer = e.answer := by
  cases e with
  | add input =>
    rw [edit, PathEdit.on, PathEdit.answer]
    cases hp : input.path? with
    | none =>
      rw [addPath_of_path?_eq_none hp, prefixes_of_path?_eq_none hp, Finset.union_empty,
        answer_of_path?_eq_none hp]
      exact ⟨hd, rfl⟩
    | some p =>
      rw [addPath_of_path? hp, prefixes_of_path? hp, answer_of_path? hp]
      exact ⟨hd.addPath p, rfl⟩
  | addAll texts => exact hd.addPaths texts
  | remove input =>
    rw [edit, PathEdit.on, PathEdit.answer]
    cases hp : input.path? with
    | none =>
      rw [removePath_of_path?_eq_none hp, answer_of_path?_eq_none hp]
      exact ⟨hd, rfl⟩
    | some p =>
      obtain ⟨h', hremove, hd'⟩ := hd.removePath hp
      rw [hremove, answer_of_path? hp]
      exact ⟨hd', rfl⟩

/-- What stands behind a text that is no path does not count. -/
theorem addPaths_append_cons (texts rest : List String) (hp : (PathInput.text t).path? = none) :
    ∀ h : Heap, (h.addPaths g (texts ++ t :: rest)).heap = (h.addPaths g texts).heap := by
  induction texts with
  | nil =>
    intro h
    show (h.addPaths g (t :: rest)).heap = h
    rw [Heap.addPaths, addPath_of_path?_eq_none hp]
  | cons s texts ih =>
    intro h
    rw [List.cons_append, Heap.addPaths, Heap.addPaths]
    cases h.addPath g (.text s) with
    | error e => rfl
    | ok h' => exact ih h'

end Edits

/-! ### Runs of changes -/

theorem editAll_declares (edits : List PathEdit) : ∀ {h : Heap} {S : Finset (List String)},
    h.DeclaresSet g S →
      (h.editAll g edits).2.DeclaresSet g (edits.foldl PathEdit.on S) ∧
        (h.editAll g edits).1 = edits.map PathEdit.answer := by
  induction edits with
  | nil => exact fun hd => ⟨hd, rfl⟩
  | cons e edits ih =>
    intro h S hd
    obtain ⟨hd', hanswer⟩ := edit_declares hd e
    obtain ⟨hrest, hanswers⟩ := ih hd'
    refine ⟨hrest, ?_⟩
    rw [editAll, List.map_cons, ← hanswer, ← hanswers]

/-- **A group that is changed by path stands for a set of paths.**  A new group stands for the empty
set in any heap, and every run of changes leaves what it does to the set, with an answer for each
change.  An input that is no path is refused and leaves the heap alone, and in a list of texts it
keeps those behind it from being added. -/
theorem represents_editAll (h : Heap) (name : String) (type : Option ObjectType)
    (typeName : Option String) (validated : Bool) (v : Variant) (edits : List PathEdit) :
    let new := h.createGroup name type typeName validated v
    let run := new.2.editAll new.1 edits
    run.2.Represents new.1 (edits.foldl PathEdit.on ∅) ∧
      run.1 = edits.map PathEdit.answer ∧
      (∀ input : PathInput, input.path? = none →
        run.2.edit new.1 (.add input) = ⟨run.2, [], .error (.invalidPath input.toValue)⟩ ∧
        run.2.edit new.1 (.remove input) = ⟨run.2, [], .error (.invalidPath input.toValue)⟩) ∧
      ∀ (texts rest : List String) (t : String), (PathInput.text t).path? = none →
        (run.2.edit new.1 (.addAll (texts ++ t :: rest))).heap =
          (run.2.edit new.1 (.addAll texts)).heap := by
  intro new run
  obtain ⟨ht, hnone⟩ := pathTree_createGroup h name type typeName validated v
  have hd : new.2.DeclaresSet new.1 ∅ :=
    ⟨ht, fun p => ⟨fun hp => absurd hp (hnone p), fun hp => absurd hp (Finset.notMem_empty p)⟩⟩
  obtain ⟨hrun, hanswers⟩ := editAll_declares edits hd
  refine ⟨represents_of_declares hrun, hanswers, fun input hp => ⟨?_, ?_⟩,
    fun texts rest t ht => ?_⟩
  · rw [edit, addPath_of_path?_eq_none hp]
    rfl
  · rw [edit, removePath_of_path?_eq_none hp]
    rfl
  · exact addPaths_append_cons texts rest ht run.2

end Heap

end AttributeGraph
