/-
Names of attributes in descriptions.

The grammar gives the names of attributes as a pattern: a character that is no dot and no blank, and
behind it nothing, or more of a text without dots that ends in such a character.  A text of this
form is a path of which it is the only segment, and no other text is.  The search for a match, the
check that the reader makes, and cutting and trimming by character or by code unit all come to the
same (`names_read_as_paths`).

Building takes the names of a description as they are.  It may, because looking them up as paths
leads to the same items, and the items of what has been restored bear the names that the
description gives (`Heap.namedBy_restored`).
-/
import AttributeGraph.Description.Schema
import AttributeGraph.Proofs.Acceptance
import AttributeGraph.Proofs.CodeUnits
import AttributeGraph.Proofs.Matching
import AttributeGraph.Proofs.Untangled

namespace AttributeGraph

open Text

/-! ### The pattern -/

/-- A name that does not match is reported with the pattern. -/
theorem message_badPattern :
    Violation.badPattern.message = "must match pattern \"" ++ namePattern.toText ++ "\"" := by
  decide

/-- A character that can stand at an end of a name. -/
def IsEnd (c : Char) : Prop := c ≠ '.' ∧ isBlank c = false

/-- A text begins and ends with such characters, or is a single one, and has no dot in between. -/
def HasEnds (cs : List Char) : Prop :=
  ∃ c rest, cs = c :: rest ∧ IsEnd c ∧
    (rest = [] ∨ ∃ front last, rest = front ++ [last] ∧ '.' ∉ front ∧ IsEnd last)

section Ends

variable {s : String} {c : Char} {total : Nat} {cs rest : List Char}

theorem isEnd_iff : IsEnd c ↔ ∀ i ∈ [ClassItem.dot, .blank], i.has c = false := by
  simp [IsEnd, ClassItem.has]

theorem isAttributeName_iff_hasEnds : isAttributeName s = true ↔ HasEnds s.toList := by
  unfold isAttributeName HasEnds IsEnd
  cases s.toList with
  | nil => simp
  | cons c rest =>
    rcases List.eq_nil_or_concat' rest with rfl | ⟨front, last, rfl⟩
    · simp
    · have hdots : (∀ d ∈ front, d ≠ '.') ↔ '.' ∉ front :=
        ⟨fun hfront hdot => hfront _ hdot rfl, fun hdot d hd heq => hdot (heq ▸ hd)⟩
      simp [hdots]

theorem leaves_end_iff :
    (Pattern.noneOf [.dot, .blank]).Leaves total cs rest ↔ ∃ c, cs = c :: rest ∧ IsEnd c := by
  simp only [Pattern.Leaves, isEnd_iff]

theorem leaves_rest_iff :
    (Pattern.seq (.many (.noneOf [.dot])) (.noneOf [.dot, .blank])).Leaves total cs rest ↔
      ∃ front last, cs = front ++ last :: rest ∧ '.' ∉ front ∧ IsEnd last := by
  constructor
  · rintro ⟨mid, hfront, hlast⟩
    obtain ⟨front, rfl, hdots⟩ := Pattern.leaves_many_noneOf_iff.1 hfront
    obtain ⟨last, rfl, hend⟩ := leaves_end_iff.1 hlast
    refine ⟨front, last, rfl, fun hdot => ?_, hend⟩
    cases hdots '.' hdot .dot (List.mem_singleton_self _)
  · rintro ⟨front, last, rfl, hdots, hend⟩
    refine ⟨last :: rest, Pattern.leaves_many_noneOf_iff.2 ⟨front, rfl, fun c hc i hi => ?_⟩,
      leaves_end_iff.2 ⟨last, rfl, hend⟩⟩
    rw [List.mem_singleton.1 hi]
    exact decide_eq_false fun hdot => hdots (hdot ▸ hc)

theorem test_namePattern_iff_hasEnds : namePattern.test s = true ↔ HasEnds s.toList := by
  rw [namePattern, Pattern.test_seq_start_iff]
  constructor
  · rintro ⟨_, mid, hfirst, _, hrest, rfl, rfl⟩
    obtain ⟨c, hcs, hc⟩ := leaves_end_iff.1 hfirst
    refine ⟨c, mid, hcs, hc, ?_⟩
    rcases hrest with hmid | hrest
    · exact .inl hmid.symm
    · exact .inr (leaves_rest_iff.1 hrest)
  · rintro ⟨c, mid, hcs, hc, hrest⟩
    refine ⟨[], mid, leaves_end_iff.2 ⟨c, hcs, hc⟩, [], ?_, rfl, rfl⟩
    rcases hrest with rfl | hrest
    · exact .inl rfl
    · exact .inr (leaves_rest_iff.2 hrest)

/-- **The reader checks names by their pattern.** -/
theorem test_namePattern (s : String) : namePattern.test s = isAttributeName s :=
  Bool.eq_iff_iff.2 (test_namePattern_iff_hasEnds.trans isAttributeName_iff_hasEnds.symm)

end Ends

/-! ### Paths of one segment -/

/-- The text of a segment is the path of that segment, and no other text is read as a path of which
it is the only segment. -/
theorem Path.exists_single_iff {s : String} :
    (∃ p, Path.parse (.text s) = .ok p ∧ p.segments = [s]) ↔ IsSegment s := by
  constructor
  · rintro ⟨p, -, hp⟩
    have hvalid : ∀ n ∈ p.segments, IsSegment n := p.valid
    rw [hp] at hvalid
    exact hvalid s (List.mem_singleton_self s)
  · exact fun hs => ⟨_, parse_of_isSegment hs, rfl⟩

theorem readUnits_single_iff {s : String} : readUnits (units s.toList) = some [units s.toList] ↔
    ∃ p, Path.parse (.text s) = .ok p ∧ p.segments = [s] := by
  have hinj : Function.Injective fun n : String => units n.toList :=
    units_injective.comp fun _ _ => String.toList_inj.1
  rw [Path.readUnits_units]
  constructor
  · intro hread
    obtain ⟨p, hp, hsegments⟩ := Option.map_eq_some_iff.1 hread
    refine ⟨p, ?_, (List.map_injective_iff.2 hinj) hsegments⟩
    cases hparse : Path.parse (.text s) with
    | ok q =>
      rw [hparse] at hp
      rw [Option.some.inj hp]
    | error e =>
      rw [hparse] at hp
      cases hp
  · rintro ⟨p, hp, hsegments⟩
    rw [hp]
    exact congrArg (fun l => some (l.map fun n : String => units n.toList)) hsegments

/-! ### Names of what has been restored -/

namespace Description

variable {d e : Description} {P : Description → Prop}

/-- A description is another one or nested in it. -/
inductive Inside (d : Description) : Description → Prop
  | self : Inside d d
  | nested {e c : Description} {a : String × NestedDescription} {side : Side} (he : Inside d e)
      (ha : a ∈ e.fields) (hc : c ∈ a.2.groups side) : Inside d c

/-- What holds everywhere holds of all that is inside. -/
theorem Everywhere.of_inside (hd : d.Everywhere P) (he : d.Inside e) : e.Everywhere P := by
  induction he with
  | self => exact hd
  | nested _ ha hc ih =>
    obtain ⟨-, hnested⟩ := ih
    exact hnested _ ha _ _ hc

theorem Everywhere.here (hd : d.Everywhere P) : P d := by
  obtain ⟨hhere, -⟩ := hd
  exact hhere

/-- A description is inside of itself, everywhere. -/
theorem Everywhere.inside (hd : d.Everywhere P) : d.Everywhere d.Inside := by
  have hall : ∀ e, e.Everywhere P → d.Inside e → e.Everywhere d.Inside := by
    intro e he
    induction he with
    | intro _ _ ih =>
      exact fun hin => .intro hin fun a ha side c hc => ih a ha side c hc (.nested hin ha hc)
  exact hall d hd .self

end Description

namespace Heap

variable {base F h : Heap} {x y : GroupId} {d : Description}

/-- The names of the items of a group itself. -/
def itemNames (h : Heap) (g : GroupId) : List String :=
  (h.group g).itemIds.map fun i => (h.item i).name

/-- The items of a group are named as a description says, and so are those of all groups below it,
each by the group itself or by one that is nested in it. -/
def NamedBy (h : Heap) (g : GroupId) (d : Description) : Prop :=
  h.itemNames g = d.fields.map Prod.fst ∧
    ∀ x, h.Within g x → ∃ e, d.Inside e ∧ h.itemNames x = e.fields.map Prod.fst

/-- The items of a built group are named as the description says, in the same order. -/
theorem Built.itemNames_eq (hy : Built base F y d) : F.itemNames y = d.fields.map Prod.fst := by
  rw [itemNames, Group.itemIds, OrderedMap.values, List.map_map]
  exact (map_eq_of_forall₂ (fun a e ha => ha.2.name.symm) hy.group.items).symm

theorem Retyped.itemNames (hretyped : Retyped h F) (x : GroupId) :
    F.itemNames x = h.itemNames x := by
  rw [Heap.itemNames, Heap.itemNames, hretyped.itemIds]
  exact List.map_congr_left fun i _ => hretyped.itemName i

section Restored

variable {input v : Value} {options : RawOptions} {resolver : Option Resolver}
  (hinput : input.Regular) (hread : Description.read input = .ok (v, d))

include hinput hread

/-- Whatever is accepted is built, unless the root names a super type. -/
theorem exists_answer {o : Options} (ho : options.resolve = .ok o)
    (hdefer : o.restore.resolvesNames = false) (hsuper : d.superTypeName = none) (h : Heap)
    (resolver : Option Resolver) : ∃ y, (h.restore input options resolver).answer = .ok y := by
  obtain ⟨-, hparsed⟩ := Description.sameGroup_of_read hinput hread
  obtain ⟨y, F, ds, hrun, -⟩ := exists_made (fun s => hparsed.makes s) h o.hierarchy
  rw [restore_deferred ho hread hsuper hrun hdefer]
  exact ⟨y, rfl⟩

/-- **What has been restored has the items that the description names**, group by group. -/
theorem namedBy_restored (hanswer : (h.restore input options resolver).answer = .ok y) :
    (h.restore input options resolver).heap.NamedBy y d := by
  obtain ⟨o, F, ds, -, hrun, hretyped⟩ := exists_of_restore hread hanswer
  obtain ⟨-, hparsed⟩ := Description.sameGroup_of_read hinput hread
  obtain ⟨y', F', ds', hrun', -, hmade⟩ := exists_made (fun s => hparsed.makes s) h o.hierarchy
  obtain ⟨rfl, heq⟩ := Prod.mk.inj (hrun.symm.trans hrun')
  obtain ⟨rfl, -⟩ := Restoration.mk.inj heq
  have hbuilt := hmade.built F (.refl F)
  unfold NamedBy
  simp only [hretyped.itemNames]
  refine ⟨hbuilt.itemNames_eq, fun x hx => ?_⟩
  obtain ⟨e, he, hbuilt⟩ := hbuilt.within hparsed.inside (hretyped.within hx)
  exact ⟨e, he.here, hbuilt.itemNames_eq⟩

end Restored

end Heap

/-! ### Names and paths -/

/-- **A text is a name of the grammar just if it is a path whose only segment is the text.**  The
reader's check and reading by code unit tell the same.  So no name in a description that is
accepted is cut or refused as a path: it leads to an item of the group itself, the description is
built, and what is restored has items of these names. -/
theorem names_read_as_paths :
    Violation.badPattern.message = "must match pattern \"" ++ namePattern.toText ++ "\"" ∧
    (∀ s : String,
      (namePattern.test s = true ↔ ∃ p, Path.parse (.text s) = .ok p ∧ p.segments = [s]) ∧
      namePattern.test s = isAttributeName s ∧
      (namePattern.test s = true ↔ readUnits (units s.toList) = some [units s.toList])) ∧
    ∀ (input v : Value) (d : Description), input.Regular → Description.read input = .ok (v, d) →
      (∀ e, d.Inside e →
        (∀ a ∈ e.fields, namePattern.test a.1 = true) ∧ Heap.LeadsToItems e) ∧
      ∀ (h : Heap) (options : RawOptions) (o : Options) (resolver : Option Resolver),
        options.resolve = .ok o →
        let restored := h.restore input options resolver
        (d.superTypeName = none → o.restore.resolvesNames = false →
          ∃ y, restored.answer = .ok y) ∧
        ∀ y, restored.answer = .ok y → restored.heap.NamedBy y d := by
  have htest : ∀ s, namePattern.test s = true ↔ IsSegment s := fun s => by
    rw [test_namePattern]
    exact isAttributeName_iff
  refine ⟨message_badPattern, fun s => ⟨?_, test_namePattern s, ?_⟩, fun input v d hinput hread =>
    ⟨fun e he => ?_, fun h options o resolver ho => ⟨fun hsuper hdefer => ?_, fun y => ?_⟩⟩⟩
  · exact (htest s).trans Path.exists_single_iff.symm
  · rw [readUnits_single_iff, htest, Path.exists_single_iff]
  · obtain ⟨-, hparsed⟩ := Description.sameGroup_of_read hinput hread
    have hinside := hparsed.of_inside he
    refine ⟨fun a ha => ?_, (Heap.leadsToItems_of_parsed hinside).here⟩
    rw [test_namePattern]
    exact hinside.here.allowed a ha
  · exact Heap.exists_answer hinput hread ho hdefer hsuper h resolver
  · exact Heap.namedBy_restored hinput hread

/-- A parcel with a weight and a place that it goes to, whose name has a line break. -/
def parcel : Value :=
  .object [
    ("name", .text "parcel"),
    ("attributes", .object [
      ("net weight", .object []),
      ("ship\nto", .object [
        ("group", .object [
          ("name", .text "address"),
          ("attributes", .object [("c/o", .object [])])])])])]

/-- What the parcel is read as. -/
def parcelDescription : Description :=
  { name := "parcel"
    attributes := some [
      ("net weight", {}),
      ("ship\nto", { group := some { name := "address", attributes := some [("c/o", {})] } })] }

/-- The names of the parcel are paths of one segment, and its items bear them; a name with a dot
would be a path of two. -/
theorem names_read_as_paths_parcel :
    let restored := Heap.empty.restore parcel {} none
    parcel.Regular ∧ Description.read parcel = .ok (parcel, parcelDescription) ∧
    (∃ p, Path.parse (.text "ship\nto") = .ok p ∧ p.segments = ["ship\nto"]) ∧
    (¬ ∃ p, Path.parse (.text "ship.to") = .ok p ∧ p.segments = ["ship.to"]) ∧
    readUnits (units "ship.to".toList) = some [units "ship".toList, units "to".toList] ∧
    ∃ y, restored.answer = .ok y ∧ restored.heap.itemNames y = ["net weight", "ship\nto"] := by
  intro restored
  have hregular : parcel.Regular := by decide +kernel
  have hread : Description.read parcel = .ok (parcel, parcelDescription) := rfl
  have hoptions : ({} : RawOptions).resolve = .ok {} := rfl
  obtain ⟨-, htexts, hinputs⟩ := names_read_as_paths
  obtain ⟨-, hrestored⟩ := hinputs parcel parcel parcelDescription hregular hread
  obtain ⟨hbuilt, hnamed⟩ := hrestored .empty {} {} none hoptions
  obtain ⟨y, hanswer⟩ := hbuilt rfl rfl
  refine ⟨hregular, hread, (htexts "ship\nto").1.1 (by decide +kernel), fun hpath => ?_,
    by decide +kernel, y, hanswer, (hnamed y hanswer).1⟩
  have hmatch := (htexts "ship.to").1.2 hpath
  exact absurd hmatch (by decide +kernel)

end AttributeGraph
