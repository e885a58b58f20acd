/-
Groups as text, such as `FetchGroup(team){name, lead{address{city}}}`.

A group shows its items, then those of its super group; an item shows its
primary group, its key group and its other typed groups.  A group that is met
again while it is being shown is cut short.  The groups being shown are marked,
and every mark is taken back when its group is done.
-/
import AttributeGraph.Heap

namespace AttributeGraph

/-- A computation that marks groups; none if it runs out of depth. -/
abbrev Marking (α : Type) := StateT (List GroupId) Option α

namespace Marking

variable {α : Type}

/-- Whether a group is marked. -/
def isMarked (g : GroupId) : Marking Bool := return g ∈ (← get)

/-- Compute with a group marked. -/
def within (g : GroupId) (body : Marking α) : Marking α := do
  modify (g :: ·)
  let a ← body
  modify (·.erase g)
  return a

end Marking

namespace Heap

/-- The items of a group in braces; the marked groups are cut short. -/
def itemsBlock (parts : GroupId → Marking (List String)) (g : GroupId) : Marking String := do
  if ← Marking.isMarked g then
    return "\x7b...\x7d"
  else
    let parts ← Marking.within g (parts g)
    return "\x7b" ++ ", ".intercalate parts ++ "\x7d"

/-- An item with its nested groups, shown by `block`. -/
def itemText (i : Item) (block : GroupId → Marking String) : Marking String := do
  let value ← i.value.primary.toList.mapM block
  let key ← i.key.primary.toList.mapM fun g => return " key" ++ (← block g)
  let others := ((i.value.byType.map (·.entries)).getD []).filter fun e =>
    some e.2 ≠ i.value.primary
  let typed ← others.mapM fun e => return " as " ++ e.1.text ++ (← block e.2)
  return String.join (i.name :: value ++ key ++ typed)

/-- The items of a group and of the groups above it, at most `fuel` groups deep. -/
def itemTexts (h : Heap) : Nat → GroupId → Marking (List String)
  | 0, _ => failure
  | fuel + 1, g => do
    let own ← (h.group g).itemIds.mapM fun i =>
      itemText (h.item i) (itemsBlock (h.itemTexts fuel))
    match (h.group g).above with
    | none => return own
    | some s =>
      if ← Marking.isMarked s then
        return own
      else
        return own ++ (← Marking.within s (h.itemTexts fuel s))

/-- How deep groups can be shown within one another. -/
def renderDepth (h : Heap) : Nat := h.groups.size + 2

/-- The text that a computation without marks gives. -/
def rendered (m : Marking String) : String := ((m.run []).map Prod.fst).getD ""

/-- A group as text. -/
def groupText (h : Heap) (g : GroupId) : String :=
  let v := h.variantOf g
  s!"{v.kind.label}({(h.group g).name}){v.note}" ++
    rendered (itemsBlock (h.itemTexts h.renderDepth) g)

/-- An item as text, without the name of what it is. -/
def shortItemText (h : Heap) (i : ItemId) : String :=
  rendered (itemText (h.item i) (itemsBlock (h.itemTexts h.renderDepth)))

/-- An item as text. -/
def itemLabelText (h : Heap) (i : ItemId) : String :=
  s!"AttributeItem({(h.item i).name})" ++ h.shortItemText i

end Heap

end AttributeGraph
