/-
A set that remembers the order in which its members were first added.

Adding a member again keeps its place; erasing it and adding it again moves it
to the end.  The view of a set is its list of members, which never holds one
twice; `toList_insert` and `toList_erase` say what the two operations do to it.
-/

namespace AttributeGraph

/-- Distinct members, oldest first. -/
structure OrderedSet (α : Type) where
  toList : List α
  /-- No member occurs twice. -/
  nodup : toList.Nodup
deriving DecidableEq

namespace OrderedSet

variable {α β : Type}

/-- The set without members. -/
def empty : OrderedSet α := ⟨[], List.nodup_nil⟩

instance : Inhabited (OrderedSet α) := ⟨empty⟩

/-- Whether the set has no members. -/
def isEmpty (s : OrderedSet α) : Bool := s.toList.isEmpty

/-- The number of members. -/
def size (s : OrderedSet α) : Nat := s.toList.length

instance : Membership α (OrderedSet α) := ⟨fun s a => a ∈ s.toList⟩

theorem mem_def (a : α) (s : OrderedSet α) : a ∈ s ↔ a ∈ s.toList := Iff.rfl

variable [DecidableEq α]

instance (a : α) (s : OrderedSet α) : Decidable (a ∈ s) :=
  inferInstanceAs (Decidable (a ∈ s.toList))

/-- Add a member at the end unless it is present. -/
def insert (s : OrderedSet α) (a : α) : OrderedSet α :=
  if h : a ∈ s.toList then s
  else
    { toList := s.toList ++ [a]
      nodup := List.nodup_append.2 ⟨s.nodup, by simp, by
        intro x hx y hy hxy
        have hya : y = a := by simpa using hy
        exact h (hya ▸ hxy ▸ hx)⟩ }

theorem toList_insert (s : OrderedSet α) (a : α) :
    (s.insert a).toList = if a ∈ s.toList then s.toList else s.toList ++ [a] := by
  unfold insert
  split <;> rfl

@[simp] theorem mem_insert (s : OrderedSet α) (a b : α) : b ∈ s.insert a ↔ b ∈ s ∨ b = a := by
  simp only [mem_def, toList_insert]
  split
  · rename_i h
    constructor
    · exact Or.inl
    · intro hb
      rcases hb with hb | rfl
      · exact hb
      · exact h
  · simp

/-- Forget a member. -/
def erase (s : OrderedSet α) (a : α) : OrderedSet α where
  toList := s.toList.filter fun b => b ≠ a
  nodup := List.filter_sublist.nodup s.nodup

theorem toList_erase (s : OrderedSet α) (a : α) :
    (s.erase a).toList = s.toList.filter fun b => b ≠ a := rfl

@[simp] theorem mem_erase (s : OrderedSet α) (a b : α) : b ∈ s.erase a ↔ b ∈ s ∧ b ≠ a := by
  simp [mem_def, toList_erase]

/-- The distinct members of a list, in order of first occurrence. -/
def ofList (l : List α) : OrderedSet α := l.foldl insert empty

/-- The set of the images, in order of first occurrence. -/
def map [DecidableEq β] (f : α → β) (s : OrderedSet α) : OrderedSet β := ofList (s.toList.map f)

end OrderedSet

end AttributeGraph
