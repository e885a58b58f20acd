/-
A map that remembers the order in which its keys were first filed.

Filing under a key that is already present keeps the key's place and replaces
the value; a new key goes to the end; erasing a key and filing it again
therefore moves it to the end.  Every answer of this library that lists
attributes, type tags or registrations lists them in this order.

No key occurs twice, and the type says so: `nodup_keys` is a field, and each
operation carries the small lemma that keeps it.  The view of a map is `find?`
together with `keys`; the main statements, `find?_insert`, `keys_insert`,
`find?_erase` and `keys_erase`, say what each operation does to both.
-/

namespace AttributeGraph

/-- Pairs of key and value with distinct keys, oldest key first. -/
structure OrderedMap (κ ν : Type) where
  entries : List (κ × ν)
  /-- No key occurs twice. -/
  nodup_keys : (entries.map Prod.fst).Nodup
deriving DecidableEq

namespace OrderedMap

variable {κ ν μ : Type}

/-- The map that holds nothing. -/
def empty : OrderedMap κ ν := ⟨[], .nil⟩

instance : Inhabited (OrderedMap κ ν) := ⟨empty⟩

/-- The keys, oldest first. -/
def keys (m : OrderedMap κ ν) : List κ := m.entries.map Prod.fst

/-- The values in the order of their keys. -/
def values (m : OrderedMap κ ν) : List ν := m.entries.map Prod.snd

/-- The number of keys. -/
def size (m : OrderedMap κ ν) : Nat := m.entries.length

/-- Whether the map holds nothing. -/
def isEmpty (m : OrderedMap κ ν) : Bool := m.entries.isEmpty

/-! ### Changing the values -/

/-- Replace every value; keys and places stay. -/
def mapValues (f : ν → μ) (m : OrderedMap κ ν) : OrderedMap κ μ where
  entries := m.entries.map fun e => (e.1, f e.2)
  nodup_keys := by simpa [List.map_map, Function.comp_def] using m.nodup_keys

@[simp] theorem keys_mapValues (f : ν → μ) (m : OrderedMap κ ν) :
    (m.mapValues f).keys = m.keys := by
  simp [keys, mapValues, Function.comp_def]

@[simp] theorem values_mapValues (f : ν → μ) (m : OrderedMap κ ν) :
    (m.mapValues f).values = m.values.map f := by
  simp [values, mapValues, Function.comp_def]

variable [DecidableEq κ]

/-! ### Looking up -/

/-- The value filed under a key. -/
def find? (m : OrderedMap κ ν) (k : κ) : Option ν := m.entries.lookup k

/-- Whether something is filed under a key. -/
def contains (m : OrderedMap κ ν) (k : κ) : Bool := (m.find? k).isSome

theorem lookup_isSome_iff (l : List (κ × ν)) (k : κ) :
    (l.lookup k).isSome = true ↔ k ∈ l.map Prod.fst := by
  induction l with
  | nil => simp
  | cons e l ih =>
    obtain ⟨a, b⟩ := e
    by_cases h : k = a
    · simp [h]
    · have hb : (k == a) = false := by simpa using h
      simp only [List.lookup_cons, hb, List.map_cons, List.mem_cons, h, false_or, ih]

/-- Exactly the keys are found. -/
theorem contains_iff (m : OrderedMap κ ν) (k : κ) : m.contains k = true ↔ k ∈ m.keys :=
  lookup_isSome_iff m.entries k

/-! ### Filing -/

/-- File a value: in place when the key is known, at the end when it is new. -/
def fileEntry (k : κ) (v : ν) : List (κ × ν) → List (κ × ν)
  | [] => [(k, v)]
  | e :: rest => if e.1 = k then (k, v) :: rest else e :: fileEntry k v rest

theorem map_fst_fileEntry (k : κ) (v : ν) (l : List (κ × ν)) :
    (fileEntry k v l).map Prod.fst =
      if k ∈ l.map Prod.fst then l.map Prod.fst else l.map Prod.fst ++ [k] := by
  induction l with
  | nil => simp [fileEntry]
  | cons e l ih =>
    by_cases h : e.1 = k
    · simp [fileEntry, h]
    · have h' : ¬ k = e.1 := fun hk => h hk.symm
      by_cases hm : k ∈ l.map Prod.fst
      · rw [if_pos hm] at ih
        simp [fileEntry, h, ih, List.mem_map.1 hm]
      · rw [if_neg hm] at ih
        rw [if_neg (by simp [h', hm])]
        simp [fileEntry, h, ih]

theorem nodup_fileEntry (k : κ) (v : ν) (l : List (κ × ν)) (h : (l.map Prod.fst).Nodup) :
    ((fileEntry k v l).map Prod.fst).Nodup := by
  rw [map_fst_fileEntry]
  by_cases hm : k ∈ l.map Prod.fst
  · rw [if_pos hm]; exact h
  · rw [if_neg hm]
    refine List.nodup_append.2 ⟨h, by simp, ?_⟩
    intro a ha b hb hab
    have hbk : b = k := by simpa using hb
    exact hm (hbk ▸ hab ▸ ha)

theorem lookup_fileEntry (k k' : κ) (v : ν) (l : List (κ × ν)) :
    (fileEntry k v l).lookup k' = if k' = k then some v else l.lookup k' := by
  induction l with
  | nil =>
    by_cases h : k' = k
    · simp [fileEntry, h]
    · have hb : (k' == k) = false := by simpa using h
      simp [fileEntry, List.lookup_cons, hb, h]
  | cons e l ih =>
    obtain ⟨a, b⟩ := e
    by_cases h : a = k
    · by_cases hk : k' = k
      · simp [fileEntry, h, hk]
      · have hb : (k' == k) = false := by simpa using hk
        simp [fileEntry, h, List.lookup_cons, hb, hk]
    · simp only [fileEntry, if_neg h, List.lookup_cons, ih]
      by_cases hk : k' = a
      · simp [hk, h]
      · have hb : (k' == a) = false := by simpa using hk
        simp [hb]

/-- File a value under a key. -/
def insert (m : OrderedMap κ ν) (k : κ) (v : ν) : OrderedMap κ ν where
  entries := fileEntry k v m.entries
  nodup_keys := nodup_fileEntry k v m.entries m.nodup_keys

@[simp] theorem find?_insert (m : OrderedMap κ ν) (k k' : κ) (v : ν) :
    (m.insert k v).find? k' = if k' = k then some v else m.find? k' :=
  lookup_fileEntry k k' v m.entries

/-- A known key keeps its place, a new one goes to the end. -/
theorem keys_insert (m : OrderedMap κ ν) (k : κ) (v : ν) :
    (m.insert k v).keys = if k ∈ m.keys then m.keys else m.keys ++ [k] :=
  map_fst_fileEntry k v m.entries

/-- File all pairs in order, a later value replacing an earlier one of the same key. -/
def ofList (l : List (κ × ν)) : OrderedMap κ ν :=
  l.foldl (fun m e => m.insert e.1 e.2) empty

/-! ### Erasing -/

/-- Forget a key and its value. -/
def erase (m : OrderedMap κ ν) (k : κ) : OrderedMap κ ν where
  entries := m.entries.filter fun e => e.1 ≠ k
  nodup_keys := (List.filter_sublist.map Prod.fst).nodup m.nodup_keys

theorem lookup_filter_ne (k k' : κ) (l : List (κ × ν)) :
    (l.filter fun e => e.1 ≠ k).lookup k' = if k' = k then none else l.lookup k' := by
  induction l with
  | nil => simp
  | cons e l ih =>
    obtain ⟨a, b⟩ := e
    by_cases h : a = k
    · by_cases hk : k' = k
      · simpa [h, hk] using ih
      · have hb : (k' == k) = false := by simpa using hk
        simpa [h, hk, List.lookup_cons, hb] using ih
    · by_cases hk : k' = a
      · simp [h, hk]
      · have hb : (k' == a) = false := by simpa using hk
        simpa [h, List.lookup_cons, hb] using ih

@[simp] theorem find?_erase (m : OrderedMap κ ν) (k k' : κ) :
    (m.erase k).find? k' = if k' = k then none else m.find? k' :=
  lookup_filter_ne k k' m.entries

theorem keys_erase (m : OrderedMap κ ν) (k : κ) :
    (m.erase k).keys = m.keys.filter fun k' => k' ≠ k := by
  simp [keys, erase, List.filter_map, Function.comp_def]

end OrderedMap

end AttributeGraph
