/-
Ordered maps and sets that are filled from a list.

What is filed under a new key goes to the end, so a list with distinct keys is
filed as it stands.  Two maps with as many keys, all of the first being keys of
the second, have the same keys.
-/
import AttributeGraph.OrderedMap
import AttributeGraph.OrderedSet
import Mathlib.Data.List.Induction
import Mathlib.Data.List.Nodup
import Mathlib.Data.List.Perm.Subperm

namespace AttributeGraph

namespace OrderedSet

variable {α β : Type} [DecidableEq α]

theorem toList_foldl_insert : ∀ (l : List α) (s : OrderedSet α), (s.toList ++ l).Nodup →
    (l.foldl insert s).toList = s.toList ++ l := by
  intro l
  induction l with
  | nil => intro s _; simp
  | cons a l ih =>
    intro s hs
    have ha : a ∉ s.toList := fun h => (List.nodup_append.1 hs).2.2 a h a List.mem_cons_self rfl
    have hsa : (s.insert a).toList = s.toList ++ [a] := by rw [toList_insert, if_neg ha]
    rw [List.foldl_cons, ih (s.insert a) (by rw [hsa]; simpa using hs), hsa]
    simp

/-- Distinct members keep their order. -/
theorem toList_ofList {l : List α} (hl : l.Nodup) : (ofList l).toList = l :=
  toList_foldl_insert l empty (by simpa [empty] using hl)

theorem mem_foldl_insert (a : α) : ∀ (l : List α) (s : OrderedSet α),
    a ∈ l.foldl insert s ↔ a ∈ s ∨ a ∈ l := by
  intro l
  induction l with
  | nil => intro s; simp
  | cons b l ih => intro s; rw [List.foldl_cons, ih, mem_insert, List.mem_cons, or_assoc]

@[simp] theorem mem_ofList {a : α} {l : List α} : a ∈ (ofList l).toList ↔ a ∈ l := by
  have := mem_foldl_insert a l empty
  simpa [ofList, mem_def, empty] using this

/-- Images that are distinct keep the order of the members. -/
theorem toList_map {f : β → α} {s : OrderedSet β}
    (hf : ∀ a ∈ s.toList, ∀ b ∈ s.toList, f a = f b → a = b) :
    (s.map f).toList = s.toList.map f :=
  toList_ofList (List.Nodup.map_on hf s.nodup)

end OrderedSet

namespace OrderedMap

variable {κ ν ν' : Type}

theorem entries_injective : Function.Injective (entries : OrderedMap κ ν → List (κ × ν)) := by
  rintro ⟨l, hl⟩ ⟨l', hl'⟩ heq
  cases heq
  rfl

/-- As many keys, all of them known to the other map, are all keys of the other map. -/
theorem mem_keys_of_subset {m : OrderedMap κ ν} {n : OrderedMap κ ν'}
    (hsize : m.size = n.size) (hsub : ∀ k ∈ m.keys, k ∈ n.keys) {k : κ} (hk : k ∈ n.keys) :
    k ∈ m.keys := by
  have hlen : n.keys.length ≤ m.keys.length := by
    simp only [keys, List.length_map]
    exact Nat.le_of_eq hsize.symm
  have hperm : m.keys.Perm n.keys :=
    (List.subperm_of_subset m.nodup_keys hsub).perm_of_length_le hlen
  exact hperm.mem_iff.2 hk

/-- Maps with the same keys have as many. -/
theorem size_eq_of_keys {m : OrderedMap κ ν} {n : OrderedMap κ ν'}
    (h : ∀ k, k ∈ m.keys ↔ k ∈ n.keys) : m.size = n.size := by
  have hperm : m.keys.Perm n.keys := (List.perm_ext_iff_of_nodup m.nodup_keys n.nodup_keys).2 h
  simpa [size, keys] using hperm.length_eq

variable [DecidableEq κ]

theorem fileEntry_of_not_mem {k : κ} (v : ν) : ∀ {l : List (κ × ν)}, k ∉ l.map Prod.fst →
    fileEntry k v l = l ++ [(k, v)] := by
  intro l
  induction l with
  | nil => intro _; rfl
  | cons e l ih =>
    intro hk
    rw [List.map_cons, List.mem_cons, not_or] at hk
    rw [fileEntry, if_neg fun h => hk.1 h.symm, ih hk.2, List.cons_append]

theorem entries_foldl_insert : ∀ (l : List (κ × ν)) (m : OrderedMap κ ν),
    ((m.entries ++ l).map Prod.fst).Nodup →
    (l.foldl (fun m e => m.insert e.1 e.2) m).entries = m.entries ++ l := by
  intro l
  induction l with
  | nil => intro m _; simp
  | cons e l ih =>
    intro m hm
    have he : e.1 ∉ m.entries.map Prod.fst := by
      rw [List.map_append] at hm
      exact fun h => (List.nodup_append.1 hm).2.2 _ h e.1 (by simp) rfl
    have hme : (m.insert e.1 e.2).entries = m.entries ++ [e] := fileEntry_of_not_mem e.2 he
    rw [List.foldl_cons, ih (m.insert e.1 e.2) (by rw [hme]; simpa using hm), hme]
    simp

/-- Pairs with distinct keys keep their order. -/
theorem entries_ofList {l : List (κ × ν)} (hl : (l.map Prod.fst).Nodup) :
    (ofList l).entries = l :=
  entries_foldl_insert l empty (by simpa [empty] using hl)

/-- The pairs of a map with other values are those of the map with the values replaced. -/
theorem ofList_mapValues (m : OrderedMap κ ν) (φ : ν → ν') :
    ofList (m.entries.map fun e => (e.1, φ e.2)) = m.mapValues φ :=
  entries_injective (entries_ofList (m.mapValues φ).nodup_keys)

section Rename

variable {κ' : Type} [DecidableEq κ'] {f : κ → κ'} (hf : Function.Injective f)

include hf

theorem fileEntry_map (k : κ) (v : ν) (l : List (κ × ν)) :
    fileEntry (f k) v (l.map (Prod.map f id)) = (fileEntry k v l).map (Prod.map f id) := by
  induction l with
  | nil => rfl
  | cons e l ih =>
    rw [List.map_cons, fileEntry, fileEntry, Prod.map_fst]
    by_cases hk : e.1 = k
    · rw [if_pos hk, if_pos (congrArg f hk)]
      rfl
    · rw [if_neg hk, if_neg fun h => hk (hf h), ih]
      rfl

/-- Other names for the keys do not change which values are filed, nor where. -/
theorem values_foldl_insert_map : ∀ (l : List (κ × ν)) {m : OrderedMap κ ν}
    {m' : OrderedMap κ' ν}, m'.entries = m.entries.map (Prod.map f id) →
    ((l.map (Prod.map f id)).foldl (fun m e => m.insert e.1 e.2) m').values =
      (l.foldl (fun m e => m.insert e.1 e.2) m).values := by
  intro l
  induction l with
  | nil =>
    intro m m' hm
    rw [List.map_nil, List.foldl_nil, List.foldl_nil, values, values, hm, List.map_map]
    rfl
  | cons e l ih =>
    intro m m' hm
    refine ih (m := m.insert e.1 e.2) ?_
    show fileEntry (f e.1) e.2 m'.entries = _
    rw [hm, fileEntry_map hf]
    rfl

theorem values_ofList_map (l : List (κ × ν)) :
    (ofList (l.map (Prod.map f id))).values = (ofList l).values :=
  values_foldl_insert_map hf l rfl

end Rename

/-- A pair of the map is found under its key. -/
theorem find?_eq_some_iff {m : OrderedMap κ ν} {k : κ} {v : ν} :
    m.find? k = some v ↔ (k, v) ∈ m.entries := by
  obtain ⟨l, hl⟩ := m
  simp only [find?]
  induction l with
  | nil => simp
  | cons e l ih =>
    obtain ⟨a, b⟩ := e
    rw [List.map_cons, List.nodup_cons] at hl
    by_cases hk : k = a
    · subst hk
      have hv : (k, v) ∉ l := fun hw => hl.1 (List.mem_map.2 ⟨_, hw, rfl⟩)
      simp [hv, eq_comm]
    · have hb : (k == a) = false := by simpa using hk
      simp [List.lookup_cons, hb, hk, ih hl.2]

/-- The pairs of a map are its keys in order, with what is found under them. -/
theorem entries_eq (m : OrderedMap κ ν) :
    m.entries = m.keys.filterMap fun k => (m.find? k).map (Prod.mk k) := by
  have hfound : ∀ e ∈ m.entries,
      ((fun k => (m.find? k).map (Prod.mk k)) ∘ Prod.fst) e = some e := by
    intro e he
    rw [Function.comp_apply, find?_eq_some_iff.2 he]
    rfl
  rw [keys, List.filterMap_map, List.filterMap_congr hfound, List.filterMap_some]

/-- Maps with the same keys in the same order are equal if the same is found under each key. -/
theorem eq_iff_of_keys {m n : OrderedMap κ ν} (hkeys : m.keys = n.keys) :
    m = n ↔ ∀ k, m.find? k = n.find? k := by
  constructor
  · intro heq k
    rw [heq]
  · intro hfind
    refine entries_injective ?_
    rw [entries_eq m, entries_eq n, hkeys]
    simp only [hfind]

theorem find?_eq_none_iff {m : OrderedMap κ ν} {k : κ} : m.find? k = none ↔ k ∉ m.keys := by
  rw [← contains_iff, contains, Bool.not_eq_true, Option.isSome_eq_false_iff,
    Option.isNone_iff_eq_none]

theorem mem_keys_of_find? {m : OrderedMap κ ν} {k : κ} {v : ν} (h : m.find? k = some v) :
    k ∈ m.keys := by
  rw [← contains_iff, contains, h]
  rfl

theorem exists_find?_of_mem_keys {m : OrderedMap κ ν} {k : κ} (hk : k ∈ m.keys) :
    ∃ v, m.find? k = some v :=
  Option.isSome_iff_exists.1 ((m.contains_iff k).2 hk)

theorem mem_values {m : OrderedMap κ ν} {v : ν} : v ∈ m.values ↔ ∃ k, m.find? k = some v := by
  simp [values, find?_eq_some_iff]

/-- A value that is filed is the only one that may not have been there before. -/
theorem mem_values_insert {m : OrderedMap κ ν} {k : κ} {v w : ν} (hw : w ∈ (m.insert k v).values) :
    w = v ∨ w ∈ m.values := by
  obtain ⟨l, hl⟩ := mem_values.1 hw
  rw [find?_insert] at hl
  by_cases hlk : l = k
  · rw [if_pos hlk] at hl
    exact .inl (Option.some.inj hl).symm
  · rw [if_neg hlk] at hl
    exact .inr (mem_values.2 ⟨l, hl⟩)

/-- A value that is filed under a new key is added to the others. -/
theorem mem_values_insert_of_new {m : OrderedMap κ ν} {k : κ} {v w : ν} (hk : m.find? k = none) :
    w ∈ (m.insert k v).values ↔ w = v ∨ w ∈ m.values := by
  refine ⟨mem_values_insert, ?_⟩
  rintro (rfl | hw)
  · exact mem_values.2 ⟨k, by rw [find?_insert, if_pos rfl]⟩
  · obtain ⟨l, hl⟩ := mem_values.1 hw
    have hlk : l ≠ k := by
      rintro rfl
      rw [hk] at hl
      cases hl
    exact mem_values.2 ⟨l, by rw [find?_insert, if_neg hlk, hl]⟩

/-- What is left of a map was there before. -/
theorem mem_values_erase {m : OrderedMap κ ν} {k : κ} {w : ν} (hw : w ∈ (m.erase k).values) :
    w ∈ m.values := by
  obtain ⟨l, hl⟩ := mem_values.1 hw
  rw [find?_erase] at hl
  by_cases hlk : l = k
  · rw [if_pos hlk] at hl
    cases hl
  · rw [if_neg hlk] at hl
    exact mem_values.2 ⟨l, hl⟩

theorem find?_mapValues {μ : Type} (f : ν → μ) (m : OrderedMap κ ν) (k : κ) :
    (m.mapValues f).find? k = (m.find? k).map f := by
  simp only [find?, mapValues]
  induction m.entries with
  | nil => rfl
  | cons e l ih =>
    rw [List.map_cons, List.lookup_cons, List.lookup_cons]
    cases k == e.1 with
    | true => rfl
    | false => exact ih

/-- Of pairs that are filed in order the last one with a key is found. -/
theorem find?_foldl_insert (k : κ) : ∀ (l : List (κ × ν)) (m : OrderedMap κ ν),
    (l.foldl (fun m e => m.insert e.1 e.2) m).find? k = (l.reverse.lookup k).or (m.find? k) := by
  intro l
  induction l with
  | nil => exact fun m => rfl
  | cons e l ih =>
    intro m
    rw [List.foldl_cons, ih, find?_insert, List.reverse_cons, List.lookup_append, Option.or_assoc]
    by_cases hk : k = e.1
    · rw [if_pos hk, hk, List.lookup_cons_self, Option.some_or]
    · have hne : (k == e.1) = false := by simpa using hk
      rw [if_neg hk, List.lookup_cons, hne]
      rfl

theorem keys_foldl_insert : ∀ (l : List (κ × ν)) (m : OrderedMap κ ν),
    (l.foldl (fun m e => m.insert e.1 e.2) m).keys =
      m.keys ++ ((l.map Prod.fst).filter (· ∉ m.keys)).eraseDups := by
  intro l
  induction l with
  | nil => exact fun m => (List.append_nil m.keys).symm
  | cons e l ih =>
    intro m
    rw [List.foldl_cons, ih, keys_insert, List.map_cons]
    by_cases he : e.1 ∈ m.keys
    · rw [if_pos he, List.filter_cons_of_neg (by simpa using he)]
    · rw [if_neg he, List.filter_cons_of_pos (by simpa using he), List.eraseDups_cons,
        List.filter_filter, List.append_assoc, List.singleton_append]
      simp only [List.mem_append, List.mem_singleton, not_or, Bool.decide_and, Bool.and_comm,
        decide_not, beq_eq_decide]

/-- The keys of a map that is made from pairs stand where they first do among the pairs. -/
theorem keys_ofList (l : List (κ × ν)) : (ofList l).keys = (l.map Prod.fst).eraseDups := by
  rw [ofList, keys_foldl_insert]
  simp [keys, empty]

theorem lookup_map_pair {α : Type} (f : α → κ) (g : α → ν) (k : κ) (l : List α) :
    (l.map fun a => (f a, g a)).lookup k = (l.find? fun a => f a = k).map g := by
  induction l with
  | nil => rfl
  | cons a l ih =>
    rw [List.map_cons, List.lookup_cons, List.find?_cons, ih]
    by_cases hk : f a = k
    · simp [hk]
    · have hne : (k == f a) = false := by simpa using Ne.symm hk
      simp [hk, hne]

/-- Of things that are filed in order the last one with a key is found. -/
theorem find?_ofList_map {α : Type} (f : α → κ) (g : α → ν) (k : κ) (l : List α) :
    (ofList (l.map fun a => (f a, g a))).find? k = (l.reverse.find? fun a => f a = k).map g := by
  rw [ofList, find?_foldl_insert, ← List.map_reverse, lookup_map_pair]
  exact Option.or_none

/-- What a map that is made from pairs finds is one of the pairs. -/
theorem mem_of_find?_ofList {k : κ} {v : ν} {l : List (κ × ν)} (hv : (ofList l).find? k = some v) :
    (k, v) ∈ l := by
  rw [ofList, find?_foldl_insert] at hv
  obtain hv | ⟨-, hno⟩ := Option.or_eq_some_iff.1 hv
  · obtain ⟨before, after, heq, -⟩ := List.lookup_eq_some_iff.1 hv
    rw [← List.mem_reverse, heq]
    exact List.mem_append_right before List.mem_cons_self
  · cases hno

/-- The values of a map that is made from pairs come from the pairs. -/
theorem mem_values_ofList {w : ν} {l : List (κ × ν)} (hw : w ∈ (ofList l).values) :
    w ∈ l.map Prod.snd := by
  obtain ⟨k, hk⟩ := mem_values.1 hw
  exact List.mem_map.2 ⟨_, mem_of_find?_ofList hk, rfl⟩

/-- Filing one map on top of another one finds what the first one has, else what the other has. -/
theorem find?_foldl_entries (m n : OrderedMap κ ν) (k : κ) :
    (n.entries.foldl (fun m e => m.insert e.1 e.2) m).find? k = (n.find? k).or (m.find? k) := by
  have hnodup : (n.entries.reverse.map Prod.fst).Nodup := by
    rw [List.map_reverse, List.nodup_reverse]
    exact n.nodup_keys
  have hlookup : n.entries.reverse.lookup k = n.find? k := by
    ext v
    rw [find?_eq_some_iff, ← List.mem_reverse]
    exact find?_eq_some_iff (m := ⟨n.entries.reverse, hnodup⟩)
  rw [find?_foldl_insert, hlookup]

theorem eraseDups_of_nodup {l : List κ} (hl : l.Nodup) : l.eraseDups = l := by
  induction l with
  | nil => rfl
  | cons k l ih =>
    obtain ⟨hk, hl⟩ := List.nodup_cons.1 hl
    have hkeep : (l.filter fun k' => !k' == k) = l :=
      List.filter_eq_self.2 fun k' hk' => by simpa using ne_of_mem_of_not_mem hk' hk
    rw [List.eraseDups_cons, hkeep, ih hl]

/-- Filing one map on top of another one adds the keys that are new, in order. -/
theorem keys_foldl_entries (m n : OrderedMap κ ν) :
    (n.entries.foldl (fun m e => m.insert e.1 e.2) m).keys =
      m.keys ++ n.keys.filter (· ∉ m.keys) := by
  have hnodup : (n.keys.filter (· ∉ m.keys)).Nodup := n.nodup_keys.filter _
  rw [keys_foldl_insert]
  exact congrArg (m.keys ++ ·) (eraseDups_of_nodup hnodup)

/-- A set to which the keys are added has them in the order in which they are filed. -/
theorem toList_foldl_keys : ∀ (l : List (κ × ν)) {m : OrderedMap κ ν} {s : OrderedSet κ},
    s.toList = m.keys → ((l.map Prod.fst).foldl OrderedSet.insert s).toList =
      (l.foldl (fun m e => m.insert e.1 e.2) m).keys := by
  intro l
  induction l with
  | nil => exact fun hs => hs
  | cons e l ih =>
    intro m s hs
    refine ih ?_
    rw [OrderedSet.toList_insert, keys_insert, hs]

/-! ### Keys that are renamed -/

theorem eraseDups_concat (l : List κ) (k : κ) :
    (l ++ [k]).eraseDups = if k ∈ l then l.eraseDups else l.eraseDups ++ [k] := by
  rw [List.eraseDups_append]
  by_cases hk : k ∈ l <;> simp [List.removeAll, List.eraseDups_cons, hk]

theorem filter_eraseDups (p : κ → Bool) (l : List κ) :
    l.eraseDups.filter p = (l.filter p).eraseDups := by
  induction l using List.reverseRec with
  | nil => rfl
  | append_singleton l k ih =>
    rw [eraseDups_concat, List.filter_append]
    by_cases hp : p k = true
    · rw [List.filter_cons_of_pos hp, List.filter_nil, eraseDups_concat, ← ih]
      by_cases hk : k ∈ l
      · simp [hk, hp]
      · simp [hk, hp]
    · by_cases hk : k ∈ l
      · simp [hk, hp, ih]
      · simp [hk, hp, ih]

/-- Keys that are renamed twice keep their places. -/
theorem eraseDups_map_eraseDups (f : κ → κ) (l : List κ) :
    (l.eraseDups.map f).eraseDups = (l.map f).eraseDups := by
  induction l using List.reverseRec with
  | nil => rfl
  | append_singleton l k ih =>
    rw [eraseDups_concat, List.map_append, List.map_singleton, eraseDups_concat]
    by_cases hk : k ∈ l
    · rw [if_pos hk, ih, if_pos (List.mem_map_of_mem hk)]
    · rw [if_neg hk, List.map_append, List.map_singleton, eraseDups_concat, ih]
      simp only [List.mem_map, List.mem_eraseDups]

/-- Keys that are renamed after filing are in the order in which they would be filed. -/
theorem keys_ofList_rename (f : κ → κ) (l : List (κ × ν)) :
    (ofList ((ofList l).entries.map fun e => (f e.1, e.2))).keys =
      (ofList (l.map fun e => (f e.1, e.2))).keys := by
  have hfst : ∀ l : List (κ × ν),
      (l.map fun e => (f e.1, e.2)).map Prod.fst = (l.map Prod.fst).map f := by
    intro l
    simp [Function.comp_def]
  have hkeys := keys_ofList l
  rw [keys] at hkeys
  rw [keys_ofList, keys_ofList, hfst, hfst, hkeys, eraseDups_map_eraseDups]

/-- Of the keys that are renamed to one the last one decides, in the order in which they were first
filed. -/
theorem find?_ofList_rename (f : κ → κ) (l : List (κ × ν)) (k : κ) :
    (ofList ((ofList l).entries.map fun e => (f e.1, e.2))).find? k =
      (((l.map Prod.fst).filter fun k' => f k' = k).eraseDups.getLast?).bind (ofList l).find? := by
  have hkeys := keys_ofList l
  rw [keys] at hkeys
  rw [find?_ofList_map, ← List.getLast?_filter, ← filter_eraseDups, ← hkeys, List.filter_map,
    List.getLast?_map]
  show ((ofList l).entries.filter fun e => f e.1 = k).getLast?.map Prod.snd =
    (((ofList l).entries.filter fun e => f e.1 = k).getLast?.map Prod.fst).bind (ofList l).find?
  cases hlast : ((ofList l).entries.filter fun e => f e.1 = k).getLast? with
  | none => rfl
  | some e =>
    have he : e ∈ (ofList l).entries := List.mem_of_mem_filter (List.mem_of_getLast? hlast)
    exact (find?_eq_some_iff.2 he).symm

end OrderedMap

end AttributeGraph
