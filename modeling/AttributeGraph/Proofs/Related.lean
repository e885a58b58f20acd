/-
Options, maps and lists that are related element by element.

Two options are related if both are absent, or both are present with related
values; `Option.Rel` is that relation.  Two maps are related if they are at every
key, two lists if they have the same length and are related at every place.
-/
import AttributeGraph.Proofs.Ordered
import Mathlib.Data.List.Forall2

namespace AttributeGraph

/-! ### Absent or related -/

variable {α β γ : Type} {S T : α → β → Prop}

theorem rel_some_iff {a : α} {b : β} : Option.Rel S (some a) (some b) ↔ S a b :=
  ⟨fun h => by cases h with | some h => exact h, Option.Rel.some⟩

theorem rel_none_iff {x : Option α} : Option.Rel S x none ↔ x = none := by
  constructor
  · intro h
    cases h
    rfl
  · rintro rfl
    exact .none

theorem rel_mono (hST : ∀ a b, S a b → T a b) {x : Option α} {y : Option β}
    (h : Option.Rel S x y) : Option.Rel T x y := by
  cases h with
  | some h => exact .some (hST _ _ h)
  | none => exact .none

theorem isSome_iff_of_rel {x : Option α} {y : Option β} (h : Option.Rel S x y) :
    x.isSome = true ↔ y.isSome = true := by
  cases h with
  | some h => simp
  | none => simp

/-- What related values have in common is found in both or in neither. -/
theorem exists_iff_of_rel {P : α → Prop} {Q : β → Prop} {x : Option α} {y : Option β}
    (h : Option.Rel S x y) (hPQ : ∀ a b, S a b → (P a ↔ Q b)) :
    (∃ a, x = some a ∧ P a) ↔ ∃ b, y = some b ∧ Q b := by
  cases h with
  | some h => simpa using hPQ _ _ h
  | none => simp

/-- Options that are both there or both not are related if what they hold is. -/
theorem rel_of_isSome_iff {α β : Type} {R : α → β → Prop} {u : Option α} {v : Option β}
    (hiff : u.isSome = true ↔ v.isSome = true) (hR : ∀ a b, u = some a → v = some b → R a b) :
    Option.Rel R u v := by
  cases u with
  | none =>
    cases v with
    | none => exact .none
    | some b => simp at hiff
  | some a =>
    cases v with
    | none => simp at hiff
    | some b => exact .some (hR a b rfl rfl)

theorem rel_and {P : α → Prop} {Q : β → Prop} {x : Option α} {y : Option β}
    (h : Option.Rel S x y) (hx : ∀ a, x = some a → P a) (hy : ∀ b, y = some b → Q b) :
    Option.Rel (fun a b => S a b ∧ P a ∧ Q b) x y := by
  cases h with
  | some h => exact .some ⟨h, hx _ rfl, hy _ rfl⟩
  | none => exact .none

theorem rel_swap {x : Option α} {y : Option β} (h : Option.Rel S x y) :
    Option.Rel (fun b a => S a b) y x := by
  cases h with
  | some h => exact .some h
  | none => exact .none

theorem rel_or {x x' : Option α} {y y' : Option β} (h : Option.Rel S x y)
    (h' : Option.Rel S x' y') : Option.Rel S (x.or x') (y.or y') := by
  cases h with
  | some h => exact .some h
  | none => exact h'

theorem rel_map {α' β' : Type} {U : α' → β' → Prop} {f : α → α'} {g : β → β'} {x : Option α}
    {y : Option β} (h : Option.Rel S x y) (hSU : ∀ a b, S a b → U (f a) (g b)) :
    Option.Rel U (x.map f) (y.map g) := by
  cases h with
  | some h => exact .some (hSU _ _ h)
  | none => exact .none

theorem exists_left_of_rel {x : Option α} {y : Option β} (h : Option.Rel S x y) {b : β}
    (hb : y = some b) : ∃ a, x = some a ∧ S a b := by
  subst hb
  cases h with
  | some hab => exact ⟨_, rfl, hab⟩

theorem rel_comp {U : β → γ → Prop} {x : Option α} {y : Option β} {z : Option γ}
    (hxy : Option.Rel S x y) (hyz : Option.Rel U y z) :
    Option.Rel (fun a c => ∃ b, S a b ∧ U b c) x z := by
  cases hxy with
  | some hab => cases hyz with | some hbc => exact .some ⟨_, hab, hbc⟩
  | none => cases hyz with | none => exact .none

theorem forall₂_toList {x : Option α} {y : Option β} (h : Option.Rel S x y) :
    List.Forall₂ S x.toList y.toList := by
  cases h with
  | some h => exact .cons h .nil
  | none => exact .nil

/-! ### Maps -/

/-- Two maps are related at every key exactly if they have as many keys and every pair of the first
has a partner in the second. -/
theorem rel_find?_iff {κ : Type} [DecidableEq κ] {m : OrderedMap κ α} {n : OrderedMap κ β} :
    (∀ k, Option.Rel S (m.find? k) (n.find? k)) ↔
      m.size = n.size ∧ ∀ e ∈ m.entries, ∃ y, n.find? e.1 = some y ∧ S e.2 y := by
  constructor
  · intro hm
    refine ⟨OrderedMap.size_eq_of_keys fun k => ?_, fun e he => ?_⟩
    · rw [← OrderedMap.contains_iff, ← OrderedMap.contains_iff]
      exact isSome_iff_of_rel (hm k)
    · have hrel := hm e.1
      rw [OrderedMap.find?_eq_some_iff.2 he] at hrel
      cases hn : n.find? e.1 with
      | none => rw [hn] at hrel; cases hrel
      | some y => exact ⟨y, rfl, by rwa [hn, rel_some_iff] at hrel⟩
  · rintro ⟨hsize, hm⟩ k
    cases hk : m.find? k with
    | some x =>
      obtain ⟨y, hy, hxy⟩ := hm _ (OrderedMap.find?_eq_some_iff.1 hk)
      rw [hy]
      exact .some hxy
    | none =>
      -- as many keys, all of them shared, leave no further key to the other map
      have hsub : ∀ l ∈ m.keys, l ∈ n.keys := by
        intro l hl
        obtain ⟨e, he, rfl⟩ := List.mem_map.1 hl
        obtain ⟨y, hy, -⟩ := hm e he
        exact OrderedMap.mem_keys_of_find? hy
      have hkn : n.find? k = none := by
        rw [OrderedMap.find?_eq_none_iff] at hk ⊢
        exact fun hmem => hk (OrderedMap.mem_keys_of_subset hsize hsub hmem)
      rw [hkn]
      exact .none

/-! ### Lists -/

/-- A map over a list succeeds with results of a kind exactly if it does so on every element. -/
theorem exists_mapM_iff {P : β → Prop} {f : α → Option β} : ∀ {l : List α},
    (∃ bs, l.mapM f = some bs ∧ ∀ b ∈ bs, P b) ↔ ∀ a ∈ l, ∃ b, f a = some b ∧ P b := by
  intro l
  induction l with
  | nil => simp
  | cons a l ih =>
    rw [List.forall_mem_cons, ← ih]
    constructor
    · intro hP
      obtain ⟨bs, hbs, hP⟩ := hP
      rw [List.mapM_cons] at hbs
      obtain ⟨b, hb, hbs⟩ := Option.bind_eq_some_iff.1 hbs
      obtain ⟨rest, hrest, hbs⟩ := Option.bind_eq_some_iff.1 hbs
      obtain rfl : b :: rest = bs := Option.some.inj hbs
      rw [List.forall_mem_cons] at hP
      exact ⟨⟨b, hb, hP.1⟩, rest, hrest, hP.2⟩
    · intro hP
      obtain ⟨⟨b, hb, hPb⟩, rest, hrest, hP⟩ := hP
      exact ⟨b :: rest, by simp [List.mapM_cons, hb, hrest], List.forall_mem_cons.2 ⟨hPb, hP⟩⟩

/-- What is related to at most one thing is at most one. -/
theorem eq_head?_of_forall₂ {o : Option α} {l : List β} (h : List.Forall₂ S o.toList l) :
    l = l.head?.toList := by
  cases o with
  | none =>
    rw [List.forall₂_nil_left_iff.1 h]
    rfl
  | some a =>
    obtain ⟨b, rest, -, hrest, rfl⟩ := List.forall₂_cons_left_iff.1 h
    rw [List.forall₂_nil_left_iff.1 hrest]
    rfl

theorem exists_left_of_mem {l : List α} {l' : List β} (h : List.Forall₂ S l l') {b : β}
    (hb : b ∈ l') : ∃ a ∈ l, S a b := by
  induction h with
  | nil => exact absurd hb List.not_mem_nil
  | cons hab _ ih =>
    rcases List.mem_cons.1 hb with rfl | hb
    · exact ⟨_, List.mem_cons_self, hab⟩
    · obtain ⟨a, ha, hS⟩ := ih hb
      exact ⟨a, List.mem_cons_of_mem _ ha, hS⟩

theorem exists_right_of_mem {l : List α} {l' : List β} (h : List.Forall₂ S l l') {a : α}
    (ha : a ∈ l) : ∃ b ∈ l', S a b :=
  exists_left_of_mem h.flip ha

/-- What is related place by place is related as members. -/
theorem forall₂_mem {l : List α} {l' : List β} (h : List.Forall₂ S l l') :
    List.Forall₂ (fun a b => a ∈ l ∧ b ∈ l' ∧ S a b) l l' := by
  induction h with
  | nil => exact .nil
  | cons hab _ ih =>
    refine .cons ⟨List.mem_cons_self, List.mem_cons_self, hab⟩ (ih.imp fun a b hS => ?_)
    exact ⟨List.mem_cons_of_mem _ hS.1, List.mem_cons_of_mem _ hS.2.1, hS.2.2⟩

theorem map_eq_of_forall₂ {f : α → γ} {g : β → γ} (hfg : ∀ a b, S a b → f a = g b) {l : List α}
    {l' : List β} (h : List.Forall₂ S l l') : l.map f = l'.map g := by
  induction h with
  | nil => rfl
  | cons hab _ ih => rw [List.map_cons, List.map_cons, hfg _ _ hab, ih]

/-- A search depends on what holds of the elements only. -/
theorem find?_congr {p q : α → Bool} {l : List α} (hpq : ∀ a ∈ l, p a = q a) :
    l.find? p = l.find? q := by
  induction l with
  | nil => rfl
  | cons a l ih =>
    rw [List.forall_mem_cons] at hpq
    rw [List.find?_cons, List.find?_cons, hpq.1, ih hpq.2]

/-- What is the only element to be searched for is found. -/
theorem find?_eq_some_of_unique {p : α → Bool} {l : List α} {a : α} (ha : a ∈ l) (hp : p a = true)
    (hunique : ∀ b ∈ l, p b = true → b = a) : l.find? p = some a := by
  obtain ⟨b, hb⟩ := Option.isSome_iff_exists.1 (List.find?_isSome.2 ⟨a, ha, hp⟩)
  rw [hb, hunique b (List.mem_of_find?_eq_some hb) (List.find?_some hb)]

/-- Searches for what is alike find what is related, or both find nothing. -/
theorem rel_find?_of_forall₂ {p : α → Bool} {q : β → Bool} (hpq : ∀ a b, S a b → p a = q b)
    {l : List α} {l' : List β} (h : List.Forall₂ S l l') :
    Option.Rel S (l.find? p) (l'.find? q) := by
  induction h with
  | nil => exact .none
  | @cons a b _ _ hab _ ih =>
    rw [List.find?_cons, List.find?_cons, hpq a b hab]
    cases q b with
    | true => exact .some hab
    | false => exact ih

/-- Two lists are related place by place if they are at every place. -/
theorem forall₂_zipIdx {l : List α} {l' : List β} (h : List.Forall₂ S l l') :
    ∀ n, List.Forall₂ (fun a b => S a.1 b.1 ∧ a.2 = b.2) (l.zipIdx n) (l'.zipIdx n) := by
  induction h with
  | nil => exact fun _ => .nil
  | cons hab _ ih => exact fun n => .cons ⟨hab, rfl⟩ (ih (n + 1))

theorem exists_right_of_getElem? {l : List α} {l' : List β} (h : List.Forall₂ S l l') {i : Nat}
    {a : α} (ha : l[i]? = some a) : ∃ b, l'[i]? = some b ∧ S a b := by
  have hmem : (a, i) ∈ l.zipIdx := List.mk_mem_zipIdx_iff_getElem?.2 ha
  obtain ⟨⟨b, j⟩, hb, hab, rfl⟩ := exists_right_of_mem (forall₂_zipIdx h 0) hmem
  exact ⟨b, List.mk_mem_zipIdx_iff_getElem?.1 hb, hab⟩

/-- Searches that pass over the same place find what is related, and at the same place. -/
theorem rel_find?_other {p : α → Bool} {q : β → Bool} (hpq : ∀ a b, S a b → p a = q b)
    {l : List α} {l' : List β} (h : List.Forall₂ S l l') (i : Nat) :
    Option.Rel (fun a b => l[a.2]? = some a.1 ∧ l'[b.2]? = some b.1 ∧ a.2 = b.2)
      (l.zipIdx.find? fun e => e.2 ≠ i && p e.1) (l'.zipIdx.find? fun e => e.2 ≠ i && q e.1) := by
  refine rel_mono ?_ (rel_find?_of_forall₂ ?_ (forall₂_mem (forall₂_zipIdx h 0)))
  · rintro ⟨a, j⟩ ⟨b, k⟩ ⟨ha, hb, -, hjk⟩
    exact ⟨List.mk_mem_zipIdx_iff_getElem?.1 ha, List.mk_mem_zipIdx_iff_getElem?.1 hb, hjk⟩
  · rintro ⟨a, j⟩ ⟨b, k⟩ ⟨-, -, hab, rfl⟩
    simp only [hpq a b hab]

/-- Where all elements have different keys, passing over a key is passing over its place. -/
theorem find?_other [DecidableEq γ] {f : α → γ} {l : List α} (hl : (l.map f).Nodup) {i : Nat}
    {x : α} (hx : l[i]? = some x) (p : α → Bool) :
    (l.find? fun a => f a ≠ f x && p a) =
      (l.zipIdx.find? fun e => e.2 ≠ i && p e.1).map Prod.fst := by
  conv_lhs => rw [← List.zipIdx_map_fst 0 l, List.find?_map]
  congr 1
  have hkey : ∀ (j : Nat) (a : α), l[j]? = some a → (l.map f)[j]? = some (f a) := by
    intro j a ha
    rw [List.getElem?_map, ha, Option.map_some]
  refine find?_congr fun e he => ?_
  have hplace : f e.1 = f x ↔ e.2 = i := by
    have he := hkey e.2 e.1 (List.mem_zipIdx_iff_getElem?.1 he)
    rw [← (List.getElem?_inj (List.getElem?_eq_some_iff.1 he).1 hl), he, hkey i x hx,
      Option.some.injEq]
  simp only [Function.comp_apply, ne_eq, hplace]

/-- Searches that pass over the elements at one place find what stands at one place, if no list has
an element twice. -/
theorem rel_find?_ne [DecidableEq α] [DecidableEq β] {p : α → Bool} {q : β → Bool}
    (hpq : ∀ a b, S a b → p a = q b) {l : List α} {l' : List β} (h : List.Forall₂ S l l')
    (hl : l.Nodup) (hl' : l'.Nodup) {i : Nat} {x : α} {y : β} (hx : l[i]? = some x)
    (hy : l'[i]? = some y) :
    Option.Rel (fun a b => ∃ j : Nat, l[j]? = some a ∧ l'[j]? = some b)
      (l.find? fun a => a ≠ x && p a) (l'.find? fun b => b ≠ y && q b) := by
  have hleft := find?_other (f := id) (by rwa [List.map_id]) hx p
  have hright := find?_other (f := id) (by rwa [List.map_id]) hy q
  simp only [id_eq] at hleft hright
  rw [hleft, hright]
  refine rel_map (rel_find?_other hpq h i) ?_
  rintro ⟨a, j⟩ ⟨b, k⟩ ⟨ha, hb, rfl⟩
  exact ⟨j, ha, hb⟩

/-- A search does not notice that elements in front are left out if the one that it finds is not
among them, and if it is the only one to be found where it is among the others in front. -/
theorem find?_append_of_subset {p : α → Bool} {l l' m : List α} {a : α} (hsub : l' ⊆ l)
    (ha : (l ++ m).find? p = some a) (hmem : a ∈ l' ∨ a ∉ l)
    (hunique : a ∈ l' → ∀ b ∈ l', p b = true → b = a) : (l' ++ m).find? p = some a := by
  rw [List.find?_append, Option.or_eq_some_iff]
  rcases hmem with hmem | hnot
  · exact .inl (find?_eq_some_of_unique hmem (List.find?_some ha) (hunique hmem))
  · rw [List.find?_append, Option.or_eq_some_iff] at ha
    rcases ha with ha | ⟨hnone, ha⟩
    · exact absurd (List.mem_of_find?_eq_some ha) hnot
    · exact .inr ⟨List.find?_eq_none.2 fun b hb => List.find?_eq_none.1 hnone b (hsub hb), ha⟩

/-- Two lists that are related to a third one are related place by place. -/
theorem forall₂_join {U : γ → β → Prop} {xs : List α} {zs : List γ} {ys : List β}
    (hxy : List.Forall₂ S xs ys) (hzy : List.Forall₂ U zs ys) :
    List.Forall₂ (fun x z => ∃ y, S x y ∧ U z y) xs zs := by
  induction hxy generalizing zs with
  | nil =>
    obtain rfl := List.forall₂_nil_right_iff.1 hzy
    exact .nil
  | cons hab _ ih =>
    obtain ⟨z, zs, hz, hzs, rfl⟩ := List.forall₂_cons_right_iff.1 hzy
    exact .cons ⟨_, hab, hz⟩ (ih hzs)

end AttributeGraph
