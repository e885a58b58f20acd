/-
Putting properties into key order.

Key order moves properties and changes none of them (`inKeyOrder_perm`), and what
is in key order stays as it is (`record_inKeyOrder`).  The second holds because no
two keys write the same array index: canonical digits are those of the number.
Whether properties are in key order can be told from their keys alone
(`record_eq_object_iff`).
-/
import AttributeGraph.Proofs.Ordered
import AttributeGraph.Value
import Mathlib.Data.Nat.Digits.Lemmas

namespace AttributeGraph.Value

variable {ν : Type}

/-! ### Canonical indices -/

/-- The number that a digit stands for. -/
def digit (c : Char) : Nat := c.toNat - 48

theorem foldl_digit (cs : List Char) : ∀ a : Nat,
    cs.foldl (fun n c => 10 * n + (c.toNat - 48)) a =
      Nat.ofDigits 10 (cs.map digit).reverse + 10 ^ cs.length * a := by
  induction cs with
  | nil => intro a; simp
  | cons c cs ih =>
    intro a
    rw [List.foldl_cons, ih, List.map_cons, List.reverse_cons, Nat.ofDigits_append,
      Nat.ofDigits_singleton, List.length_reverse, List.length_map, List.length_cons, digit]
    ring

theorem toNat_of_isDigit {c : Char} (hc : c.isDigit = true) : 48 ≤ c.toNat ∧ c.toNat ≤ 57 := by
  rw [Char.isDigit, Bool.and_eq_true, decide_eq_true_eq, decide_eq_true_eq] at hc
  exact hc

theorem digit_lt {c : Char} (hc : c.isDigit = true) : digit c < 10 := by
  have := toNat_of_isDigit hc
  unfold digit
  omega

theorem digit_inj {c d : Char} (hc : c.isDigit = true) (hd : d.isDigit = true)
    (hcd : digit c = digit d) : c = d := by
  have := toNat_of_isDigit hc
  have := toNat_of_isDigit hd
  unfold digit at hcd
  have htoNat : c.toNat = d.toNat := by omega
  rw [← Char.ofNat_toNat c, ← Char.ofNat_toNat d, htoNat]

theorem eq_of_map_digit : ∀ {cs ds : List Char}, (∀ c ∈ cs, c.isDigit = true) →
    (∀ d ∈ ds, d.isDigit = true) → cs.map digit = ds.map digit → cs = ds := by
  intro cs
  induction cs with
  | nil =>
    intro ds _ _ h
    exact (List.map_eq_nil_iff.1 h.symm).symm
  | cons c cs ih =>
    intro ds hcs hds h
    cases ds with
    | nil => cases h
    | cons d ds =>
      rw [List.map_cons, List.map_cons, List.cons.injEq] at h
      rw [List.forall_mem_cons] at hcs hds
      rw [digit_inj hcs.1 hds.1 h.1, ih hcs.2 hds.2 h.2]

/-- What writes an index consists of digits, has no zero in front unless it is one, and writes the
number in base ten. -/
theorem index?_spec {key : String} {n : Nat} (hkey : index? key = some n) :
    key.toList ≠ [] ∧ (∀ c ∈ key.toList, c.isDigit = true) ∧
      (key.toList = ['0'] ∨ key.toList.head? ≠ some '0') ∧
      Nat.ofDigits 10 (key.toList.map digit).reverse = n := by
  unfold index? at hkey
  dsimp only at hkey
  split_ifs at hkey with hcs hle
  obtain ⟨hne, hall, hzero⟩ := hcs
  refine ⟨hne, List.all_eq_true.1 hall, hzero, ?_⟩
  rw [foldl_digit, Nat.mul_zero, Nat.add_zero] at hkey
  exact Option.some.inj hkey

/-- A key that writes an index without a zero in front writes the digits of that index. -/
theorem digits_of_index? {key : String} {n : Nat} (hkey : index? key = some n)
    (hzero : key.toList ≠ ['0']) : (key.toList.map digit).reverse = Nat.digits 10 n := by
  obtain ⟨hcs, hall, hfirst, rfl⟩ := index?_spec hkey
  refine (Nat.digits_ofDigits 10 (by decide) _ ?_ ?_).symm
  · intro d hd
    rw [List.mem_reverse, List.mem_map] at hd
    obtain ⟨c, hc, rfl⟩ := hd
    exact digit_lt (hall c hc)
  · intro _ hlast
    rw [List.getLast_reverse, List.head_map] at hlast
    refine hfirst.resolve_left hzero ?_
    have hdigit := hall _ (List.head_mem hcs)
    rw [List.head?_eq_some_head hcs, digit_inj hdigit (by decide) (show _ = digit '0' from hlast)]

/-- Only one key writes the index zero. -/
theorem toList_of_index?_zero {key : String} (hkey : index? key = some 0) : key.toList = ['0'] := by
  by_contra hzero
  have hdigits := digits_of_index? hkey hzero
  rw [Nat.digits_zero, List.reverse_eq_nil_iff, List.map_eq_nil_iff] at hdigits
  exact (index?_spec hkey).1 hdigits

/-- Different keys write different indices. -/
theorem index?_inj {a b : String} {n : Nat} (ha : index? a = some n) (hb : index? b = some n) :
    a = b := by
  refine String.toList_inj.1 ?_
  by_cases hn : n = 0
  · subst hn
    rw [toList_of_index?_zero ha, toList_of_index?_zero hb]
  · have hzero : ∀ {key : String}, index? key = some n → key.toList ≠ ['0'] := by
      intro key hkey hlist
      have hvalue := (index?_spec hkey).2.2.2
      rw [hlist] at hvalue
      exact hn hvalue.symm
    have hdigits : (a.toList.map digit).reverse = (b.toList.map digit).reverse := by
      rw [digits_of_index? ha (hzero ha), digits_of_index? hb (hzero hb)]
    exact eq_of_map_digit (index?_spec ha).2.1 (index?_spec hb).2.1 (List.reverse_injective hdigits)

/-! ### Placing -/

theorem placeIndexed_perm (n : Nat) (e : String × ν) (l : List (Nat × String × ν)) :
    (placeIndexed n e l).Perm ((n, e) :: l) := by
  induction l with
  | nil => exact .refl _
  | cons p l ih =>
    obtain ⟨m, f⟩ := p
    unfold placeIndexed
    by_cases hlt : n < m
    · rw [if_pos hlt]
    · rw [if_neg hlt]
      exact (ih.cons (m, f)).trans (.swap (n, e) (m, f) l)

/-- Indices in ascending order. -/
def Ascending (l : List (Nat × String × ν)) : Prop := l.Pairwise fun p q => p.1 < q.1

theorem ascending_placeIndexed {n : Nat} {e : String × ν} {l : List (Nat × String × ν)}
    (hl : Ascending l) (hn : n ∉ l.map Prod.fst) : Ascending (placeIndexed n e l) := by
  induction l with
  | nil => exact List.pairwise_singleton _ _
  | cons p l ih =>
    obtain ⟨m, f⟩ := p
    obtain ⟨hm, hl⟩ := List.pairwise_cons.1 hl
    rw [List.map_cons, List.mem_cons, not_or] at hn
    unfold placeIndexed
    by_cases hlt : n < m
    · rw [if_pos hlt]
      refine List.pairwise_cons.2 ⟨?_, List.pairwise_cons.2 ⟨hm, hl⟩⟩
      intro q hq
      rcases List.mem_cons.1 hq with rfl | hq
      · exact hlt
      · exact Nat.lt_trans hlt (hm q hq)
    · rw [if_neg hlt]
      refine List.pairwise_cons.2 ⟨?_, ih hl hn.2⟩
      intro q hq
      rcases List.mem_cons.1 ((placeIndexed_perm n e l).mem_iff.1 hq) with rfl | hq
      · show m < n
        have := hn.1
        omega
      · exact hm q hq

theorem placeIndexed_of_lt {n : Nat} {e : String × ν} {l : List (Nat × String × ν)}
    (hn : ∀ q ∈ l, n < q.1) : placeIndexed n e l = (n, e) :: l := by
  cases l with
  | nil => rfl
  | cons p l =>
    obtain ⟨m, f⟩ := p
    rw [placeIndexed, if_pos (hn (m, f) List.mem_cons_self)]

/-! ### Key order -/

/-- The properties whose keys are indices, in ascending order, each with its index. -/
def indexed (fields : List (String × ν)) : List (Nat × String × ν) :=
  fields.foldr
    (fun e placed => match index? e.1 with
      | some n => placeIndexed n e placed
      | none => placed) []

theorem inKeyOrder_eq (fields : List (String × ν)) :
    inKeyOrder fields =
      (indexed fields).map Prod.snd ++ fields.filter fun e => (index? e.1).isNone := rfl

theorem indexed_cons_of_none {e : String × ν} (he : index? e.1 = none)
    (fields : List (String × ν)) :
    indexed (e :: fields) = indexed fields := by
  simp [indexed, he]

theorem indexed_cons_of_some {e : String × ν} {n : Nat} (he : index? e.1 = some n)
    (fields : List (String × ν)) : indexed (e :: fields) = placeIndexed n e (indexed fields) := by
  simp [indexed, he]

/-- What has been placed is a property under its index. -/
theorem mem_indexed {fields : List (String × ν)} {p : Nat × String × ν} (hp : p ∈ indexed fields) :
    p.2 ∈ fields ∧ index? p.2.1 = some p.1 := by
  induction fields with
  | nil => exact absurd hp List.not_mem_nil
  | cons e fields ih =>
    cases he : index? e.1 with
    | none =>
      rw [indexed_cons_of_none he] at hp
      exact ⟨List.mem_cons_of_mem e (ih hp).1, (ih hp).2⟩
    | some n =>
      rw [indexed_cons_of_some he] at hp
      rcases List.mem_cons.1 ((placeIndexed_perm n e _).mem_iff.1 hp) with rfl | hp
      · exact ⟨List.mem_cons_self, he⟩
      · exact ⟨List.mem_cons_of_mem e (ih hp).1, (ih hp).2⟩

theorem ascending_indexed {fields : List (String × ν)} (hkeys : (fields.map Prod.fst).Nodup) :
    Ascending (indexed fields) := by
  induction fields with
  | nil => exact List.Pairwise.nil
  | cons e fields ih =>
    rw [List.map_cons, List.nodup_cons] at hkeys
    cases he : index? e.1 with
    | none =>
      rw [indexed_cons_of_none he]
      exact ih hkeys.2
    | some n =>
      rw [indexed_cons_of_some he]
      refine ascending_placeIndexed (ih hkeys.2) fun hn => ?_
      -- a second property with this index would have the same key
      obtain ⟨p, hp, rfl⟩ := List.mem_map.1 hn
      obtain ⟨hmem, hindex⟩ := mem_indexed hp
      exact hkeys.1 (index?_inj hindex he ▸ List.mem_map_of_mem hmem)

/-- Key order moves properties and changes none. -/
theorem inKeyOrder_perm (fields : List (String × ν)) : (inKeyOrder fields).Perm fields := by
  induction fields with
  | nil => exact .refl _
  | cons e fields ih =>
    rw [inKeyOrder_eq] at ih ⊢
    cases he : index? e.1 with
    | none =>
      rw [indexed_cons_of_none he, List.filter_cons_of_pos (by simp [he])]
      exact List.perm_middle.trans (ih.cons e)
    | some n =>
      rw [indexed_cons_of_some he, List.filter_cons_of_neg (by simp [he])]
      have hplace := (placeIndexed_perm n e (indexed fields)).map Prod.snd
      exact (hplace.append_right _).trans (ih.cons e)

theorem indexed_of_none {fields : List (String × ν)} (hall : ∀ e ∈ fields, index? e.1 = none) :
    indexed fields = [] := by
  induction fields with
  | nil => rfl
  | cons e fields ih =>
    rw [List.forall_mem_cons] at hall
    rw [indexed_cons_of_none hall.1, ih hall.2]

/-- Properties without indices stay in their order. -/
theorem inKeyOrder_of_none {fields : List (String × ν)} (hall : ∀ e ∈ fields, index? e.1 = none) :
    inKeyOrder fields = fields := by
  rw [inKeyOrder_eq, indexed_of_none hall, List.map_nil, List.nil_append, List.filter_eq_self]
  intro e he
  rw [hall e he]
  rfl

/-- Ascending properties in front of others that have no index are placed as they stand. -/
theorem indexed_append {placed : List (Nat × String × ν)} {fields : List (String × ν)}
    (hplaced : Ascending placed) (hindex : ∀ p ∈ placed, index? p.2.1 = some p.1)
    (hall : ∀ e ∈ fields, index? e.1 = none) :
    indexed (placed.map Prod.snd ++ fields) = placed := by
  induction placed with
  | nil => exact indexed_of_none hall
  | cons p placed ih =>
    obtain ⟨hlt, hplaced⟩ := List.pairwise_cons.1 hplaced
    rw [List.forall_mem_cons] at hindex
    rw [List.map_cons, List.cons_append, indexed_cons_of_some hindex.1, ih hplaced hindex.2,
      placeIndexed_of_lt hlt]

/-- What is in key order stays as it is. -/
theorem inKeyOrder_inKeyOrder {fields : List (String × ν)} (hkeys : (fields.map Prod.fst).Nodup) :
    inKeyOrder (inKeyOrder fields) = inKeyOrder fields := by
  have hothers : ∀ e ∈ fields.filter (fun e => (index? e.1).isNone), index? e.1 = none := by
    intro e he
    exact Option.isNone_iff_eq_none.1 (List.mem_filter.1 he).2
  have hindex : ∀ p ∈ indexed fields, index? p.2.1 = some p.1 := fun p hp => (mem_indexed hp).2
  rw [inKeyOrder_eq fields, inKeyOrder_eq, indexed_append (ascending_indexed hkeys) hindex hothers,
    List.filter_append, List.filter_filter]
  have hnone : ((indexed fields).map Prod.snd).filter (fun e => (index? e.1).isNone) = [] := by
    rw [List.filter_eq_nil_iff]
    intro e he
    obtain ⟨p, hp, rfl⟩ := List.mem_map.1 he
    rw [hindex p hp]
    exact Bool.false_ne_true
  rw [hnone, List.nil_append]
  simp only [Bool.and_self]

/-! ### Keys in key order -/

/-- A key may stand before another one: if the other writes an index, it writes a smaller one. -/
def Before (a b : String) : Prop := ∀ m, index? b = some m → ∃ n, index? a = some n ∧ n < m

instance (a b : String) : Decidable (Before a b) :=
  inferInstanceAs (Decidable (∀ m ∈ index? b, ∃ n ∈ index? a, n < m))

/-- Key order puts no key before one that has to precede it. -/
theorem pairwise_inKeyOrder {fields : List (String × ν)} (hkeys : (fields.map Prod.fst).Nodup) :
    ((inKeyOrder fields).map Prod.fst).Pairwise Before := by
  rw [inKeyOrder_eq, List.map_append, List.map_map]
  have hothers : ∀ b ∈ (fields.filter fun e => (index? e.1).isNone).map Prod.fst,
      index? b = none := by
    intro b hb
    obtain ⟨e, he, rfl⟩ := List.mem_map.1 hb
    exact Option.isNone_iff_eq_none.1 (List.mem_filter.1 he).2
  refine List.pairwise_append.2 ⟨?_, ?_, fun a _ b hb m hm => ?_⟩
  · refine List.pairwise_map.2 ((ascending_indexed hkeys).imp_of_mem fun hp hq hpq m hm => ?_)
    rw [Function.comp_apply, (mem_indexed hq).2] at hm
    exact ⟨_, (mem_indexed hp).2, Option.some.inj hm ▸ hpq⟩
  · refine List.pairwise_of_forall_mem_list fun _ _ b hb m hm => ?_
    rw [hothers b hb] at hm
    cases hm
  · rw [hothers b hb] at hm
    cases hm

/-- What stands in key order keeps its places. -/
theorem inKeyOrder_of_pairwise {fields : List (String × ν)}
    (hbefore : (fields.map Prod.fst).Pairwise Before) : inKeyOrder fields = fields := by
  induction fields with
  | nil => rfl
  | cons e fields ih =>
    rw [List.map_cons, List.pairwise_cons] at hbefore
    have hrest := ih hbefore.2
    cases he : index? e.1 with
    | none =>
      refine inKeyOrder_of_none (List.forall_mem_cons.2 ⟨he, fun f hf => ?_⟩)
      by_contra hsome
      obtain ⟨m, hm⟩ := Option.ne_none_iff_exists'.1 hsome
      obtain ⟨n, hn, -⟩ := hbefore.1 f.1 (List.mem_map_of_mem hf) m hm
      rw [he] at hn
      cases hn
    | some n =>
      have hfirst : ∀ q ∈ indexed fields, n < q.1 := by
        intro q hq
        obtain ⟨hmem, hindex⟩ := mem_indexed hq
        obtain ⟨k, hk, hlt⟩ := hbefore.1 q.2.1 (List.mem_map_of_mem hmem) q.1 hindex
        rw [he] at hk
        exact Option.some.inj hk ▸ hlt
      rw [inKeyOrder_eq] at hrest ⊢
      rw [indexed_cons_of_some he, placeIndexed_of_lt hfirst,
        List.filter_cons_of_neg (by simp [he]), List.map_cons, List.cons_append, hrest]

/-! ### Objects -/

/-- Properties with distinct keys are put in key order and not changed. -/
theorem record_eq {fields : List (String × Value)} (hkeys : (fields.map Prod.fst).Nodup) :
    record fields = .object (inKeyOrder fields) := by
  rw [record, OrderedMap.entries_ofList hkeys]

/-- Properties in key order make the object that holds them. -/
theorem record_inKeyOrder {fields : List (String × Value)} (hkeys : (fields.map Prod.fst).Nodup) :
    record (inKeyOrder fields) = .object (inKeyOrder fields) := by
  have hkeys' : ((inKeyOrder fields).map Prod.fst).Nodup :=
    ((inKeyOrder_perm fields).map Prod.fst).nodup_iff.2 hkeys
  rw [record_eq hkeys', inKeyOrder_inKeyOrder hkeys]

/-- Properties with distinct keys that are no indices make the object that holds them. -/
theorem record_of_none {fields : List (String × Value)} (hkeys : (fields.map Prod.fst).Nodup)
    (hall : ∀ e ∈ fields, index? e.1 = none) : record fields = .object fields := by
  rw [record_eq hkeys, inKeyOrder_of_none hall]

/-- An object is what its properties make exactly if their keys are distinct and in key order. -/
theorem record_eq_object_iff {fields : List (String × Value)} :
    record fields = .object fields ↔
      (fields.map Prod.fst).Nodup ∧ (fields.map Prod.fst).Pairwise Before := by
  constructor
  · intro hrecord
    have hentries : inKeyOrder (OrderedMap.ofList fields).entries = fields :=
      Value.object.inj hrecord
    have hnodup := (OrderedMap.ofList fields).nodup_keys
    have hperm := (inKeyOrder_perm (OrderedMap.ofList fields).entries).map Prod.fst
    have hbefore := pairwise_inKeyOrder hnodup
    rw [hentries] at hperm hbefore
    exact ⟨hperm.nodup_iff.2 hnodup, hbefore⟩
  · intro hkeys
    rw [record_eq hkeys.1, inKeyOrder_of_pairwise hkeys.2]

end AttributeGraph.Value
