/-
What holds at the end of an exploration.

A traversal is judged by an invariant of its state and its stack.  A step takes
the first task off the stack and puts the tasks that follow from it in front, so
an invariant that one step keeps, `Preserved`, holds when the stack is empty.

`explore_isSome` asks every step to lower what is in store, also the steps that a
traversal never takes.  On a heap with links out of the heap some of those do
not; `Preserved.explore_isSome` asks it only of the steps that the invariant
admits.

`Explores` is the same traversal without stack and bound: what follows from a task
is done before the next task.
-/
import AttributeGraph.Exploration

namespace AttributeGraph

variable {σ τ ν : Type} {step : σ → τ → σ × List τ} {I : σ → List τ → Prop}

/-- One step of a traversal keeps the invariant. -/
def Preserved (step : σ → τ → σ × List τ) (I : σ → List τ → Prop) : Prop :=
  ∀ s t rest, I s (t :: rest) → I (step s t).1 ((step s t).2 ++ rest)

/-- **What every step keeps holds at the end.** -/
theorem Preserved.explore (hI : Preserved step I) :
    ∀ (fuel : Nat) (s : σ) (todo : List τ) {out : σ}, I s todo →
      AttributeGraph.explore step fuel s todo = some out → I out [] := by
  intro fuel
  induction fuel with
  | zero =>
    intro s todo out h hout
    cases todo with
    | nil =>
      obtain rfl : s = out := Option.some.inj hout
      exact h
    | cons t rest => cases hout
  | succ fuel ih =>
    intro s todo out h hout
    cases todo with
    | nil =>
      obtain rfl : s = out := Option.some.inj hout
      exact h
    | cons t rest => exact ih _ _ (hI s t rest h) hout

/-- A bound that covers the store and the stack is never reached by steps that the invariant
admits. -/
theorem Preserved.explore_isSome (hI : Preserved step I) {store : σ → Nat} {cost : τ → Nat}
    (hstep : ∀ s t rest, I s (t :: rest) →
      store (step s t).1 + totalCost cost (step s t).2 < store s + cost t) :
    ∀ (fuel : Nat) (s : σ) (todo : List τ), I s todo → store s + totalCost cost todo ≤ fuel →
      (AttributeGraph.explore step fuel s todo).isSome = true := by
  intro fuel
  induction fuel with
  | zero =>
    intro s todo h hle
    cases todo with
    | nil => rfl
    | cons t rest =>
      have := hstep s t rest h
      rw [totalCost_cons] at hle
      omega
  | succ fuel ih =>
    intro s todo h hle
    cases todo with
    | nil => rfl
    | cons t rest =>
      have := hstep s t rest h
      rw [totalCost_cons] at hle
      refine ih _ _ (hI s t rest h) ?_
      rw [totalCost_append]
      omega

/-! ### More steps, and fewer tasks -/

/-- A traversal that ends within a bound ends the same way within a greater one. -/
theorem explore_mono : ∀ {fuel fuel' : Nat}, fuel ≤ fuel' → ∀ {s out : σ} {todo : List τ},
    explore step fuel s todo = some out → explore step fuel' s todo = some out := by
  intro fuel
  induction fuel with
  | zero =>
    intro fuel' _ s out todo hout
    cases todo with
    | nil => cases fuel' <;> exact hout
    | cons t rest => cases hout
  | succ fuel ih =>
    intro fuel' hle s out todo hout
    obtain ⟨fuel', rfl⟩ := Nat.exists_eq_add_of_le' (Nat.le_trans (Nat.le_add_left 1 fuel) hle)
    cases todo with
    | nil => exact hout
    | cons t rest => exact ih (Nat.le_of_succ_le_succ hle) hout

/-- The tasks in front are done within the bound for all of them, and so are the others. -/
theorem exists_explore_of_append : ∀ {fuel : Nat} {s out : σ} {todo rest : List τ},
    explore step fuel s (todo ++ rest) = some out →
      ∃ s', explore step fuel s todo = some s' ∧ explore step fuel s' rest = some out := by
  intro fuel
  induction fuel with
  | zero =>
    intro s out todo rest hout
    cases todo with
    | nil => exact ⟨s, rfl, hout⟩
    | cons t todo => cases hout
  | succ fuel ih =>
    intro s out todo rest hout
    cases todo with
    | nil => exact ⟨s, rfl, hout⟩
    | cons t todo =>
      rw [List.cons_append, explore, ← List.append_assoc] at hout
      obtain ⟨s', hdone, hrest⟩ := ih hout
      exact ⟨s', hdone, explore_mono (Nat.le_succ fuel) hrest⟩

/-! ### On the way -/

section Output

variable {β : Type} (output : σ → List β)
  (hone : ∀ s t, output (step s t).1 = output s ∨ ∃ b, output (step s t).1 = output s ++ [b])

include hone

theorem output_prefix_preserved (before : List β) :
    Preserved step fun s _ => before <+: output s := by
  intro s t rest hs
  rcases hone s t with heq | ⟨b, heq⟩
  · rwa [heq]
  · rw [heq]
    exact hs.trans (List.prefix_append _ _)

/-- **A traversal that puts out one thing at a time has put out every beginning of its output at
some time**, and the invariant held then. -/
theorem Preserved.exists_at_prefix (hI : Preserved step I) {out : σ} {before : List β}
    (hout : before <+: output out) (fuel : Nat) : ∀ (s : σ) (todo : List τ), I s todo →
      AttributeGraph.explore step fuel s todo = some out → output s <+: before →
      ∃ s' todo', I s' todo' ∧ output s' = before := by
  have hend : ∀ s todo, I s todo → s = out → output s <+: before →
      ∃ s' todo', I s' todo' ∧ output s' = before := by
    intro s todo hs hsame hbefore
    subst hsame
    exact ⟨s, todo, hs, hbefore.eq_of_length_le hout.length_le⟩
  induction fuel with
  | zero =>
    intro s todo hs hrun hbefore
    cases todo with
    | nil => exact hend s [] hs (Option.some.inj hrun) hbefore
    | cons t rest => cases hrun
  | succ fuel ih =>
    intro s todo hs hrun hbefore
    cases todo with
    | nil => exact hend s [] hs (Option.some.inj hrun) hbefore
    | cons t rest =>
      by_cases heq : output s = before
      · exact ⟨s, t :: rest, hs, heq⟩
      refine ih _ _ (hI s t rest hs) hrun ?_
      have hlater : output (step s t).1 <+: output out :=
        (output_prefix_preserved output hone _).explore _ _ _ (List.prefix_refl _) hrun
      have hlt : (output s).length < before.length :=
        Nat.lt_of_le_of_ne hbefore.length_le fun hlen => heq (hbefore.eq_of_length hlen)
      refine List.prefix_of_prefix_length_le hlater hout ?_
      rcases hone s t with hsame | ⟨b, hnew⟩
      · rw [hsame]
        exact hbefore.length_le
      · rw [hnew, List.length_append, List.length_singleton]
        exact hlt

end Output

/-! ### Depth first -/

/-- Do tasks in order, each one with all that follows from it before the next one. -/
inductive Explores (step : σ → τ → σ × List τ) : σ → List τ → σ → Prop
  | nil (s : σ) : Explores step s [] s
  | cons {s s' out : σ} {t : τ} {rest : List τ}
      (first : Explores step (step s t).1 (step s t).2 s')
      (later : Explores step s' rest out) : Explores step s (t :: rest) out

/-- There is only one way to do tasks in order. -/
theorem Explores.unique {s out out' : σ} {todo : List τ} (ho : Explores step s todo out)
    (ho' : Explores step s todo out') : out = out' := by
  induction ho generalizing out' with
  | nil s =>
    cases ho'
    rfl
  | cons _ _ ihfirst ihlater =>
    cases ho' with
    | cons first' later' =>
      obtain rfl := ihfirst first'
      exact ihlater later'

/-- Whatever is on the stack in front is done before the rest. -/
theorem exists_explores_of_explore_append : ∀ (fuel : Nat) {s out : σ} (todo rest : List τ),
    explore step fuel s (todo ++ rest) = some out →
      ∃ s' fuel', Explores step s todo s' ∧ fuel' ≤ fuel ∧
        explore step fuel' s' rest = some out := by
  intro fuel
  induction fuel using Nat.strongRecOn with
  | ind fuel ih =>
    intro s out todo rest hout
    cases todo with
    | nil => exact ⟨s, fuel, .nil s, Nat.le_refl _, hout⟩
    | cons t todo =>
      cases fuel with
      | zero => cases hout
      | succ fuel =>
        rw [List.cons_append, explore] at hout
        obtain ⟨s₁, fuel₁, hfirst, hle₁, hout₁⟩ :=
          ih fuel (Nat.lt_succ_self fuel) (step s t).2 (todo ++ rest) hout
        obtain ⟨s₂, fuel₂, hlater, hle₂, hout₂⟩ := ih fuel₁ (Nat.lt_succ_of_le hle₁) todo rest hout₁
        exact ⟨s₂, fuel₂, .cons hfirst hlater, Nat.le_trans hle₂ (Nat.le_succ_of_le hle₁), hout₂⟩

/-- **A traversal with a stack goes depth first.** -/
theorem explores_of_explore {fuel : Nat} {s out : σ} {todo : List τ}
    (hout : explore step fuel s todo = some out) : Explores step s todo out := by
  rw [← List.append_nil todo] at hout
  obtain ⟨s', fuel', hdone, -, hrest⟩ := exists_explores_of_explore_append fuel todo [] hout
  have hend : s' = out := by
    cases fuel' <;> exact Option.some.inj hrest
  rwa [← hend]

/-! ### What is in store -/

/-- Where more is marked, less is in store. -/
theorem unvisited_mono [DecidableEq ν] {marked marked' : List ν} (hsub : marked ⊆ marked')
    (nodes : List ν) :
    unvisited (fun _ => 1) nodes marked' ≤ unvisited (fun _ => 1) nodes marked := by
  induction nodes with
  | nil => exact Nat.le_refl _
  | cons n nodes ih =>
    rw [unvisited, unvisited]
    by_cases hn : n ∈ marked
    · rw [if_pos hn, if_pos (hsub hn)]
      omega
    · rw [if_neg hn]
      split <;> omega

/-- Before a node is marked, all of them are in store. -/
theorem unvisited_nil [DecidableEq ν] (cost : ν → Nat) (nodes : List ν) :
    unvisited cost nodes [] = totalCost cost nodes := by
  induction nodes with
  | nil => rfl
  | cons n nodes ih =>
    rw [unvisited, totalCost_cons, ih, if_neg List.not_mem_nil]

end AttributeGraph
