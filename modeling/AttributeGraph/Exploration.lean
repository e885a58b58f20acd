/-
Working off a stack of tasks.

A traversal of a graph with shared nodes and cycles keeps a state, in which it
marks what it has visited, and a stack of tasks.  Each step takes the first task
off the stack, changes the state and puts the tasks that follow from it back in
front, so nodes are met depth first.

`explore` bounds the number of steps.  The bound is no restriction:
`explore_isSome` says that it is never reached if it is at least the sum of what
the state still holds in store and what the tasks on the stack cost, provided
that every step spends more than it puts back.  `unvisited` is the usual store,
the cost of all nodes not yet marked; `unvisited_cons_lt` says how marking a
node lowers it.
-/

namespace AttributeGraph

variable {σ τ ν : Type}

/-- Work off a stack of tasks; none if the bound on the steps is reached first. -/
def explore (step : σ → τ → σ × List τ) : Nat → σ → List τ → Option σ
  | _, s, [] => some s
  | 0, _, _ :: _ => none
  | fuel + 1, s, t :: rest =>
    let next := step s t
    explore step fuel next.1 (next.2 ++ rest)

/-- What a list of tasks costs. -/
def totalCost (cost : τ → Nat) : List τ → Nat
  | [] => 0
  | t :: tasks => cost t + totalCost cost tasks

@[simp] theorem totalCost_nil (cost : τ → Nat) : totalCost cost [] = 0 := rfl

@[simp] theorem totalCost_cons (cost : τ → Nat) (t : τ) (tasks : List τ) :
    totalCost cost (t :: tasks) = cost t + totalCost cost tasks := rfl

@[simp] theorem totalCost_append (cost : τ → Nat) (a b : List τ) :
    totalCost cost (a ++ b) = totalCost cost a + totalCost cost b := by
  induction a with
  | nil => simp
  | cons t a ih => simp [ih, Nat.add_assoc]

theorem totalCost_map (cost : τ → Nat) (f : ν → τ) (tasks : List ν) :
    totalCost cost (tasks.map f) = totalCost (fun t => cost (f t)) tasks := by
  induction tasks with
  | nil => rfl
  | cons t tasks ih => rw [List.map_cons, totalCost_cons, totalCost_cons, ih]

/-- Tasks that cost one each. -/
theorem totalCost_one (tasks : List τ) : totalCost (fun _ => 1) tasks = tasks.length := by
  induction tasks with
  | nil => rfl
  | cons t tasks ih => rw [totalCost_cons, ih, List.length_cons, Nat.add_comm]

/-- A bound that covers the store and the stack is never reached. -/
theorem explore_isSome {step : σ → τ → σ × List τ} {store : σ → Nat} {cost : τ → Nat}
    (hstep : ∀ s t, store (step s t).1 + totalCost cost (step s t).2 < store s + cost t) :
    ∀ (fuel : Nat) (s : σ) (todo : List τ), store s + totalCost cost todo ≤ fuel →
      (explore step fuel s todo).isSome = true := by
  intro fuel
  induction fuel with
  | zero =>
    intro s todo h
    cases todo with
    | nil => rfl
    | cons t rest =>
      have := hstep s t
      rw [totalCost_cons] at h
      omega
  | succ fuel ih =>
    intro s todo h
    cases todo with
    | nil => rfl
    | cons t rest =>
      have := hstep s t
      rw [totalCost_cons] at h
      refine ih _ _ ?_
      rw [totalCost_append]
      omega

/-! ### The store of unvisited nodes -/

variable [DecidableEq ν]

/-- What the nodes of a list cost that are not yet marked. -/
def unvisited (cost : ν → Nat) : List ν → List ν → Nat
  | [], _ => 0
  | n :: nodes, marked => (if n ∈ marked then 0 else cost n) + unvisited cost nodes marked

/-- Marking never adds to the store. -/
theorem unvisited_cons_le (cost : ν → Nat) (nodes marked : List ν) (n : ν) :
    unvisited cost nodes (n :: marked) ≤ unvisited cost nodes marked := by
  induction nodes with
  | nil => simp [unvisited]
  | cons a nodes ih =>
    by_cases ha : a ∈ marked
    · simpa [unvisited, ha] using ih
    · by_cases han : a = n
      · simp only [unvisited, List.mem_cons, han, true_or, if_true]
        omega
      · simp only [unvisited, List.mem_cons, han, false_or, ha, if_false]
        omega

/-- Marking a node takes its cost out of the store. -/
theorem unvisited_cons_lt (cost : ν → Nat) {nodes marked : List ν} {n : ν}
    (hn : n ∈ nodes) (hm : n ∉ marked) :
    unvisited cost nodes (n :: marked) + cost n ≤ unvisited cost nodes marked := by
  induction nodes with
  | nil => simp at hn
  | cons a nodes ih =>
    by_cases han : a = n
    · have hle := unvisited_cons_le cost nodes marked n
      simp only [unvisited, han, hm, List.mem_cons, true_or, if_true, if_false]
      omega
    · have hn' : n ∈ nodes := (List.mem_cons.1 hn).resolve_left fun h => han h.symm
      have := ih hn'
      simp only [unvisited, List.mem_cons, han, false_or]
      omega

end AttributeGraph
