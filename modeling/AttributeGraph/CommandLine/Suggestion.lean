/-
Guessing what a mistyped word was meant to be.

Two words are near if few edits lead from one to the other: inserting, deleting
or replacing a UTF-16 code unit, or exchanging two neighbours.  The nearest
known words are suggested, provided that at most three edits away and that more
than two fifths of the longer word stay as they are.
-/
import AttributeGraph.Text.Units

namespace AttributeGraph.CommandLine

/-- Whether at most `k` edits lead from one word to the other. -/
def withinEdits (k : Nat) : List Nat → List Nat → Bool
  | [], bs => bs.length ≤ k
  | as, [] => as.length ≤ k
  | a :: as, b :: bs =>
    (a = b && withinEdits k as bs) ||
      match k with
      | 0 => false
      | k + 1 =>
        withinEdits k as (b :: bs) || withinEdits k (a :: as) bs || withinEdits k as bs ||
          match as, bs with
          | a' :: as', b' :: bs' => a = b' && a' = b && withinEdits k as' bs'
          | _, _ => false
termination_by as bs => as.length + bs.length

/-- The number of edits between two words, if it is at most three. -/
def editDistance? (a b : List Nat) : Option Nat :=
  (List.range 4).find? fun k => withinEdits k a b

/-- The number of edits to a candidate that is worth suggesting. -/
def nearness? (word candidate : List Nat) : Option Nat :=
  if candidate.length ≤ 1 then none
  else
    (editDistance? word candidate).filter fun d =>
      let length := max word.length candidate.length
      2 * length < 5 * (length - d)

/-- The candidates with the fewest edits, in alphabetical order. -/
def nearest (word : String) (candidates : List String) : List String :=
  let near := candidates.eraseDups.filterMap fun c =>
    (nearness? (Text.units word.toList) (Text.units c.toList)).map fun d => (d, c)
  let best := near.foldl (fun m e => min m e.1) 3
  Text.sortByUnits ((near.filter fun e => e.1 = best).map Prod.snd)

/-- What is added to an error about a word, if there is something to suggest.  Where the word has
two leading dashes, it and the candidates are compared from the third character on. -/
def suggestion (word : String) (candidates : List String) : String :=
  let dashed := word.startsWith "--"
  let body (s : String) : String := if dashed then String.ofList (s.toList.drop 2) else s
  let shown (s : String) : String := if dashed then "--" ++ s else s
  match (nearest (body word) (candidates.map body)).map shown with
  | [] => ""
  | [one] => s!"\n(Did you mean {one}?)"
  | several =>
    let list := ", ".intercalate several
    s!"\n(Did you mean one of {list}?)"

end AttributeGraph.CommandLine
