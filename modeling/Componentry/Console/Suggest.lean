import Componentry.Text.Casing

/-!
# Suggestions

A name that is not known is answered by the names closest to it. The distance of two texts is the
least number of insertions, deletions and substitutions that turn one into the other; it is found
row by row: the row of a beginning of the first text holds its distance to every beginning of the
second.
-/

namespace Componentry

namespace EditDistance

variable {α : Type} [BEq α]

/-- The row after `x`: `left` is the entry before the next one, `corner` the entry above that. -/
def fill (x : α) (left corner : Nat) : List α → List Nat → List Nat
  | y :: ys, above :: row =>
    let next := min (above + 1) (min (left + 1) (corner + if x == y then 0 else 1))
    left :: fill x next above ys row
  | _, _ => [left]

/-- The row of a beginning that is longer by `x`. -/
def nextRow (ys : List α) (row : List Nat) (x : α) : List Nat :=
  match row with
  | [] => []
  | corner :: rest => fill x (corner + 1) corner ys rest

/-- The row of a whole text. -/
def lastRow (xs ys : List α) : List Nat :=
  xs.foldl (nextRow ys) (List.range (ys.length + 1))

end EditDistance

/-- The least number of insertions, deletions and substitutions between two lists. -/
def editDistance {α : Type} [BEq α] (xs ys : List α) : Nat :=
  (EditDistance.lastRow xs ys).getLast?.getD 0

/-- Candidates farther than this are not suggested. -/
def maxSuggestDistance : Nat := 3

/-- At most this many candidates are suggested. -/
def maxSuggestions : Nat := 3

/-- The distance of two names, small and capital letters being the same. -/
def nameDistance (a b : String) : Nat :=
  editDistance (Text.lower a).toList (Text.lower b).toList

/-- The candidates closest to a name, the closest first; of equally close ones the earlier. -/
def suggest (target : String) (candidates : List String) : List String :=
  let near := candidates.filter fun c => nameDistance target c ≤ maxSuggestDistance
  (near.mergeSort fun a b => nameDistance target a ≤ nameDistance target b).take maxSuggestions

end Componentry
