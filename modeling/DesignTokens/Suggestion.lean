/-! # Near candidates for a name that is not known -/
namespace DesignTokens.Suggestion

/-- The distances from a text that has grown by `x`, behind the one to a shorter text, which is
`left`. The old distances `corner`, `above` and so on are those to texts one letter longer each. -/
def extendRow (x : Char) (left : Nat) : List Char → List Nat → List Nat
  | y :: ys, corner :: above :: row =>
    let here := min (min (above + 1) (left + 1)) (corner + if x = y then 0 else 1)
    here :: extendRow x here ys (above :: row)
  | _, _ => []

/-- The distances from a text that has grown by `x` to the leading parts of `target`. -/
def nextRow (target : List Char) (row : List Nat) (x : Char) : List Nat :=
  match row with
  | [] => []
  | corner :: _ => (corner + 1) :: extendRow x (corner + 1) target row

/-- The least number of insertions, deletions and substitutions of characters that turn the one
text into the other. -/
def editDistance (a b : List Char) : Nat :=
  ((a.foldl (nextRow b) (List.range (b.length + 1))).getLast?).getD 0

/-- The nearest candidates, the nearest first; at equal distances they keep their order. -/
def nearest (target : List Char) (pool : List String) (limit : Nat) : List String :=
  let ranked := pool.map fun candidate => (editDistance target candidate.toList, candidate)
  ((ranked.mergeSort fun a b => a.1 ≤ b.1).map Prod.snd).take limit

end DesignTokens.Suggestion
