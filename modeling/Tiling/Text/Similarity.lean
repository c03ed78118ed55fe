/-!
# Similarity

How alike two words are, from zero to one: the share of characters that each has in common with
the other within a window, and the share of those that stand in the same order.
-/

namespace Tiling.Text

/-- The first place from `start` on and below `bound` with an equal character that is not taken. -/
def partner? (c : Char) (others : List Char) (taken : List Nat) (start bound : Nat) : Option Nat :=
  (List.range bound).find? fun j =>
    decide (start ≤ j) && others[j]? == some c && !taken.contains j

/-- Pairs the characters of a word, from its `i`-th on, with those of another that are at most
`reach` places away. -/
def pairUp (others : List Char) (reach : Nat) :
    Nat → List Nat → List Char → List (Char × Nat)
  | _, _, [] => []
  | i, taken, c :: rest =>
    match partner? c others taken (i - reach) (min others.length (i + reach + 1)) with
    | some j => (c, j) :: pairUp others reach (i + 1) (j :: taken) rest
    | none => pairUp others reach (i + 1) taken rest

def similarity (a b : List Char) : Float :=
  if a.isEmpty && b.isEmpty then 1
  else
    let pairs := pairUp b (max a.length b.length / 2 - 1) 0 [] a
    let common := pairs.length
    if common = 0 then 0
    else
      let inOrder := (pairs.map Prod.snd).mergeSort.filterMap (b[·]?)
      let moved := ((pairs.map Prod.fst).zip inOrder).countP fun p => p.1 != p.2
      let share (n d : Nat) : Float := n.toFloat / d.toFloat
      (share common a.length + share common b.length + share (common - moved / 2) common) / 3

end Tiling.Text
