import SpokenGrammar.Chance.Supply

namespace SpokenGrammar

variable {α : Type}

def isUsable (w : Float) : Bool :=
  w.isFinite && 0 < w

theorem isUsable_iff {w : Float} : isUsable w = true ↔ w.isFinite = true ∧ 0 < w := by
  simp [isUsable]

def share (w : Float) : Float :=
  if isUsable w then w else 0

def totalWeight (weights : List Float) : Float :=
  weights.foldl (fun total w => total + share w) 0

/-- The first choice at which the running total of the shares exceeds `draw`, or the last one that
has a share if rounding has left the draw past the total. -/
def pick (draw total : Float) (last : α) : List (α × Float) → α
  | [] => last
  | (a, w) :: rest =>
    if share w == 0 then pick draw total last rest
    else if draw < total + share w then a
    else pick draw (total + share w) a rest

def choose (choices : List α) (weights : List Float) : Draw α :=
  if choices.length ≠ weights.length then
    throw (.arityMismatch choices.length weights.length)
  else
    match choices with
    | [] => throw .emptyChoice
    | first :: _ =>
      let total := totalWeight weights
      if total ≤ 0 then throw .zeroWeights
      else do
        let n ← drawUpTo 0xffffffff
        return pick (Float.ofNat n / 4294967296 * total) 0 first (choices.zip weights)

end SpokenGrammar
