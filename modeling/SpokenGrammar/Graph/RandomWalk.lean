import SpokenGrammar.Chance.Choice
import SpokenGrammar.Graph.Basic

namespace SpokenGrammar

namespace Graph

def randomStep (g : Graph) (node : Nat) : Draw Nat :=
  match g.successors node with
  | [] => throw (.deadEnd node)
  | [only] => return only
  | nodes => choose nodes (nodes.map (g.weight node))

def randomWalk (g : Graph) (sink : Nat) : Nat → Nat → Draw (List Nat)
  | 0, node => if node = sink then return [] else throw .endless
  | fuel + 1, node =>
    if node = sink then return []
    else do
      let next ← g.randomStep node
      return next :: (← g.randomWalk sink fuel next)

/-- How many steps a walk may take. A walk that passes more nodes than the graph has edges without
using up a byte repeats itself for ever. -/
def stepBound (g : Graph) (s : Supply) : Nat :=
  (s.length + 2) * (g.edges.length + 2)

def randomPath (g : Graph) : Draw (List Nat) := do
  if g.tokens.isEmpty then return []
  let source := g.source
  return source :: (← g.randomWalk g.sink (g.stepBound (← get)) source)

end Graph

end SpokenGrammar
