import SpokenGrammar.Graph.Basic
import SpokenGrammar.Token.Weight

namespace SpokenGrammar

def Edge.weighTarget (weights : List (Option Float)) (e : Edge) : Edge :=
  match weights[e.target]?.join with
  | some w => { e with weight := some w }
  | none => e

theorem Edge.ends_weighTarget (weights : List (Option Float)) (e : Edge) :
    (e.weighTarget weights).ends = e.ends := by
  unfold weighTarget
  split <;> rfl

namespace Graph

def applyWeights (g : Graph) (delimiter : Char) : Except Fault Graph :=
  (g.tokens.mapM (Token.takeWeight delimiter)).map fun parts => {
    tokens := parts.map (·.1)
    edges := g.edges.map (Edge.weighTarget (parts.map (·.2)))
    distinct := by
      have h := g.distinct
      unfold Distinct at *
      rwa [List.map_map, show Edge.ends ∘ Edge.weighTarget (parts.map (·.2)) = Edge.ends from
        funext (Edge.ends_weighTarget _)] }

end Graph

end SpokenGrammar
