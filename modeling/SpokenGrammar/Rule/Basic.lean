import SpokenGrammar.Graph.OfTokens
import SpokenGrammar.Graph.Weights
import SpokenGrammar.Token.Reading

namespace SpokenGrammar

structure Rule where
  expression : String
  isPublic : Bool
  references : List String
  graph : Graph
  deriving BEq, Inhabited

namespace Rule

def compile (p : Punctuation) (expression : String) (isPublic : Bool) : Except Fault Rule := do
  let tokens ← Token.read p expression
  let graph ← Graph.ofTokens tokens
  return {
    expression
    isPublic
    references := (tokens.filterMap Token.referenceName).eraseDups
    graph := ← graph.applyWeights p.weight }

def spellings (r : Rule) : List String :=
  r.graph.tokens.map Token.spelling

def toPrivate (r : Rule) : Rule :=
  { r with isPublic := false }

end Rule

end SpokenGrammar
