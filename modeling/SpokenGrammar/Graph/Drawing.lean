import SpokenGrammar.Decimal.Positional
import SpokenGrammar.Graph.Basic

namespace SpokenGrammar

namespace Graph

def drawNode (node : Nat) (t : Token) : String :=
  "    " ++ toString node ++ " [label=" ++ Text.quotedText t.label ++ "];\n"

def drawEdge (e : Edge) : String :=
  let weight := match e.weight with
    | some w => " [weight=" ++ Decimal.written w ++ "]"
    | none => ""
  "    " ++ toString e.source ++ " -> " ++ toString e.target ++ weight ++ ";\n"

def draw (g : Graph) : String :=
  let nodes := g.tokens.zipIdx.filter fun (_, i) => g.touches i
  "digraph \x7b\n" ++ String.join (nodes.map fun (t, i) => drawNode i t)
    ++ String.join (g.edges.map drawEdge) ++ "\x7d"

end Graph

end SpokenGrammar
