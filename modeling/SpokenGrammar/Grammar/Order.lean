import SpokenGrammar.Grammar.Basic
import SpokenGrammar.Rule.References

namespace SpokenGrammar

def breadthFirst (next : String → List String) : Nat → List String → List String
  | 0, _ => []
  | _ + 1, [] => []
  | fuel + 1, level => level ++ breadthFirst next fuel (level.flatMap next)

namespace Grammar

def validate (g : Grammar) : Except Fault Unit :=
  g.rules.entries.forM fun (name, r) => r.checkRecursion name g.rules

/-- The names in composition order. Without recursion a way from a public rule has at most one name
for each rule, and one more that may be unknown. -/
def compositionOrder (g : Grammar) : Except Fault (List String) := do
  g.validate
  return breadthFirst g.rules.references (g.rules.entries.length + 1) (g.publicRules.map (·.1))

end Grammar

end SpokenGrammar
