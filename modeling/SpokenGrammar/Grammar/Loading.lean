import SpokenGrammar.Grammar.Resolution
import SpokenGrammar.Source.Basic

namespace SpokenGrammar

def repeated (texts : List String) : List String :=
  (texts.filter fun t => 1 < texts.count t).eraseDups

namespace Grammar

def declare (g : Grammar) (d : Definition) : Except Fault Grammar :=
  g.define d.name d.expression d.isPublic

def load (text : String) (settings : Settings) : Except Fault Grammar := do
  let source ← Source.read text
  let twice := repeated (source.rules.map Definition.name)
  if twice ≠ [] then throw (.duplicateRules twice)
  let g : Grammar := { name := source.name, imports := source.imports, settings }
  let (g, result) := (← source.rules.foldlM declare g).resolve
  result
  return g

end Grammar

end SpokenGrammar
