import SpokenGrammar.Grammar.Basic
import SpokenGrammar.Rule.Sentences

namespace SpokenGrammar

def sortedSet (texts : List String) : List String :=
  (texts.mergeSort fun a b => decide (a ≤ b)).eraseReps

namespace Grammar

def productions (g : Grammar) : Except Fault (List String) := do
  let found ← g.publicRules.mapM fun (_, r) => r.productions g.settings.maxPaths
  return sortedSet (found.flatten.filterMap g.settings.format)

def sample (g : Grammar) : Draw String := do
  match g.publicRules with
  | [] => throw .emptyChoice
  | first :: rest =>
    let k ← drawUpTo rest.length
    let (_, r) := (first :: rest).getD k first
    let sentence ← r.sample
    match g.settings.format sentence with
    | some s => return s
    | none => throw .emptySentence

def sampleRule {α : Type} [Recorder α] (g : Grammar) (name : String) : Draw α :=
  match g.rules.find name with
  | some r => r.sample
  | none => throw (.unknownRule name)

end Grammar

end SpokenGrammar
