import SpokenGrammar.Rule.Table
import SpokenGrammar.Settings
import SpokenGrammar.Text.Blank

namespace SpokenGrammar

structure Grammar where
  name : Option String := none
  imports : List String := []
  rules : RuleTable := .empty
  settings : Settings := {}

namespace Grammar

instance : Inhabited Grammar := ⟨{}⟩

def isBlankName (name : String) : Bool :=
  Text.trim name.toList = [] || Text.trim name.toList = ['<', '>']

def insert (g : Grammar) (name : String) (r : Rule) : Except Fault Grammar :=
  if isBlankName name then .error .blankRuleName
  else if name ∈ g.rules.names then .error (.duplicateRules [name])
  else .ok { g with rules := g.rules.add name r }

def define (g : Grammar) (name expression : String) (isPublic : Bool) : Except Fault Grammar := do
  g.insert name (← Rule.compile g.settings.punctuation expression isPublic)

def merge (g other : Grammar) : Grammar :=
  { g with
    rules := other.rules.entries.foldl (fun t (name, r) => t.add name r.toPrivate) g.rules }

def publicRules (g : Grammar) : List (String × Rule) :=
  g.rules.entries.filter (·.2.isPublic)

def ruleLine (name : String) (r : Rule) : String :=
  (if r.isPublic then "public " else "") ++ name ++ " = " ++ r.expression ++ "\n"

def toText (g : Grammar) : String :=
  String.join (g.rules.entries.map fun (name, r) => ruleLine name r)

end Grammar

end SpokenGrammar
