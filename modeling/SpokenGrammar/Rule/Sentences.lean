import SpokenGrammar.Graph.Paths
import SpokenGrammar.Graph.RandomWalk
import SpokenGrammar.Recorder
import SpokenGrammar.Rule.Basic

namespace SpokenGrammar

variable {α : Type} [Recorder α]

def Token.record (i : Nat) (t : Option Token) (a : α) : α :=
  let a := Recorder.node i a
  match t with
  | some (.reference name) => Recorder.reference name a
  | some t => if t.spelling = "" then a else Recorder.text t.spelling a
  | none => a

namespace Rule

def record (r : Rule) (nodes : List Nat) : α :=
  nodes.foldl (fun a i => Token.record i r.graph.tokens[i]? a) Recorder.blank

def enumerate (r : Rule) (limit : Option Nat) : Except Fault (List α) :=
  (r.graph.allPaths limit).map (·.map r.record)

def productions (r : Rule) (limit : Option Nat) : Except Fault (List String) :=
  (r.enumerate limit).map (·.filter (· ≠ ""))

def sample (r : Rule) : Draw α := do
  return r.record (← r.graph.randomPath)

end Rule

end SpokenGrammar
