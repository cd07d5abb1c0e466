import SpokenGrammar.Graph.Elide
import SpokenGrammar.Graph.Splice
import SpokenGrammar.Rule.Table
import SpokenGrammar.Text.Blank

namespace SpokenGrammar

/-- The names seen and those reached by following references from the latest of them, round by
round, until a round finds nothing new. -/
def closure (next : String → List String) : Nat → List String → List String → List String
  | 0, seen, _ => seen
  | fuel + 1, seen, latest =>
    match ((latest.flatMap next).filter (· ∉ seen)).eraseDups with
    | [] => seen
    | new => closure next fuel (seen ++ new) new

theorem subset_closure (next : String → List String) (fuel : Nat) (seen latest : List String) :
    seen ⊆ closure next fuel seen latest := by
  induction fuel generalizing seen latest with
  | zero => exact fun _ h => h
  | succ fuel ih =>
    rw [closure]
    split
    · exact fun _ h => h
    · exact fun _ h => ih _ _ (List.mem_append_left _ h)

namespace RuleTable

/-- How many rounds find every name: each but the last finds one that some rule refers to. -/
def rounds (t : RuleTable) : Nat :=
  (t.entries.flatMap fun e => e.2.references).length + 1

def reachable (t : RuleTable) (names : List String) : List String :=
  closure t.references t.rounds names.eraseDups names.eraseDups

end RuleTable

namespace Rule

def checkRecursion (r : Rule) (name : String) (t : RuleTable) : Except Fault Unit :=
  if name ∈ t.reachable r.references then .error (.selfReference name) else .ok ()

/-- The nodes that refer to `name`. A node that a graph has been spliced over is no longer one. -/
def places (r : Rule) (name : String) : List Nat :=
  (r.graph.tokens.zipIdx.filter fun (t, i) =>
    t.referenceName = some name && r.graph.touches i).map (·.2)

def spliceAll (guest : Graph) (host : Graph) (places : List Nat) : Except Fault Graph :=
  places.foldlM (fun g i => g.splice guest i) host

def resolve (r : Rule) (t : RuleTable) : Except Fault Rule := do
  let names := r.references.filter fun name => !Text.allBlank name.toList
  let graph ← names.foldlM (fun g name =>
    match t.find name with
    | none => .error (.unknownReference name)
    | some guest => spliceAll guest.graph g (r.places name)) r.graph
  return { r with graph }

def elide (r : Rule) : Rule :=
  { r with graph := r.graph.elide }

end Rule

end SpokenGrammar
