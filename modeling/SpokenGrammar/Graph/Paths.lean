import SpokenGrammar.Fault
import SpokenGrammar.Graph.Basic

namespace SpokenGrammar

abbrev Walk := List Nat

namespace Walk

variable (next : Nat → List Nat) (sink : Nat)

def isComplete (w : Walk) : Bool :=
  w.head? = some sink

def continuations : Walk → List Walk
  | [] => []
  | i :: w => if i = sink then [] else (next i).map (· :: i :: w)

def staysWithin (limit : Nat) : Nat → List Walk → Bool
  | _, [] => true
  | count, w :: level =>
    if isComplete sink w then staysWithin limit count level
    else
      match (continuations next sink w).length with
      | 0 => staysWithin limit (count - 1) level
      | n + 1 => count + n ≤ limit && staysWithin limit (count + n) level

/-- The complete walks that continue those of a level, when `found` complete ones are shorter. -/
def completions (limit : Option Nat) : Nat → Nat → List Walk → Except Fault (List Walk)
  | _, _, [] => .ok []
  | 0, _, _ :: _ => .error .endless
  | fuel + 1, found, w :: rest =>
    let level := w :: rest
    match limit.filter fun n => !staysWithin next sink n (found + level.length) level with
    | some n => .error (.pathLimit n)
    | none =>
      let complete := level.filter (isComplete sink)
      (completions limit fuel (found + complete.length)
        (level.flatMap (continuations next sink))).map (complete ++ ·)

end Walk

namespace Graph

def successorTable (g : Graph) : Array (List Nat) :=
  (Array.range g.tokens.length).map g.successors

def lookUp (g : Graph) (table : Array (List Nat)) (node : Nat) : List Nat :=
  match table[node]? with
  | some nodes => nodes
  | none => g.successors node

theorem lookUp_successorTable (g : Graph) : g.lookUp g.successorTable = g.successors := by
  funext i
  unfold lookUp
  split
  · rename_i nodes h
    simp only [successorTable, Array.getElem?_map, Option.map_eq_some_iff,
      Array.getElem?_eq_some_iff] at h
    obtain ⟨j, ⟨hj, rfl⟩, rfl⟩ := h
    simp
  · rfl

/-- How many levels are looked at. Without a cycle no walk has more edges than the graph, so no
level is left out. With a cycle that can be left, at least one more walk leaves it in as many levels
as there are edges, so this many levels take the count past the limit. -/
def levelBound (g : Graph) : Option Nat → Nat
  | none => g.edges.length + 1
  | some n => (g.edges.length + 1) * (n + 2)

def allPaths (g : Graph) (limit : Option Nat) : Except Fault (List (List Nat)) :=
  if g.tokens.isEmpty then .ok []
  else if g.isEmpty then .ok [[g.source]]
  else
    (Walk.completions (g.lookUp g.successorTable) g.sink limit (g.levelBound limit) 0
      [[g.source]]).map (·.map List.reverse)

end Graph

end SpokenGrammar
