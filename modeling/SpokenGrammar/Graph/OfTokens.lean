import SpokenGrammar.Fault
import SpokenGrammar.Graph.Basic

/-!
# The graph of an expression

One pass over the tokens joins each to what it can follow. Every alternative of a group starts at
the token that opens the group; a closing token is joined to the ends of all of them, the terminator
to those of every group that is open. An optional group can also be passed by.
-/

namespace SpokenGrammar

/-- A group that is still open: the mark that opened it, none for the start sentinel, its position,
and where its alternatives but the last have ended. -/
structure OpenGroup where
  opener : Option Mark
  position : Nat
  ends : List Nat := []
  deriving Repr

structure Assembly where
  last : Nat := 0
  groups : List OpenGroup := []
  deriving Repr

namespace Assembly

def follow (a : Assembly) (i : Nat) : Assembly × List (Nat × Nat) :=
  ({ a with last := i }, [(a.last, i)])

def enter (a : Assembly) (m : Mark) (i : Nat) : Assembly × List (Nat × Nat) :=
  ({ last := i, groups := ⟨some m, i, []⟩ :: a.groups }, [(a.last, i)])

def leave (a : Assembly) (m : Mark) (i : Nat) : Except Fault (Assembly × List (Nat × Nat)) :=
  match a.groups with
  | [] => .error (.unbalancedGroup i)
  | g :: rest =>
    if g.opener = m.opener then
      let skip := if m = .closeOptional then [(g.position, i)] else []
      .ok ({ last := i, groups := rest }, g.ends.map (·, i) ++ skip ++ [(a.last, i)])
    else .error (.unbalancedGroup i)

def branch (a : Assembly) (i : Nat) : Except Fault (Assembly × List (Nat × Nat)) :=
  match a.groups with
  | [] => .error (.unbalancedGroup i)
  | g :: rest =>
    .ok ({ last := g.position, groups := { g with ends := g.ends ++ [a.last] } :: rest }, [])

def terminate (a : Assembly) (i : Nat) : Assembly × List (Nat × Nat) :=
  ({ a with last := i },
    (a.last, i) :: a.groups.reverse.flatMap fun g => g.ends.map (·, i))

def step (a : Assembly) (i : Nat) : Token → Except Fault (Assembly × List (Nat × Nat))
  | .start => .ok ({ last := i, groups := ⟨none, i, []⟩ :: a.groups }, [])
  | .mark .openGroup => .ok (a.enter .openGroup i)
  | .mark .openOptional => .ok (a.enter .openOptional i)
  | .mark .closeGroup => a.leave .closeGroup i
  | .mark .closeOptional => a.leave .closeOptional i
  | .mark .alternative => a.branch i
  | .mark .terminator => .ok (a.terminate i)
  | .finish => .ok (a.follow i)
  | .reference _ => .ok (a.follow i)
  | .text _ _ => .ok (a.follow i)

def run (a : Assembly) (i : Nat) : List Token → Except Fault (List (Nat × Nat))
  | [] =>
    match a.groups.reverse with
    | _ :: g :: _ => .error (.unbalancedGroup g.position)
    | _ => .ok []
  | t :: rest =>
    match a.step i t with
    | .error f => .error f
    | .ok (a, edges) => (a.run (i + 1) rest).map (edges ++ ·)

end Assembly

def Graph.ofTokens (tokens : List Token) : Except Fault Graph :=
  (Assembly.run {} 0 tokens).map fun ends =>
    .ofEdges tokens (ends.map fun (i, j) => { source := i, target := j })

end SpokenGrammar
