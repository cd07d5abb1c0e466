import SpokenGrammar.Fault
import SpokenGrammar.Graph.Basic

namespace SpokenGrammar

def Edge.detour (node entry exit : Nat) (e : Edge) : Edge where
  source := if e.source = node then exit else e.source
  target := if e.target = node then entry else e.target
  weight := e.weight

def Edge.shift (offset : Nat) (e : Edge) : Edge where
  source := e.source + offset
  target := e.target + offset
  weight := e.weight

namespace Graph

def splice (host guest : Graph) (position : Nat) : Except Fault Graph :=
  if host.isEmpty then .error .emptyHost
  else if guest.isEmpty then .error .emptyGuest
  else
    let offset := host.tokens.length
    if position < offset then
      let entry := guest.source + offset
      let exit := guest.sink + offset
      .ok (.ofEdges (host.tokens ++ guest.tokens)
        (host.edges.map (Edge.detour position entry exit) ++ guest.edges.map (Edge.shift offset)))
    else .error (.positionOutOfRange position (offset - 1))

theorem tokens_splice {host guest g : Graph} {position : Nat}
    (h : host.splice guest position = .ok g) : g.tokens = host.tokens ++ guest.tokens := by
  simp only [splice] at h
  repeat' split at h
  all_goals simp only [reduceCtorEq, Except.ok.injEq] at h
  exact h ▸ rfl

end Graph

end SpokenGrammar
