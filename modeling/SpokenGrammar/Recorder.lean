namespace SpokenGrammar

/-- A record that grows with every node of a path, and with the text of the node if it has any. -/
class Recorder (α : Type) where
  blank : α
  node : Nat → α → α
  text : String → α → α
  reference : String → α → α

namespace Recorder

instance : Recorder String where
  blank := ""
  node _ s := s
  text t s := s ++ t
  reference t s := s ++ t

instance : Recorder ByteArray where
  blank := .empty
  node _ s := s
  text t s := s ++ t.toByteArray
  reference t s := s ++ t.toByteArray

instance : Recorder (List Nat) where
  blank := []
  node n s := s ++ [n]
  text _ s := s
  reference _ s := s

def stir (hash word : UInt64) : UInt64 :=
  ((hash <<< 5 ||| hash >>> 59) ^^^ word) * 0x517cc1b727220a95

/-- An identifier of the path: every node is stirred into a fresh hash before the identifier so
far. -/
instance : Recorder UInt64 where
  blank := 0xffffffffffffffff
  node n id := stir (stir 0 (.ofNat n)) id
  text _ id := id
  reference _ id := id

instance : Recorder Unit where
  blank := ()
  node _ _ := ()
  text _ _ := ()
  reference _ _ := ()

instance {α β : Type} [Recorder α] [Recorder β] : Recorder (α × β) where
  blank := (blank, blank)
  node n := Prod.map (node n) (node n)
  text t := Prod.map (text t) (text t)
  reference t := Prod.map (reference t) (reference t)

end Recorder

end SpokenGrammar
