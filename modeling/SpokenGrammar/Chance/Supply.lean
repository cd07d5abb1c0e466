import SpokenGrammar.Fault

namespace SpokenGrammar

abbrev Supply := List UInt8

abbrev Draw := ExceptT Fault (StateM Supply)

def byteWidth (max : Nat) : Nat :=
  if max = 0 then 0 else max.log2 / 8 + 1

def ofBytes (bytes : List UInt8) : Nat :=
  bytes.foldl (fun n b => 256 * n + b.toNat) 0

def drawUpTo (max : Nat) : Draw Nat := do
  let bytes ← get
  set (bytes.drop (byteWidth max))
  return ofBytes (bytes.take (byteWidth max)) % (max + 1)

theorem run_drawUpTo (max : Nat) (s : Supply) :
    (drawUpTo max).run s =
      (.ok (ofBytes (s.take (byteWidth max)) % (max + 1)), s.drop (byteWidth max)) :=
  rfl

end SpokenGrammar
