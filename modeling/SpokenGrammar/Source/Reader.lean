import SpokenGrammar.Fault
import SpokenGrammar.Source.Layout

namespace SpokenGrammar

structure Cursor where
  rest : List Char
  index : Nat := 0
  deriving Repr

def Cursor.advance (c : Cursor) (n : Nat) : Cursor where
  rest := c.rest.drop n
  index := c.index + n

structure Misses where
  index : Nat := 0
  labels : List String := []
  deriving Repr

def Misses.join (a b : Misses) : Misses :=
  if a.index < b.index then b
  else if b.index < a.index then a
  else { a with labels := a.labels ++ b.labels }

structure Reading (α : Type) where
  value : Option (α × Cursor)
  misses : Misses := {}

def Reader (α : Type) : Type :=
  Cursor → Reading α

namespace Reader

variable {α β : Type}

instance : Monad Reader where
  pure a c := { value := some (a, c) }
  bind p f c :=
    match p c with
    | { value := none, misses } => { value := none, misses }
    | { value := some (a, c), misses } =>
      let r := f a c
      { value := r.value, misses := misses.join r.misses }

def orElse (p : Reader α) (q : Unit → Reader α) : Reader α := fun c =>
  match p c with
  | { value := some x, misses } => { value := some x, misses }
  | { value := none, misses } =>
    let r := q () c
    { value := r.value, misses := misses.join r.misses }

instance : OrElse (Reader α) := ⟨orElse⟩

def optional (p : Reader α) : Reader (Option α) :=
  (some <$> p) <|> pure none

def manyUpTo (p : Reader α) : Nat → Reader (List α)
  | 0 => pure []
  | fuel + 1 => (do return (← p) :: (← manyUpTo p fuel)) <|> pure []

/-- Reads by `p` until it refuses. Every reading takes a character, so it refuses in the end. -/
def many (p : Reader α) : Reader (List α) := fun c =>
  manyUpTo p (c.rest.length + 1) c

def separated (p : Reader α) (between : Reader Unit) : Reader (List α) :=
  (do return (← p) :: (← many (between >>= fun _ => p))) <|> pure []

def taken (p : Reader α) : Reader String := fun c =>
  let r := p c
  { value := r.value.map fun (_, d) => (String.ofList (c.rest.take (d.index - c.index)), d)
    misses := r.misses }

/-- Exactly these characters. They are missed as a whole, at the first of them. -/
def word (w : String) : Reader Unit := fun c =>
  if w.toList.isPrefixOf c.rest then { value := some ((), c.advance w.length) }
  else { value := none, misses := ⟨c.index, [Text.quotedText w]⟩ }

def one (label : String) (p : Char → Bool) : Reader Char := fun c =>
  match c.rest with
  | a :: _ =>
    if p a then { value := some (a, c.advance 1) }
    else { value := none, misses := ⟨c.index, [label]⟩ }
  | [] => { value := none, misses := ⟨c.index, [label]⟩ }

def run (label : String) (p : Char → Bool) : Reader (List Char) := fun c =>
  let s := c.rest.takeWhile p
  { value := some (s, c.advance s.length), misses := ⟨c.index + s.length, [label]⟩ }

def runTo (close : Char) : Reader (List Char) :=
  run ("[^ " ++ Text.quotedChar close ++ "]") (· ≠ close)

def enclosed (start close : Char) : Reader Unit := do
  word (String.singleton start)
  let _ ← runTo close
  word (String.singleton close)

def layout : Reader Unit := fun c =>
  { value := some ((), c.advance (c.rest.length - (Layout.skip c.rest).length)) }

def someLayout : Reader Unit := fun c =>
  if (Layout.skip c.rest).length < c.rest.length then layout c else { value := none }

end Reader

def lineColumn (before : List Char) : Nat × Nat :=
  (before.count '\n' + 1, (before.reverse.takeWhile (· ≠ '\n')).length + 1)

def Misses.misreading (m : Misses) (text : List Char) : Misreading :=
  let (line, column) := lineColumn (text.take m.index)
  { line, column, expected := (m.labels.mergeSort fun a b => decide (a ≤ b)).eraseReps }

def Reader.readAll {α : Type} (p : Reader α) (text : String) : Except Fault α :=
  let r := p { rest := text.toList }
  match r.value with
  | some (a, { rest := [], .. }) => .ok a
  | some (_, c) => .error (.misreading ((r.misses.join ⟨c.index, ["EOF"]⟩).misreading text.toList))
  | none => .error (.misreading (r.misses.misreading text.toList))

end SpokenGrammar
