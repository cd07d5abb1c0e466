namespace SpokenGrammar

inductive Mark where
  | openGroup
  | closeGroup
  | openOptional
  | closeOptional
  | alternative
  | terminator
  deriving DecidableEq, Repr

namespace Mark

def all : List Mark :=
  [openGroup, closeGroup, openOptional, closeOptional, alternative, terminator]

theorem mem_all (m : Mark) : m ∈ all := by
  cases m <;> simp [all]

def opener : Mark → Option Mark
  | closeGroup => some openGroup
  | closeOptional => some openOptional
  | _ => none

end Mark

structure Punctuation where
  reference : Char × Char := ('<', '>')
  group : Char × Char := ('(', ')')
  optional : Char × Char := ('[', ']')
  alternative : Char := '|'
  terminator : Char := ';'
  quote : Char := '"'
  escape : Char := '\\'
  weight : Char := '/'
  tag : Char × Char := ('{', '}')
  deriving DecidableEq, Repr, Inhabited

inductive Role where
  | escape
  | reference
  | quote
  | weight
  | tag
  | mark (m : Mark)
  | plain
  deriving DecidableEq, Repr

namespace Punctuation

def charOf (p : Punctuation) : Mark → Char
  | .openGroup => p.group.1
  | .closeGroup => p.group.2
  | .openOptional => p.optional.1
  | .closeOptional => p.optional.2
  | .alternative => p.alternative
  | .terminator => p.terminator

def markOf (p : Punctuation) (c : Char) : Option Mark :=
  Mark.all.find? (p.charOf · = c)

theorem charOf_of_markOf {p : Punctuation} {c : Char} {m : Mark} (h : p.markOf c = some m) :
    p.charOf m = c := by
  simpa using List.find?_some h

theorem markOf_eq_none_iff {p : Punctuation} {c : Char} :
    p.markOf c = none ↔ ∀ m, p.charOf m ≠ c := by
  simp [markOf, Mark.mem_all]

def role (p : Punctuation) (c : Char) : Role :=
  if c = p.escape then .escape
  else if c = p.reference.1 then .reference
  else if c = p.quote then .quote
  else if c = p.weight then .weight
  else if c = p.tag.1 then .tag
  else match p.markOf c with
    | some m => .mark m
    | none => .plain

def holder (p : Punctuation) (c : Char) : Role → Char
  | .escape => p.escape
  | .reference => p.reference.1
  | .quote => p.quote
  | .weight => p.weight
  | .tag => p.tag.1
  | .mark m => p.charOf m
  | .plain => c

theorem holder_role (p : Punctuation) (c : Char) : p.holder c (p.role c) = c := by
  unfold role
  iterate 5
    split
    · exact Eq.symm ‹c = _›
  split
  · exact charOf_of_markOf ‹_›
  · rfl

end Punctuation

end SpokenGrammar
