import SpokenGrammar.Source.Reader

/-!
# Sources

The text of a grammar: an optional header, an optional name, imports, and definitions of rules, with
layout between them. An expression is kept as text. It ends at the first terminator that is not
escaped, nor between delimiters of a quote, a weight, a tag or a reference; an opening delimiter
that is never closed is an ordinary character.
-/

namespace SpokenGrammar

structure Definition where
  isPublic : Bool
  name : String
  expression : String
  deriving DecidableEq, Repr

structure Source where
  name : Option String
  imports : List String
  rules : List Definition
  deriving DecidableEq, Repr

namespace Source

open Reader

def header : Reader Unit := do
  word "#JSGF"
  let _ ← runTo ';'
  word ";"

def isNameChar (c : Char) : Bool :=
  c ≠ ';' && c ≠ ' ' && c ≠ '\t' && c ≠ '\n' && c ≠ '\r'

def nameLabel : String :=
  "[^ ';' | ' ' | '\\t' | '\\n' | '\\r']"

def nameText : Reader String :=
  taken do
    let _ ← one nameLabel isNameChar
    run nameLabel isNameChar

def grammarName : Reader String := do
  word "grammar"
  someLayout
  let name ← nameText
  layout
  word ";"
  return name

def reference : Reader String :=
  taken (enclosed '<' '>')

def importName : Reader String := do
  word "import"
  layout
  let name ← reference
  layout
  word ";"
  return name

/-- A piece of an expression that cannot be cut: an escaped character, an enclosed stretch, or any
character but the terminator. -/
def expressionPiece : Reader Unit :=
  (do word "\\"; let _ ← one "[_]" fun _ => true)
    <|> enclosed '"' '"'
    <|> enclosed '/' '/'
    <|> enclosed '{' '}'
    <|> enclosed '<' '>'
    <|> (do let _ ← one "[^ ';']" (· ≠ ';'))

def expression : Reader String :=
  taken do
    let _ ← many expressionPiece
    word ";"

def publicWord : Reader Unit := do
  word "public"
  someLayout

def definition : Reader Definition := do
  let visible ← optional publicWord
  let name ← reference
  layout
  word "="
  layout
  return { isPublic := visible.isSome, name, expression := ← expression }

def source : Reader Source := do
  layout
  let _ ← optional header
  layout
  let name ← optional grammarName
  layout
  let imports ← separated importName layout
  layout
  let rules ← separated definition layout
  layout
  return { name, imports, rules }

def read (text : String) : Except Fault Source :=
  source.readAll text

end Source

end SpokenGrammar
