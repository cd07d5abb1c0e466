import SpokenGrammar.Punctuation
import SpokenGrammar.Text.Quoted

namespace SpokenGrammar

structure Span where
  start : Nat
  stop : Nat
  deriving DecidableEq, Repr

inductive Token where
  | start
  | finish
  | mark (m : Mark)
  | reference (name : String)
  /-- A text, and the span in it of a weight annotation that has not been taken off yet. -/
  | text (text : String) (weight : Option Span)
  deriving DecidableEq, Repr

namespace Token

def isStructural : Token → Bool
  | text t _ => t.isEmpty
  | reference _ => false
  | _ => true

def spelling : Token → String
  | text t _ => t
  | reference name => name
  | _ => ""

theorem spelling_of_isStructural {t : Token} (h : t.isStructural = true) : t.spelling = "" := by
  cases t <;> simp_all [isStructural, spelling]

def referenceName : Token → Option String
  | reference name => some name
  | _ => none

def label : Token → String
  | start => "START"
  | finish => "END"
  | mark m => String.singleton (Punctuation.charOf {} m)
  | reference name => name
  | text t _ => Text.quotedText t

/-- Whether what follows the token can be reached from it alone, so that a weight there has nothing
to be weighed against. -/
def isSoleParent : Token → Bool
  | reference _ => true
  | mark m => m.opener.isSome
  | _ => false

end Token

end SpokenGrammar
