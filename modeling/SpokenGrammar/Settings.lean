import SpokenGrammar.Punctuation
import SpokenGrammar.Text.Blank
import SpokenGrammar.Text.Cut

namespace SpokenGrammar

structure Settings where
  punctuation : Punctuation := {}
  minimize : Bool := true
  maxPaths : Option Nat := some 100000
  trim : Bool := true
  stripTags : Bool := false
  deriving DecidableEq, Repr

/-- The text without its tags. The end of a tag is searched from its first character on, so a tag
whose two delimiters are one character ends where it starts; an unclosed tag stays. -/
def withoutTags (tag : Char × Char) (s : List Char) : List Char :=
  match _h₁ : Text.cutAt tag.1 s with
  | none => s
  | some (before, after) =>
    match _h₂ : Text.cutAt tag.2 (tag.1 :: after) with
    | none => s
    | some (_, rest) => before ++ withoutTags tag rest
  termination_by s.length
  decreasing_by
    have h₁ := Text.length_lt_of_cutAt _h₁
    have h₂ := Text.length_lt_of_cutAt _h₂
    simp only [List.length_cons] at h₂
    omega

namespace Settings

def format (o : Settings) (sentence : String) : Option String :=
  let s := if o.stripTags then withoutTags o.punctuation.tag sentence.toList else sentence.toList
  let s := if o.trim then Text.squeeze s else s
  if s = [] then none else some (String.ofList s)

end Settings

end SpokenGrammar
