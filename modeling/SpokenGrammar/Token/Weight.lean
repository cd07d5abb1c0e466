import SpokenGrammar.Decimal.Numeral
import SpokenGrammar.Fault
import SpokenGrammar.Text.Offset
import SpokenGrammar.Token.Basic

namespace SpokenGrammar

def undelimited (delimiter : Char) : List Char → Option (List Char)
  | [] => none
  | c :: r =>
    if c = delimiter ∧ r.getLast? = some delimiter then some r.dropLast else none

theorem undelimited_eq_some_iff {delimiter : Char} {s inside : List Char} :
    undelimited delimiter s = some inside ↔ s = delimiter :: inside ++ [delimiter] := by
  cases s with
  | nil => simp [undelimited]
  | cons c r =>
    simp only [undelimited, Option.ite_none_right_eq_some, Option.some.injEq, List.cons_append,
      List.cons.injEq, List.getLast?_eq_some_iff]
    constructor
    · rintro ⟨⟨rfl, s, rfl⟩, rfl⟩
      simp
    · rintro ⟨rfl, rfl⟩
      simp

/-- A weight is finite and not negative; zero counts as not negative under either sign. -/
def isWeight (w : Float) : Bool :=
  w.isFinite && !(w < 0)

def takeWeight (text : String) (span : Span) (delimiter : Char) : Except Fault (String × Float) :=
  match Text.sliceBytes span.start span.stop text.toList with
  | none => .error (.malformedWeight text)
  | some (before, annotation, after) =>
    match undelimited delimiter annotation with
    | none => .error (.malformedWeight text)
    | some inside =>
      if Text.allBlank inside then .error (.emptyWeight text)
      else
        match (Decimal.Numeral.read (Text.trim inside)).map Decimal.Numeral.toFloat with
        | none => .error (.malformedWeight text)
        | some w =>
          if isWeight w then .ok (String.ofList (before ++ after), w)
          else .error (.malformedWeight text)

def Token.takeWeight (delimiter : Char) : Token → Except Fault (Token × Option Float)
  | .text t (some span) =>
    (SpokenGrammar.takeWeight t span delimiter).map fun (t, w) => (.text t none, some w)
  | t => .ok (t, none)

end SpokenGrammar
