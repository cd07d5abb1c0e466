import SpokenGrammar.Text.Quoted

namespace SpokenGrammar

inductive SupplyFault where
  | noChoices
  | tooFewBytes
  | wrongFormat
  deriving DecidableEq, Repr

def SupplyFault.message : SupplyFault → String
  | .noChoices =>
    "`arbitrary::Unstructured::choose` must be given a non-empty set of choices"
  | .tooFewBytes =>
    "There is not enough underlying raw data to construct an `Arbitrary` instance"
  | .wrongFormat =>
    "The raw data is not of the correct format to construct this type"

/-- Where a source text cannot be read on, and the distinct things that could have stood there, in
order. -/
structure Misreading where
  line : Nat
  column : Nat
  expected : List String
  deriving DecidableEq, Repr

def Misreading.message (m : Misreading) : String :=
  let wanted := match m.expected with
    | [] => "<unreported>"
    | [label] => label
    | labels => "one of " ++ String.intercalate ", " labels
  "error at " ++ toString m.line ++ ":" ++ toString m.column ++ ": expected " ++ wanted

inductive Fault where
  | misreading (m : Misreading)
  | unclosed (close : Char) (start : Nat)
  | danglingEscape (start : Nat)
  | blankRuleName
  | unbalancedGroup (position : Nat)
  | emptyHost
  | emptyGuest
  | positionOutOfRange (position last : Nat)
  | unknownReference (name : String)
  | unknownRule (name : String)
  | selfReference (name : String)
  | duplicateRules (names : List String)
  | emptyChoice
  | deadEnd (node : Nat)
  | zeroWeights
  | arityMismatch (choices weights : Nat)
  | pathLimit (limit : Nat)
  /-- The paths of a graph with a cycle never come to an end. -/
  | endless
  | emptySentence
  | supply (s : SupplyFault)
  | malformedWeight (text : String)
  | emptyWeight (text : String)
  | misplacedWeight (start : Nat)
  deriving DecidableEq, Repr

inductive FaultKind where
  | spelling
  | nesting
  | splicing
  | naming
  | sampling
  | weighting
  deriving DecidableEq, Repr

namespace Fault

def kind : Fault → FaultKind
  | misreading _ | unclosed _ _ | danglingEscape _ | blankRuleName => .spelling
  | unbalancedGroup _ => .nesting
  | emptyHost | emptyGuest | positionOutOfRange _ _ => .splicing
  | unknownReference _ | unknownRule _ | selfReference _ | duplicateRules _ => .naming
  | emptyChoice | deadEnd _ | zeroWeights | arityMismatch _ _ | pathLimit _ | endless
  | emptySentence | supply _ => .sampling
  | malformedWeight _ | emptyWeight _ | misplacedWeight _ => .weighting

def nameSet (names : List String) : String :=
  let quoted := (names.map Text.quotedText).mergeSort (fun a b => decide (a ≤ b))
  "\x7b" ++ String.intercalate ", " quoted ++ "\x7d"

def message : Fault → String
  | misreading m => m.message
  | unclosed close start =>
    "Delimiter " ++ Text.quotedChar close ++ " not found for the one opened at " ++ toString start
  | danglingEscape start => "Nothing to escape at " ++ toString start
  | blankRuleName => "Rule name is blank"
  | unbalancedGroup position => "Unbalanced group at token " ++ toString position
  | emptyHost => "Cannot splice into a graph without edges"
  | emptyGuest => "Cannot splice in a graph without edges"
  | positionOutOfRange position last =>
    "Splice position " ++ toString position ++ " exceeds the last node " ++ toString last
  | unknownReference name => "Unknown rule reference: " ++ name
  | unknownRule name => "No rule named " ++ name
  | selfReference name => "Rule " ++ name ++ " references itself"
  | duplicateRules names => "Duplicate rule definitions: " ++ nameSet names
  | emptyChoice => "Cannot choose from an empty set"
  | deadEnd node => "Node " ++ toString node ++ " has no way to the sink"
  | zeroWeights => "Every choice has a zero weight"
  | arityMismatch choices weights =>
    toString choices ++ " choices but " ++ toString weights ++ " weights"
  | pathLimit limit => "More than " ++ toString limit ++ " paths"
  | endless => "The paths never end"
  | emptySentence => "Sampled path spells no sentence"
  | supply s => s.message
  | malformedWeight text => "Malformed weight annotation: " ++ text
  | emptyWeight text => "Empty weight annotation: " ++ text
  | misplacedWeight start =>
    "Weight annotation at " ++ toString start
      ++ " does not start a branch or follows another one"

def origin : Fault → Option String
  | misreading m => some m.message
  | supply s => some s.message
  | _ => none

theorem message_eq_of_origin {f : Fault} {text : String} (h : f.origin = some text) :
    f.message = text := by
  cases f with
  | misreading m => exact Option.some.inj h
  | supply s => exact Option.some.inj h
  | _ => cases h

end Fault

end SpokenGrammar
