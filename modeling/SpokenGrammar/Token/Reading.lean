import SpokenGrammar.Fault
import SpokenGrammar.Text.Offset
import SpokenGrammar.Token.Basic
import SpokenGrammar.Token.Lexeme

/-!
# Reading an expression

The tokens of an expression are its references and marks, and between them the texts gathered from
all other lexemes. A text remembers where its weight annotation is; it has at most one, and none if
it can be reached from one token alone.
-/

namespace SpokenGrammar

/-- The text gathered since the last token, its last character first, the weight annotation in it,
and whether the last token is the only one that leads here. -/
structure Draft where
  reversed : List Char := []
  weight : Option Span := none
  afterSole : Bool := false
  deriving Repr

namespace Draft

def chars (d : Draft) : List Char :=
  d.reversed.reverse

def tokens (d : Draft) : List Token :=
  if d.reversed = [] then [] else [.text (String.ofList d.chars) d.weight]

theorem tokens_of_chars_ne_nil {d : Draft} (h : d.chars ≠ []) :
    d.tokens = [.text (String.ofList d.chars) d.weight] :=
  if_neg fun hr => h (by simp [chars, hr])

def spanOf (p : Punctuation) (d : Draft) (l : Lexeme) : Span :=
  let start := Text.byteLength d.reversed
  ⟨start, start + Text.byteLength (l.chars p)⟩

def add (p : Punctuation) (d : Draft) (l : Lexeme) : Draft :=
  let reversed := (l.chars p).reverseAux d.reversed
  match l with
  | .weight _ => { d with reversed, weight := some (d.spanOf p l) }
  | _ => { d with reversed }

theorem chars_add (p : Punctuation) (d : Draft) (l : Lexeme) :
    (d.add p l).chars = d.chars ++ l.chars p := by
  have h : (d.add p l).reversed = (l.chars p).reverseAux d.reversed := by
    cases l <;> rfl
  simp [chars, h, List.reverseAux_eq]

def after (t : Token) : Draft :=
  { afterSole := t.isSoleParent }

def refusesWeight (d : Draft) : Bool :=
  d.weight.isSome || d.afterSole

end Draft

def Lexeme.token (p : Punctuation) : Lexeme → Option Token
  | .reference inside => some (.reference (String.ofList ((Lexeme.reference inside).chars p)))
  | .mark m => some (.mark m)
  | _ => none

def Breach.fault (start : Nat) : Breach → Fault
  | .dangling => .danglingEscape start
  | .unclosed close => .unclosed close start

namespace Token

/-- The tokens still to come, the end sentinel included, when `s` is left of an expression of
`whole` bytes. -/
def readRest (p : Punctuation) (whole : Nat) (d : Draft) : List Char → Except Fault (List Token)
  | [] => .ok (d.tokens ++ [.finish])
  | c :: r =>
    if p.role c = .weight ∧ d.refusesWeight then
      .error (.misplacedWeight (whole - Text.byteLength (c :: r)))
    else
      match _h : Lexeme.read p c r with
      | .error b => .error (b.fault (whole - Text.byteLength (c :: r)))
      | .ok (l, rest) =>
        match l.token p with
        | some t => (readRest p whole (.after t) rest).map (d.tokens ++ t :: ·)
        | none => readRest p whole (d.add p l) rest
  termination_by s => s.length
  decreasing_by all_goals exact Nat.lt_succ_of_le (Lexeme.length_le_of_read _h)

def read (p : Punctuation) (expression : String) : Except Fault (List Token) :=
  match expression.toList with
  | [] => .ok []
  | s => (readRest p (Text.byteLength s) {} s).map (.start :: ·)

end Token

end SpokenGrammar
