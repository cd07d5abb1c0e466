import SpokenGrammar.Decimal.Nearest

namespace SpokenGrammar.Decimal

structure Numeral where
  negative : Bool
  digits : Nat
  exponent : Int
  deriving DecidableEq, Repr

def ofDigits (s : List Char) : Nat :=
  s.foldl (fun n c => 10 * n + (c.toNat - '0'.toNat)) 0

def readSign : List Char → Bool × List Char
  | '-' :: r => (true, r)
  | '+' :: r => (false, r)
  | s => (false, s)

def readDigits (s : List Char) : List Char × List Char :=
  (s.takeWhile Char.isDigit, s.dropWhile Char.isDigit)

def readFraction : List Char → List Char × List Char
  | '.' :: r => readDigits r
  | s => ([], s)

def readExponent : List Char → Option Int
  | [] => some 0
  | c :: r =>
    let (negative, r) := readSign r
    let (digits, rest) := readDigits r
    if (c = 'e' ∨ c = 'E') ∧ digits ≠ [] ∧ rest = [] then
      some (if negative then -(ofDigits digits : Int) else ofDigits digits)
    else none

def Numeral.read (s : List Char) : Option Numeral :=
  let (negative, r) := readSign s
  let (whole, r) := readDigits r
  let (fraction, r) := readFraction r
  if whole ++ fraction = [] then none
  else (readExponent r).map fun e =>
    { negative, digits := ofDigits (whole ++ fraction), exponent := e - fraction.length }

/-- The nearest double precision number. Beyond four hundred decimal places on either side of the
point every number is infinite or zero, so no power of ten is formed there. -/
def Numeral.toFloat (n : Numeral) : Float :=
  if n.digits = 0 ∨ n.exponent + n.digits.log2 < -400 then nearest n.negative 0 1
  else if 400 < n.exponent then .ofBits (.ofNat (infinityBits + if n.negative then signBit else 0))
  else
    match n.exponent with
    | .ofNat k => nearest n.negative (n.digits * Nat.pow 10 k) 1
    | .negSucc k => nearest n.negative n.digits (Nat.pow 10 (k + 1))

end SpokenGrammar.Decimal
