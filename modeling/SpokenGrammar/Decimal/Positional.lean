import SpokenGrammar.Decimal.Shortest

namespace SpokenGrammar.Decimal

/-- A decimal `0.digits · 10 ^ point`. The point is written where it falls when it is at most four
places before the digits or sixteen places after their start; a whole number keeps one zero. -/
def place (digits : List Char) (point : Int) : List Char :=
  if 0 < point ∧ point ≤ 16 then
    let n := point.toNat
    if digits.length ≤ n then digits ++ List.replicate (n - digits.length) '0' ++ ['.', '0']
    else digits.take n ++ '.' :: digits.drop n
  else if -5 < point ∧ point ≤ 0 then
    '0' :: '.' :: List.replicate (-point).toNat '0' ++ digits
  else
    let tail := match digits.drop 1 with
      | [] => []
      | rest => '.' :: rest
    digits.take 1 ++ tail ++ 'e' :: (toString (point - 1)).toList

def magnitude (bits : Nat) : List Char :=
  let x := Dyadic.ofBits bits
  if x.mantissa = 0 then ['0', '.', '0']
  else
    let (n, k) := x.shortest
    let digits := Nat.toDigits 10 n
    place digits (digits.length + k)

def written (x : Float) : String :=
  let sign := if x.toBits.toNat < signBit then [] else ['-']
  if x.isNaN then "NaN"
  else if x.isInf then String.ofList (sign ++ ['i', 'n', 'f'])
  else String.ofList (sign ++ magnitude x.toBits.toNat)

end SpokenGrammar.Decimal
