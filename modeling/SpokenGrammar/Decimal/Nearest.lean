namespace SpokenGrammar.Decimal

def roundHalfEven (a b : Nat) : Nat :=
  if 2 * (a % b) < b then a / b
  else if b < 2 * (a % b) then a / b + 1
  else a / b + a / b % 2

def scaleTwo (a b : Nat) : Int → Nat × Nat
  | .ofNat k => (a <<< k, b)
  | .negSucc k => (a, b <<< (k + 1))

def floorLog (a b : Nat) : Int :=
  let k := (a.log2 : Int) - b.log2
  let (c, d) := scaleTwo a b (-k)
  if d ≤ c then k else k - 1

def hiddenBit : Nat := 1 <<< 52

def infinityBits : Nat := 0x7FF * hiddenBit

def signBit : Nat := 1 <<< 63

/-- The bits of the double precision number nearest to `a / b`. Consecutive numbers have consecutive
bits, so a significand that rounds up to the next power of two carries into the exponent. -/
def nearestBits (a b : Nat) : Nat :=
  if a = 0 then 0
  else
    let e := max (-1074) (floorLog a b - 52)
    let (c, d) := scaleTwo a b (-e)
    min infinityBits ((e + 1074).toNat * hiddenBit + roundHalfEven c d)

def nearest (negative : Bool) (a b : Nat) : Float :=
  .ofBits (.ofNat (nearestBits a b + if negative then signBit else 0))

end SpokenGrammar.Decimal
