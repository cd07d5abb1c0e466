import SpokenGrammar.Decimal.Nearest

/-!
# Shortest decimals

The decimal written for a double precision number lies on the coarsest decimal grid that has a
point among the reals which round to that number, and is the nearest such point to it.
-/

namespace SpokenGrammar.Decimal

structure Dyadic where
  mantissa : Nat
  exponent : Int
  deriving DecidableEq, Repr

def Dyadic.ofBits (bits : Nat) : Dyadic :=
  let fraction : Nat := bits % hiddenBit
  let biased : Nat := bits / hiddenBit % 0x800
  if biased = 0 then ⟨fraction, -1074⟩ else ⟨fraction + hiddenBit, (biased : Int) - 1075⟩

/-- The factor by which a quarter of the last binary place is taken to steps of the grid of
multiples of `10 ^ k`, as a fraction. -/
def Dyadic.gridScale (x : Dyadic) (k : Int) : Nat × Nat :=
  (Nat.pow 10 (-k).toNat <<< (x.exponent - 2).toNat, Nat.pow 10 k.toNat <<< (2 - x.exponent).toNat)

/-- How many quarters of the last binary place lie between the number and the lower end of the reals
that round to it: below a power of two the numbers are twice as dense. -/
def Dyadic.below (x : Dyadic) : Nat :=
  if x.mantissa = hiddenBit ∧ -1074 < x.exponent then 1 else 2

def Dyadic.covers (x : Dyadic) (k : Int) (n : Nat) : Bool :=
  let (a, b) := x.gridScale k
  let low := (4 * x.mantissa - x.below) * a
  let high := (4 * x.mantissa + 2) * a
  if x.mantissa % 2 = 0 then low ≤ n * b && n * b ≤ high else low < n * b && n * b < high

/-- The point nearest to the number on the grid of multiples of `10 ^ k`, if one rounds to it. If
any does, so does one of the number's two neighbours on the grid. -/
def Dyadic.onGrid (x : Dyadic) (k : Int) : Option Nat :=
  let (a, b) := x.gridScale k
  let n := 4 * x.mantissa * a / b
  match x.covers k n, x.covers k (n + 1) with
  | true, true => some (roundHalfEven (4 * x.mantissa * a) b)
  | true, false => some n
  | false, true => some (n + 1)
  | false, false => none

def grids : List Int :=
  (List.range 660).map fun (i : Nat) => (310 : Int) - i

def Dyadic.shortest (x : Dyadic) : Nat × Int :=
  (grids.findSome? fun k => (x.onGrid k).map (·, k)).getD (0, 0)

end SpokenGrammar.Decimal
