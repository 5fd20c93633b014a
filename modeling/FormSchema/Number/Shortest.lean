import FormSchema.Number.Binary64

/-!
The shortest decimal that reads back as a given double: the decimals that round to it form an
interval, and the first grid `10 ^ 0`, `10 ^ -1`, … below the leading digit with a point in that
interval gives the digits.
-/

namespace FormSchema

/-- The number `digits · 10 ^ exponent`. -/
structure Decimal where
  digits : Nat
  exponent : Int
  deriving DecidableEq, Repr

namespace Decimal

/-- How many digits `n` has in base ten; zero has none. -/
def digitCount (n : Nat) : Nat :=
  if n = 0 then 0 else digitCount (n / 10) + 1

@[simp] theorem digitCount_zero : digitCount 0 = 0 := by simp [digitCount]

/-- A positive fraction with the interval of numbers that stand for it; all three numerators are
over one denominator. -/
structure Interval where
  low : Nat
  value : Nat
  high : Nat
  denominator : Nat
  /-- Whether the two ends belong to the interval. -/
  closed : Bool

namespace Interval

/-- The numbers that round to a positive double: half a unit to each side, but only a quarter of
one downward from a power of two, and with the ends if the mantissa is even. -/
def ofBinary64 (x : Binary64) : Interval :=
  let below := if x.mantissa = Nat.pow 2 52 ∧ -1074 < x.exponent then 1 else 2
  let (up, denominator) : Nat × Nat :=
    match x.exponent - 2 with
    | .ofNat e => (Nat.pow 2 e, 1)
    | .negSucc e => (1, Nat.pow 2 (e + 1))
  { low := (4 * x.mantissa - below) * up
    value := 4 * x.mantissa * up
    high := (4 * x.mantissa + 2) * up
    denominator
    closed := x.mantissa % 2 == 0 }

def contains (i : Interval) (n d : Nat) : Bool :=
  let n := n * i.denominator
  if i.closed then i.low * d ≤ n && n ≤ i.high * d else i.low * d < n && n < i.high * d

/-- The exponent `k` with `10 ^ (k - 1) ≤ value < 10 ^ k`. -/
def magnitude (i : Interval) : Int :=
  if i.denominator ≤ i.value then (digitCount (i.value / i.denominator) : Int)
  else 1 - (digitCount ((i.denominator + i.value - 1) / i.value - 1) : Int)

/-- The point of the grid `10 ^ exponent` in the interval that is nearest to the value; of two
equally near ones the even one. -/
def nearest? (i : Interval) (exponent : Int) : Option Decimal :=
  let scale := Nat.pow 10 (-exponent).toNat
  let unit := Nat.pow 10 exponent.toNat
  let numerator := i.value * scale
  let divisor := i.denominator * unit
  let down := numerator / divisor
  let inside (n : Nat) : Bool := i.contains (n * unit) scale
  let rest := 2 * (numerator % divisor)
  if inside down && inside (down + 1) then
    let up := divisor < rest || (rest == divisor && down % 2 == 1)
    some ⟨if up then down + 1 else down, exponent⟩
  else if inside down then some ⟨down, exponent⟩
  else if inside (down + 1) then some ⟨down + 1, exponent⟩
  else none

/-- The shortest decimal in the interval, seventeen digits being enough for every double. -/
def shortest (i : Interval) : Decimal :=
  ((List.range 17).findSome? fun n : Nat => i.nearest? (i.magnitude - (n + 1 : Int))).getD ⟨0, 0⟩

end Interval

/-- A decimal without the zeros at the end of its digits. -/
def stripZeros (d : Decimal) : Decimal :=
  if h : d.digits = 0 then ⟨0, 0⟩
  else if d.digits % 10 = 0 then stripZeros ⟨d.digits / 10, d.exponent + 1⟩
  else d
termination_by d.digits
decreasing_by omega

/-- The shortest decimal that reads back as the magnitude of a finite double. -/
def ofBinary64 (x : Binary64) : Decimal :=
  if x.mantissa = 0 then ⟨0, 0⟩ else (Interval.ofBinary64 x).shortest.stripZeros

end Decimal

end FormSchema
