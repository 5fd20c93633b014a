/-!
Double precision numbers as exact binary fractions `± mantissa · 2 ^ exponent`, and the questions
about them that have to be answered exactly.
-/

namespace FormSchema

/-- The finite number `± mantissa · 2 ^ exponent`.  Decoding gives mantissas below `2 ^ 53` and
exponents from `-1074` on. -/
structure Binary64 where
  negative : Bool
  mantissa : Nat
  exponent : Int
  deriving DecidableEq, Repr

namespace Binary64

/-- The finite number that a bit pattern stands for; infinities and not-a-number have none. -/
def ofBits? (bits : UInt64) : Option Binary64 :=
  let bits := bits.toNat
  let negative := bits / Nat.pow 2 63 == 1
  let exponent : Nat := bits / Nat.pow 2 52 % Nat.pow 2 11
  let fraction := bits % Nat.pow 2 52
  if exponent = 2047 then none
  else if exponent = 0 then some ⟨negative, fraction, -1074⟩
  else some ⟨negative, Nat.pow 2 52 + fraction, (exponent : Int) - 1075⟩

def ofFloat? (x : Float) : Option Binary64 := ofBits? x.toBits

/-- The whole number with this value, if it is whole. -/
def toInt? (x : Binary64) : Option Int :=
  let signed (n : Nat) : Int := if x.negative then -n else n
  match x.exponent with
  | .ofNat e => some (signed (x.mantissa * Nat.pow 2 e))
  | .negSucc e =>
    let unit := Nat.pow 2 (e + 1)
    if x.mantissa % unit = 0 then some (signed (x.mantissa / unit)) else none

/-- The double with the value of `x`, for a mantissa below `2 ^ 53`. -/
def toFloat (x : Binary64) : Float :=
  let magnitude := (Float.ofNat x.mantissa).scaleB x.exponent
  if x.negative then -magnitude else magnitude

/-- The remainder of `x / y` with the sign of `x`, computed without rounding; `y` is not zero. -/
def remainder (x y : Binary64) : Binary64 :=
  let exponent := min x.exponent y.exponent
  let aligned (z : Binary64) : Nat := z.mantissa * Nat.pow 2 (z.exponent - exponent).toNat
  ⟨x.negative, aligned x % aligned y, exponent⟩

end Binary64

namespace Number

/-- The whole number with the value of a double, if it is finite and whole. -/
def wholeOfFloat? (x : Float) : Option Int := (Binary64.ofFloat? x).bind (·.toInt?)

def isFinite (x : Float) : Bool := (Binary64.ofFloat? x).isSome

/-- The remainder of a division that truncates.  A finite number divided by an infinite one is its
own remainder; an infinite dividend or a zero divisor leave not-a-number. -/
def remainder (x y : Float) : Float :=
  match Binary64.ofFloat? x, Binary64.ofFloat? y with
  | some a, some b => if b.mantissa = 0 then 0.0 / 0.0 else (a.remainder b).toFloat
  | some _, none => if y.isNaN then y else x
  | none, _ => 0.0 / 0.0

def truncate (x : Float) : Float := if x < 0 then x.ceil else x.floor

end Number

end FormSchema
