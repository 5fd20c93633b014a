import FormSchema.Number.Shortest

/-! The two ways in which numbers are written: in JSON text, and plainly in messages. -/

namespace FormSchema

structure NumberLayout where
  /-- Whether a number whose first digit stands for `10 ^ k` is written without an exponent. -/
  positional : Int → Bool
  /-- What follows a whole number that is written without an exponent. -/
  whole : String
  infinite : String
  notANumber : String

namespace NumberLayout

/-- JSON text: no exponent from `10 ^ -5` to `10 ^ 15`, and every number is recognisably not an
integer.  JSON has no infinities. -/
def json : NumberLayout :=
  { positional := fun k => -5 ≤ k && k ≤ 15
    whole := ".0"
    infinite := "null"
    notANumber := "null" }

/-- Messages: never an exponent, and nothing after a whole number. -/
def plain : NumberLayout :=
  { positional := fun _ => true, whole := "", infinite := "inf", notANumber := "NaN" }

def zeros (n : Nat) : String := String.ofList (List.replicate n '0')

/-- The text of a decimal.  An exponent has its sign and no leading zeros. -/
def decimal (layout : NumberLayout) (d : Decimal) : String :=
  let digits := d.digits.repr
  let count := digits.length
  let first : Int := count - 1 + d.exponent
  if layout.positional first then
    if 0 ≤ d.exponent then digits ++ zeros d.exponent.toNat ++ layout.whole
    else if 0 ≤ first then
      let split := first.toNat + 1
      String.ofList (digits.toList.take split) ++ "." ++ String.ofList (digits.toList.drop split)
    else "0." ++ zeros (-first - 1).toNat ++ digits
  else
    let fraction := digits.toList.drop 1
    String.ofList (digits.toList.take 1) ++
      (if fraction.isEmpty then "" else "." ++ String.ofList fraction) ++
      "e" ++ (if first < 0 then "-" else "+") ++ first.natAbs.repr

/-- The text of a double: the shortest decimal that reads back as it. -/
def float (layout : NumberLayout) (x : Float) : String :=
  match Binary64.ofFloat? x with
  | some b => (if b.negative then "-" else "") ++ layout.decimal (Decimal.ofBinary64 b)
  | none => if x.isNaN then layout.notANumber else (if x < 0 then "-" else "") ++ layout.infinite

end NumberLayout

end FormSchema
