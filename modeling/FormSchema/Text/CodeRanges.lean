/-! Sets of characters as ranges of code points, read from the text of a table. -/

namespace FormSchema.Text

/-- The words of a text: its longest parts without a blank or a line end. -/
def words (text : List Char) : List (List Char) :=
  ((text.map fun c => if c == '\n' then ' ' else c).splitOn ' ').filter (!·.isEmpty)

/-- The value of a hexadecimal digit, in either case. -/
def hexDigit? (c : Char) : Option Nat :=
  if '0' ≤ c ∧ c ≤ '9' then some (c.toNat - '0'.toNat)
  else if 'a' ≤ c ∧ c ≤ 'f' then some (c.toNat - 'a'.toNat + 10)
  else if 'A' ≤ c ∧ c ≤ 'F' then some (c.toNat - 'A'.toNat + 10)
  else none

def hexValue (digits : List Char) : Nat :=
  digits.foldl (fun n c => 16 * n + (hexDigit? c).getD 0) 0

abbrev CodeRanges := List (Nat × Nat)

namespace CodeRanges

/-- Reads a table such as `41-5A AA`: a range by its two ends, a single character by itself. -/
def read (table : String) : CodeRanges :=
  (words table.toList).map fun word =>
    match word.splitOn '-' with
    | [low, high] => (hexValue low, hexValue high)
    | _ => (hexValue word, hexValue word)

def contains (ranges : CodeRanges) (c : Char) : Bool :=
  ranges.any fun range => range.1 ≤ c.toNat && c.toNat ≤ range.2

@[simp] theorem contains_nil (c : Char) : contains [] c = false := rfl

end CodeRanges

end FormSchema.Text
