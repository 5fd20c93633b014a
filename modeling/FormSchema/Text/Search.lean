/-! Finding one text in another. -/

namespace FormSchema.Text

def indexOf? (needle : List Char) : List Char → Option Nat
  | [] => if needle.isEmpty then some 0 else none
  | c :: text =>
    if needle.isPrefixOf (c :: text) then some 0 else (indexOf? needle text).map (· + 1)

def contains (needle text : List Char) : Bool := (indexOf? needle text).isSome

end FormSchema.Text
