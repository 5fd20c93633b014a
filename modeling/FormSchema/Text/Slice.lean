import FormSchema.Text.Bytes

/-!
Positions in a text, counted in bytes, and the parts of a text between them.  There is no part where
a position is beyond the text or within a character.
-/

namespace FormSchema.Text

/-- The characters of a text with their positions, the first of which is `start`. -/
def indices (start : Nat) : List Char → List (Nat × Char)
  | [] => []
  | c :: text => (start, c) :: indices (start + c.utf8Size) text

/-- The position at which a character stands for the first time. -/
def position? (c : Char) : List Char → Option Nat
  | [] => none
  | d :: text => if d = c then some 0 else (position? c text).map (d.utf8Size + ·)

def from? : Nat → List Char → Option (List Char)
  | 0, text => some text
  | _ + 1, [] => none
  | n + 1, c :: text => if c.utf8Size ≤ n + 1 then from? (n + 1 - c.utf8Size) text else none

def upTo? : Nat → List Char → Option (List Char)
  | 0, _ => some []
  | _ + 1, [] => none
  | n + 1, c :: text =>
    if c.utf8Size ≤ n + 1 then (upTo? (n + 1 - c.utf8Size) text).map (c :: ·) else none

def slice? (start stop : Nat) (text : List Char) : Option (List Char) :=
  if start ≤ stop then (from? start text).bind (upTo? (stop - start)) else none

theorem length_le_of_from? {n : Nat} {text rest : List Char} (h : from? n text = some rest) :
    rest.length + min n 1 ≤ text.length := by
  induction text generalizing n with
  | nil =>
    cases n with
    | zero => obtain rfl := Option.some.inj h; simp
    | succ n => cases h
  | cons c text ih =>
    cases n with
    | zero => obtain rfl := Option.some.inj h; simp
    | succ n =>
      rw [from?, Option.ite_none_right_eq_some] at h
      have := ih h.2
      simp only [List.length_cons]
      omega

/-- What comes after a position other than the first one is shorter. -/
theorem length_lt_of_from? {n : Nat} {text rest : List Char} (h : from? (n + 1) text = some rest) :
    rest.length < text.length := by
  have := length_le_of_from? h
  omega

end FormSchema.Text
