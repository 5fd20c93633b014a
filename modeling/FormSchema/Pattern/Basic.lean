/-!
Patterns of text.  A pattern says between which two positions of a text it fits; it is found in a
text when it fits anywhere.  `ends` computes the positions that a pattern reaches from a set of
positions, so that no choice among several ways to fit is ever made.
-/

namespace FormSchema

inductive Pattern where
  | empty
  /-- One character of a set. -/
  | one (set : Char → Bool)
  /-- A position between two characters; there is none before the start and after the end. -/
  | edge (test : Option Char → Option Char → Bool)
  | seq (first second : Pattern)
  | either (first second : Pattern)
  /-- At least `least` times, and at most `most` times if that is given. -/
  | times (p : Pattern) (least : Nat) (most : Option Nat)

namespace Pattern

def before? (text : Array Char) (i : Nat) : Option Char :=
  if i = 0 then none else text[i - 1]?

def union (a b : List Nat) : List Nat := a ++ b.filter fun i => !a.contains i

/-- What exactly `n` steps reach; a step that changes nothing is the last. -/
def exactly (step : List Nat → List Nat) : Nat → List Nat → List Nat
  | 0, here => here
  | n + 1, here =>
    let next := step here
    if next == here then here else exactly step n next

/-- What at most `n` steps reach, given what is reached already and the part of it from which no
step was taken. -/
def within (step : List Nat → List Nat) : Nat → List Nat → List Nat → List Nat
  | 0, reached, _ => reached
  | n + 1, reached, fresh =>
    let next := (step fresh).filter fun i => !reached.contains i
    if next.isEmpty then reached else within step n (reached ++ next) next

/-- The positions that a pattern reaches from those given.  A text with `n` characters has `n + 1`
positions, so that as many steps reach all that can be reached. -/
def ends (text : Array Char) : Pattern → List Nat → List Nat
  | .empty, here => here
  | .one set, here => (here.filter fun i => text[i]?.any set).map (· + 1)
  | .edge test, here => here.filter fun i => test (before? text i) text[i]?
  | .seq p q, here => ends text q (ends text p here)
  | .either p q, here => union (ends text p here) (ends text q here)
  | .times p least most, here =>
    let start := exactly (ends text p) least here
    within (ends text p) ((most.map (· - least)).getD (text.size + 1)) start start

def found (p : Pattern) (text : String) : Bool :=
  let text := text.toList.toArray
  !(ends text p (List.range (text.size + 1))).isEmpty

end Pattern

end FormSchema
