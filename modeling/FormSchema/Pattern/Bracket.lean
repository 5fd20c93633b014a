import FormSchema.Pattern.Escape

/-!
Sets of characters in brackets: characters, ranges, named classes and inner brackets side by side
form a union, `&&`, `--` and `~~` join what stands on their two sides, from left to right.
-/

namespace FormSchema.Pattern.Bracket

/-- A set as it is being read, with its depth and the number of its parts. -/
structure Operand where
  set : CharSet
  depth : Nat
  weight : Nat

namespace Operand

def char (c : Char) : Operand := ⟨.only c, 0, 1⟩

/-- Several operands side by side, the last one first. -/
def union : List Operand → Operand
  | [] => ⟨.empty, 0, 0⟩
  | [operand] => operand
  | operands =>
    { set := fun c => operands.any fun operand => operand.set c
      depth := 1 + (operands.map Operand.depth).foldl max 0
      weight := operands.foldl (fun total operand => total + operand.weight) 0 }

end Operand

inductive Join where
  | inter | diff | symmDiff

def Join.apply : Join → CharSet → CharSet → CharSet
  | .inter => .inter
  | .diff => .diff
  | .symmDiff => .symmDiff

/-- A bracket that is open: whether it was negated, the operands before it in the bracket around it,
and what stands to the left of the last join in it. -/
structure Level where
  negated : Bool
  before : List Operand
  left : Option (Join × Operand) := none

/-- The left side of a level joined with what follows it. -/
def Level.joined (level : Level) (flags : Flags) (right : Operand) : Operand :=
  match level.left with
  | none => right
  | some (join, left) =>
    { set := join.apply (flags.fold left.set) (flags.fold right.set)
      depth := 1 + max left.depth right.depth
      weight := left.weight + right.weight }

def hyphens (flags : Flags) : List Char → List Operand → Option (List Operand × List Char)
  | [], _ => none
  | c :: rest, items =>
    if c == '-' then hyphens flags (skip flags rest) (.char '-' :: items)
    else some (items, c :: rest)
termination_by text => text.length
decreasing_by
  have := length_skip_le flags rest
  simp only [List.length_cons]
  omega

/-- The start of a bracket, after `[`: hyphens there stand for themselves, and so does a closing
bracket that comes first. -/
def openLevel (flags : Flags) (before : List Operand) (text : List Char) :
    Option (Level × List Operand × List Char) := do
  let text := skip flags text
  let (negated, text) := match text with
    | '^' :: rest => (true, skip flags rest)
    | text => (false, text)
  let (items, text) ← hyphens flags text []
  let level : Level := { negated, before }
  match items, text with
  | [], ']' :: rest =>
    let rest := skip flags rest
    if rest.isEmpty then none else return (level, [.char ']'], rest)
  | items, text => return (level, items, text)

/-- A class of plain characters by name, as in `[:alpha:]` or `[:^alpha:]`, and whether it is
negated. -/
def namedClass? (text : List Char) : Option (Bool × CharSet × List Char) := do
  let text ← match text with
    | '[' :: ':' :: rest => some rest
    | _ => none
  let (negated, text) := match text with
    | '^' :: rest => (true, rest)
    | text => (false, text)
  let name := text.takeWhile (· != ':')
  let rest ← match text.drop name.length with
    | ':' :: ']' :: rest => some rest
    | _ => none
  return (negated, ← CharSet.named? (String.ofList name), rest)

def piece (flags : Flags) : List Char → Option (Piece × List Char)
  | [] => none
  | '\\' :: rest => escape flags rest
  | c :: rest => some (.char c false, rest)

def charOf? (flags : Flags) : Piece → Option Char
  | .char c raw => if flags.plain && 0x80 ≤ c.toNat && !raw then none else some c
  | _ => none

def operandOf? (flags : Flags) (piece : Piece) : Option Operand :=
  match piece with
  | .set s weight => some ⟨s, 0, weight⟩
  | .char c _ => (charOf? flags piece).map fun _ => .char c
  | .edge _ => none

/-- A piece or a range between two characters.  A hyphen before another one or before the closing
bracket makes no range. -/
def item (flags : Flags) (text : List Char) : Option (Operand × List Char) := do
  let (first, rest) ← piece flags text
  match skip flags rest with
  | [] => none
  | '-' :: rest =>
    match skip flags rest with
    | ']' :: _ | '-' :: _ => return (← operandOf? flags first, '-' :: rest)
    | rest' =>
      let (second, rest) ← piece flags rest'
      let low ← charOf? flags first
      let high ← charOf? flags second
      if low ≤ high then return (⟨.range low high, 0, 4⟩, rest) else none
  | rest => return (← operandOf? flags first, rest)

def close (flags : Flags) (level : Level) (items : List Operand) : Option Operand := do
  let whole := level.joined flags (.union items)
  return ⟨← flags.finish level.negated whole.set, whole.depth + 1, whole.weight⟩

/-- What follows `[`, with the levels around it and the operands of the innermost one, the last one
first.  Every round takes at least one character. -/
def read (flags : Flags) (level : Level) (outer : List Level) (items : List Operand)
    (text : List Char) : Option (Operand × List Char) :=
  let goOn (level : Level) (outer : List Level) (items : List Operand) (rest : List Char) :=
    if rest.length < text.length then read flags level outer items rest else none
  match skip flags text with
  | [] => none
  | ']' :: rest =>
    match close flags level items with
    | none => none
    | some operand =>
      match outer with
      | [] => some (operand, rest)
      | level' :: outer => goOn level' outer (operand :: level.before) rest
  | '&' :: '&' :: rest =>
    goOn { level with left := some (.inter, level.joined flags (.union items)) } outer [] rest
  | '-' :: '-' :: rest =>
    goOn { level with left := some (.diff, level.joined flags (.union items)) } outer [] rest
  | '~' :: '~' :: rest =>
    goOn { level with left := some (.symmDiff, level.joined flags (.union items)) } outer [] rest
  | '[' :: rest =>
    match namedClass? ('[' :: rest) with
    | some (negated, s, rest) =>
      match flags.finish negated s with
      | some s => goOn level outer (⟨s, 0, 4⟩ :: items) rest
      | none => none
    | none =>
      match openLevel flags items rest with
      | some (inner, items, rest) => goOn inner (level :: outer) items rest
      | none => none
  | rest =>
    match item flags rest with
    | some (operand, rest) => goOn level outer (operand :: items) rest
    | none => none
termination_by text.length

def set (flags : Flags) (text : List Char) : Option (Operand × List Char) := do
  let (level, items, rest) ← openLevel flags [] text
  read flags level [] items rest

end FormSchema.Pattern.Bracket
