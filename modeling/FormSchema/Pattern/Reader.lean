import FormSchema.Pattern.Basic
import FormSchema.Pattern.Bracket
import FormSchema.Number.Read

/-!
Reading patterns.  There are branches, groups with or without a name, flags for the rest of a group,
repetitions, sets, edges and escapes; nothing looks ahead or behind, and nothing refers back to a
group.  Patterns that nest too deeply or grow too large when their repetitions are counted out are
refused.
-/

namespace FormSchema.Pattern

structure Part where
  pattern : Pattern
  depth : Nat
  /-- How large the pattern is when its repetitions are counted out. -/
  weight : Nat
  /-- Flags cannot be repeated. -/
  repeatable : Bool := true

def depthLimit : Nat := 250

def weightLimit : Nat := 327680

namespace Part

def edge (test : Option Char → Option Char → Bool) : Part := ⟨.edge test, 0, 1, true⟩

def set (s : CharSet) (weight : Nat) : Part := ⟨.one s, 0, weight, true⟩

def deepest (parts : List Part) : Nat := (parts.map Part.depth).foldl max 0

def totalWeight (parts : List Part) : Nat :=
  parts.foldl (fun total part => total + part.weight) 0

/-- Parts one after the other, the last one first. -/
def concat : List Part → Part
  | [] => ⟨.empty, 0, 0, false⟩
  | [part] => part
  | parts =>
    { pattern := parts.foldl (fun rest part => .seq part.pattern rest) .empty
      depth := 1 + deepest parts
      weight := totalWeight parts }

/-- Branches beside each other, the last one first. -/
def branches : List Part → Part
  | [] => ⟨.empty, 0, 0, true⟩
  | [part] => part
  | last :: parts =>
    { pattern := parts.foldl (fun rest part => .either part.pattern rest) last.pattern
      depth := 1 + deepest (last :: parts)
      weight := totalWeight (last :: parts) }

/-- Each repetition that is counted weighs as much as the part. -/
def times (part : Part) (least : Nat) (most : Option Nat) : Part :=
  { pattern := .times part.pattern least most
    depth := 1 + part.depth
    weight := (most.getD (max least 1)) * part.weight + 1 }

end Part

/-- A group that is open: the flags to go back to, and what was read before it in the group around
it. -/
structure Level where
  flags : Flags
  branches : List Part
  parts : List Part

/-- The group that is being read, the groups around it, and the names of groups so far. -/
structure State where
  flags : Flags := {}
  branches : List Part := []
  parts : List Part := []
  outer : List Level := []
  names : List (List Char) := []

namespace State

def add (state : State) (part : Part) : State := { state with parts := part :: state.parts }

def enter (state : State) (flags : Flags) : State :=
  { state with
    flags, branches := [], parts := []
    outer := ⟨state.flags, state.branches, state.parts⟩ :: state.outer }

def content (state : State) : Part :=
  Part.branches (Part.concat state.parts :: state.branches)

def leave (state : State) : Option State :=
  match state.outer with
  | [] => none
  | level :: outer =>
    let group := state.content
    some { state with
      flags := level.flags
      branches := level.branches
      parts := { group with depth := group.depth + 1, repeatable := true } :: level.parts
      outer }

def repeatLast (state : State) (least : Nat) (most : Option Nat) : Option State :=
  match state.parts with
  | [] => none
  | part :: parts =>
    if part.repeatable then some { state with parts := part.times least most :: parts } else none

end State

/-- The text after a question mark, which asks for as few repetitions as possible and so does not
matter for what is found. -/
def skipLazy : List Char → List Char
  | '?' :: rest => rest
  | text => text

/-- The digits at the start of a text; blanks that do not count may stand among them. -/
def digitRun (flags : Flags) : List Char → List Char × List Char
  | [] => ([], [])
  | c :: rest =>
    if Text.isPlainDigit c then
      let (digits, rest) := digitRun flags (skip flags rest)
      (c :: digits, rest)
    else ([], c :: rest)
termination_by text => text.length
decreasing_by
  have := length_skip_le flags rest
  simp only [List.length_cons]
  omega

/-- The number at the start of a text, if there is one, with blanks around it; it is below
`2 ^ 32`. -/
def count? (flags : Flags) (text : List Char) : Option (Option Nat × List Char) :=
  let (digits, rest) := digitRun flags (text.dropWhile Text.isBlank)
  let rest := rest.dropWhile Text.isBlank
  if digits.isEmpty then some (none, rest)
  else
    let n := Number.digitsValue digits
    if n < Nat.pow 2 32 then some (some n, rest) else none

/-- How often something is repeated, after `{`: exactly, at least, or between two numbers. -/
def bounds (flags : Flags) (text : List Char) : Option (Nat × Option Nat × List Char) := do
  let (first, rest) ← count? flags (skip flags text)
  let least ← first
  let (most, rest) ← match rest with
    | ',' :: rest =>
      match skip flags rest with
      | '\x7d' :: rest => some (none, '\x7d' :: rest)
      | rest => do
        let (second, rest) ← count? flags rest
        let most ← second
        if least ≤ most then some (some most, rest) else none
    | rest => some (some least, rest)
  match rest with
  | '\x7d' :: rest => some (least, most, skip flags rest)
  | _ => none

/-- The name of a group and what follows it; a name stands once. -/
def groupName? (names : List (List Char)) (text : List Char) :
    Option (List Char × List Char) :=
  let name := text.takeWhile (· != '>')
  match name, text.drop name.length with
  | first :: others, '>' :: rest =>
    if (first == '_' || Text.isAlphabetic first) &&
        others.all (fun c => c == '_' || c == '.' || c == '[' || c == ']' ||
          Text.isAlphanumeric c) &&
        !names.contains name then
      some (name, rest)
    else none
  | _, _ => none

/-- What follows an opening parenthesis: a group, or flags. -/
def openGroup (state : State) (text : List Char) : Option (State × List Char) :=
  match skip state.flags text with
  | '?' :: 'P' :: '<' :: rest => named rest
  | '?' :: '<' :: '=' :: _ | '?' :: '<' :: '!' :: _ => none
  | '?' :: '<' :: rest => named rest
  | '?' :: rest => do
    let (flags, seen, rest) ← state.flags.read [] rest
    match rest with
    | ':' :: rest => some (state.enter flags, rest)
    | _ :: rest =>
      if seen.isEmpty then none
      else some ({ state with flags }.add ⟨.empty, 0, 0, false⟩, rest)
    | [] => none
  | rest => some (state.enter state.flags, rest)
where
  named (text : List Char) : Option (State × List Char) := do
    let (name, rest) ← groupName? state.names text
    return ({ state with names := name :: state.names }.enter state.flags, rest)

def pieceOf? (flags : Flags) : Piece → Option Part
  | .char c raw =>
    if flags.plain && raw && 0x80 ≤ c.toNat then none
    else some (.set (flags.fold (.only c)) c.utf8Size)
  | .set s weight => some (.set s weight)
  | .edge test => some (.edge test)

/-- The dot: any character, or any that ends no line. -/
def dot? (flags : Flags) : Option Part :=
  if flags.plain then none
  else if flags.dotAll then some (.set (fun _ => true) 8)
  else if flags.carriage then some (.set (fun c => c != '\n' && c != '\r') 8)
  else some (.set (fun c => c != '\n') 8)

def step (state : State) (c : Char) (rest : List Char) : Option (State × List Char) :=
  let flags := state.flags
  match c with
  | '(' => openGroup state rest
  | ')' => state.leave.map fun state => (state, rest)
  | '|' =>
    some ({ state with
      branches := Part.concat state.parts :: state.branches
      parts := [] }, rest)
  | '[' => do
    let (operand, rest) ← Bracket.set flags rest
    return (state.add ⟨.one operand.set, operand.depth, operand.weight, true⟩, rest)
  | '?' => (state.repeatLast 0 (some 1)).map fun state => (state, skipLazy rest)
  | '*' => (state.repeatLast 0 none).map fun state => (state, skipLazy rest)
  | '+' => (state.repeatLast 1 none).map fun state => (state, skipLazy rest)
  | '\x7b' => do
    let (least, most, rest) ← bounds flags rest
    return (← state.repeatLast least most, skipLazy rest)
  | '\\' => do
    let (piece, rest) ← escape flags rest
    return (state.add (← pieceOf? flags piece), rest)
  | '.' => (dot? flags).map fun part => (state.add part, rest)
  | '^' =>
    some (state.add (.edge (if flags.lines then Edge.lineStart flags.carriage else Edge.start)),
      rest)
  | '$' =>
    some (state.add (.edge (if flags.lines then Edge.lineStop flags.carriage else Edge.stop)),
      rest)
  | c => some (state.add (.set (flags.fold (.only c)) c.utf8Size), rest)

/-- Every round takes at least one character. -/
def run (state : State) (text : List Char) : Option State :=
  match skip state.flags text with
  | [] => some state
  | c :: rest =>
    match step state c rest with
    | none => none
    | some (state, rest) => if rest.length < text.length then run state rest else none
termination_by text.length

/-- The pattern that a text writes, if it is well formed. -/
def read? (text : String) : Option Pattern := do
  let state ← run {} text.toList
  let whole := state.content
  if state.outer.isEmpty && whole.depth ≤ depthLimit && whole.weight ≤ weightLimit then
    return whole.pattern
  else none

end FormSchema.Pattern
