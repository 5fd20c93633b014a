import FormSchema.Pattern.CharSet
import FormSchema.Text.Search

/-!
The smallest pieces of a written pattern: flags, blanks that do not count, and what a backslash
introduces.  Each reader takes the text from its piece on and returns what follows the piece;
`none` means that the pattern is not well formed.
-/

namespace FormSchema.Pattern

structure Flags where
  /-- Upper and lower case do not differ. -/
  anyCase : Bool := false
  /-- `^` and `$` stand at the ends of every line. -/
  lines : Bool := false
  /-- The dot takes line ends too. -/
  dotAll : Bool := false
  /-- Carriage returns end lines as well. -/
  carriage : Bool := false
  /-- Only plain characters are meant. -/
  plain : Bool := false
  /-- Blanks and comments do not count. -/
  spaced : Bool := false

namespace Flags

def set? (flags : Flags) (letter : Char) (on : Bool) : Option Flags :=
  match letter with
  | 'i' => some { flags with anyCase := on }
  | 'm' => some { flags with lines := on }
  | 's' => some { flags with dotAll := on }
  | 'R' => some { flags with carriage := on }
  | 'u' => some { flags with plain := !on }
  | 'x' => some { flags with spaced := on }
  | 'U' => some flags
  | _ => none

/-- Reads flags up to a colon or a closing parenthesis; those after a minus are turned off.  Nothing
stands twice, and the minus is not the last. -/
def read (flags : Flags) (seen : List Char) : List Char → Option (Flags × List Char × List Char)
  | [] => none
  | c :: rest =>
    if c == ':' || c == ')' then
      if seen.head? == some '-' then none else some (flags, seen, c :: rest)
    else if seen.contains c then none
    else if c == '-' then read flags (c :: seen) rest
    else
      match flags.set? c (!seen.contains '-') with
      | none => none
      | some flags => read flags (c :: seen) rest

def fold (flags : Flags) (s : CharSet) : CharSet :=
  if !flags.anyCase then s else if flags.plain then s.anyPlainCase else s.anyCase

/-- A set as the flags take it, or its complement.  Where only plain characters are meant, a set
with any other is refused. -/
def finish (flags : Flags) (negated : Bool) (s : CharSet) : Option CharSet :=
  let s := flags.fold s
  let s := if negated then s.compl else s
  if flags.plain && s.pastPlain then none else some s

def wordSet (flags : Flags) : CharSet :=
  if flags.plain then CharSet.plain Text.isWord else Text.isWord

end Flags

/-- The text after blanks and after comments, which go from `#` to the end of the line. -/
def skipBlanks (inComment : Bool) : List Char → List Char
  | [] => []
  | c :: rest =>
    if inComment then skipBlanks (c != '\n') rest
    else if c == '#' then skipBlanks true rest
    else if Text.isBlank c then skipBlanks false rest
    else c :: rest

def skip (flags : Flags) (text : List Char) : List Char :=
  if flags.spaced then skipBlanks false text else text

theorem length_skipBlanks_le (inComment : Bool) (text : List Char) :
    (skipBlanks inComment text).length ≤ text.length := by
  induction text generalizing inComment with
  | nil => simp [skipBlanks]
  | cons c rest ih =>
    unfold skipBlanks
    split
    · exact Nat.le_succ_of_le (ih _)
    · split
      · exact Nat.le_succ_of_le (ih _)
      · split
        · exact Nat.le_succ_of_le (ih _)
        · exact Nat.le_refl _

theorem length_skip_le (flags : Flags) (text : List Char) :
    (skip flags text).length ≤ text.length := by
  unfold skip
  split
  · exact length_skipBlanks_le _ _
  · exact Nat.le_refl _

inductive Piece where
  /-- A character; `raw` if it is written by two hexadecimal digits. -/
  | char (c : Char) (raw : Bool)
  /-- A set of characters with the number of its parts. -/
  | set (s : CharSet) (weight : Nat)
  | edge (test : Option Char → Option Char → Bool)

namespace Edge

def start (before _after : Option Char) : Bool := before.isNone

def stop (_before after : Option Char) : Bool := after.isNone

def lineStart (carriage : Bool) (before after : Option Char) : Bool :=
  before.isNone || before == some '\n' ||
    (carriage && before == some '\r' && after != some '\n')

def lineStop (carriage : Bool) (before after : Option Char) : Bool :=
  after.isNone ||
    if carriage then after == some '\r' || (after == some '\n' && before != some '\r')
    else after == some '\n'

/-- Between a character of a set and one that is not of it. -/
def boundary (word : CharSet) (before after : Option Char) : Bool :=
  before.any word != after.any word

def inside (word : CharSet) (before after : Option Char) : Bool := !boundary word before after

def wordStart (word : CharSet) (before after : Option Char) : Bool :=
  !before.any word && after.any word

def wordStop (word : CharSet) (before after : Option Char) : Bool :=
  before.any word && !after.any word

def named? (word : CharSet) : String → Option (Option Char → Option Char → Bool)
  | "start" => some (wordStart word)
  | "end" => some (wordStop word)
  | "start-half" => some fun before _ => !before.any word
  | "end-half" => some fun _ after => !after.any word
  | _ => none

end Edge

def fixedHex (flags : Flags) : Nat → Nat → List Char → Option (Nat × List Char)
  | 0, value, rest => some (value, rest)
  | _ + 1, _, [] => none
  | count + 1, value, c :: rest =>
    match Text.hexDigit? c with
    | none => none
    | some d => fixedHex flags count (16 * value + d) (skip flags rest)

/-- Splits a text at the first closing brace, without the blanks that do not count.  The text after
the brace is left as it is. -/
def braced (flags : Flags) (inComment : Bool) : List Char → Option (List Char × List Char)
  | [] => none
  | c :: rest =>
    if inComment then braced flags (c != '\n') rest
    else if flags.spaced && c == '#' then braced flags true rest
    else if flags.spaced && Text.isBlank c then braced flags false rest
    else if c == '\x7d' then some ([], rest)
    else (braced flags false rest).map fun (name, rest) => (c :: name, rest)

/-- A character by its number, in `count` digits or in braces. -/
def hexEscape (flags : Flags) (count : Nat) (text : List Char) : Option (Piece × List Char) :=
  let read : Option (Nat × Bool × List Char) :=
    match skip flags text with
    | '\x7b' :: rest => do
      let (digits, rest) ← braced flags false rest
      if digits.isEmpty || !digits.all (fun c => (Text.hexDigit? c).isSome) then none
      else some (Text.hexValue digits, false, skip flags rest)
    | text => (fixedHex flags count 0 text).map fun (value, rest) => (value, count == 2, rest)
  read.bind fun (value, raw, rest) =>
    if value.isValidChar then some (.char (Char.ofNat value) raw, rest) else none

def namedWeight : Nat := 500

/-- The set of a name, which may have a property and its value in it. -/
def namedSet? (name : List Char) : Option CharSet :=
  let split (sign : String) : Option (List Char × List Char) :=
    (Text.indexOf? sign.toList name).map fun i => (name.take i, name.drop (i + sign.length))
  match (split "!=").or ((split ":").or (split "=")) with
  | some (property, value) => Text.propertyValue? property value
  | none => Text.property? name

/-- A set by its name: a single letter, or anything in braces. -/
def propertySet (flags : Flags) (text : List Char) : Option (CharSet × List Char) :=
  match skip flags text with
  | [] => none
  | '\\' :: _ => none
  | '\x7b' :: rest => do
    let (name, rest) ← braced flags false rest
    return (← namedSet? name, rest)
  | c :: rest => do return (← Text.property? [c], skip flags rest)

def propertyEscape (flags : Flags) (negated : Bool) (text : List Char) :
    Option (Piece × List Char) := do
  let (s, rest) ← propertySet flags text
  if flags.plain then none
  else return (.set (← flags.finish negated s) namedWeight, rest)

def isEdgeNameChar (c : Char) : Bool := Text.isPlainLetter c || c == '-'

def edgeEscape (flags : Flags) (text : List Char) : Option (Piece × List Char) :=
  let word := flags.wordSet
  match text with
  | '\x7b' :: rest =>
    match skip flags rest with
    | [] => none
    | c :: more =>
      if !isEdgeNameChar c then some (.edge (Edge.boundary word), text)
      else do
        let (name, rest) ← braced flags false (c :: more)
        return (.edge (← Edge.named? word (String.ofList name)), rest)
  | _ => some (.edge (Edge.boundary word), text)

/-- Plain characters that stand for themselves after a backslash. -/
def isEscapable (c : Char) : Bool :=
  c.toNat < 0x80 && !Text.isPlainLetter c && !Text.isPlainDigit c && c != '<' && c != '>'

def escape (flags : Flags) : List Char → Option (Piece × List Char)
  | [] => none
  | c :: rest =>
    match c with
    | 'x' => hexEscape flags 2 rest
    | 'u' => hexEscape flags 4 rest
    | 'U' => hexEscape flags 8 rest
    | 'p' => propertyEscape flags false rest
    | 'P' => propertyEscape flags true rest
    | 'a' => some (.char '\x07' false, rest)
    | 'f' => some (.char '\x0c' false, rest)
    | 't' => some (.char '\t' false, rest)
    | 'n' => some (.char '\n' false, rest)
    | 'r' => some (.char '\r' false, rest)
    | 'v' => some (.char '\x0b' false, rest)
    | 'A' => some (.edge Edge.start, rest)
    | 'z' => some (.edge Edge.stop, rest)
    | 'b' => edgeEscape flags rest
    | 'B' => some (.edge (Edge.inside flags.wordSet), rest)
    | '<' => some (.edge (Edge.wordStart flags.wordSet), rest)
    | '>' => some (.edge (Edge.wordStop flags.wordSet), rest)
    | c =>
      if isEscapable c then some (.char c false, rest)
      else do
        let lettered ← CharSet.lettered? c.toLower
        let lettered := if flags.plain then lettered.plain else lettered
        let s := if c.isUpper then lettered.compl else lettered
        if flags.plain && s.pastPlain then none
        else return (.set s (if c.toLower == 'w' then 3 * namedWeight else 50), rest)

end FormSchema.Pattern
