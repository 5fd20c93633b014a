import FormSchema.Expr.Template
import FormSchema.Text.Slice

/-!
Reading by positions.  The words of an expression are cut out of its source between positions that
an iterator over the characters counts; a template is a rest of the source that gets shorter, with
the count of the bytes before it.  A part that is cut out where there is none ends the reading
without any answer.
-/

namespace FormSchema.Offsets

/-- The characters that have not been read, with their positions. -/
abbrev Chars := List (Nat × Char)

section

variable (source : List Char)

def offset : Chars → Nat
  | [] => Text.byteLength source
  | next :: _ => next.1

/-- The source between the next characters of two rests. -/
def between? (chars rest : Chars) : Option (List Char) :=
  Text.slice? (offset source chars) (offset source rest) source

def startsWithDigit : Chars → Bool
  | [] => false
  | next :: _ => Text.isPlainDigit next.2

/-- The rest after a number.  A point belongs to it if it is the first one and a digit follows. -/
def skipNumber (seenPoint : Bool) : Chars → Chars
  | [] => []
  | next :: chars =>
    if Text.isPlainDigit next.2 then skipNumber seenPoint chars
    else if next.2 = '.' ∧ seenPoint = false ∧ startsWithDigit chars then skipNumber true chars
    else next :: chars

def number (chars : Chars) : Option (Except SyntaxError (Token × Chars)) :=
  let rest := skipNumber false chars
  (between? source chars rest).map fun digits =>
    .ok (.number ((Number.decimal? digits).getD 0), rest)

/-- Reads a string that has started at a position up to and with its closing quote. -/
def string (start : Nat) (quote : Char) (read : List Char) :
    Chars → Except SyntaxError (Token × Chars)
  | [] => .error ⟨.unterminatedString, start⟩
  | next :: chars =>
    if next.2 = quote then .ok (.str (String.ofList read.reverse), chars)
    else if next.2 = '\\' then
      match chars with
      | [] => .error ⟨.danglingEscape, next.1⟩
      | guarded :: chars =>
        let e := guarded.2
        string start quote ((if e = 'n' then '\n' else if e = 't' then '\t' else e) :: read) chars
    else string start quote (next.2 :: read) chars

/-- Reads a pointer that has started at a position up to and with its closing backquote. -/
def pointer (start : Nat) (read : List Char) : Chars → Except SyntaxError (Token × Chars)
  | [] => .error ⟨.unterminatedPointer, start⟩
  | next :: chars =>
    if next.2 = Token.backquote then .ok (.deref (String.ofList read.reverse), chars)
    else pointer start (next.2 :: read) chars

def deref (start : Nat) : Chars → Except SyntaxError (Token × Chars)
  | [] => .error ⟨.bareDollar, start⟩
  | next :: chars =>
    if next.2 = Token.backquote then pointer start [] chars else .error ⟨.bareDollar, start⟩

def name (chars : Chars) : Option (Except SyntaxError (Token × Chars)) :=
  let rest := chars.dropWhile fun next => Token.isNamePart next.2
  (between? source chars rest).map fun name => .ok (.ident (String.ofList name), rest)

def mark (chars : Chars) : Option (Except SyntaxError (Token × Chars)) :=
  (Text.from? (offset source chars) source).map fun rest =>
    match Punct.all.find? fun p => p.chars.isPrefixOf rest with
    | some p => .ok (.punct p, chars.drop p.chars.length)
    | none => .error ⟨.unexpectedCharacter (rest.head?.getD ' '), offset source chars⟩

def word (next : Nat × Char) (chars : Chars) : Option (Except SyntaxError (Token × Chars)) :=
  if Text.isPlainDigit next.2 then number source (next :: chars)
  else if next.2 = '\'' ∨ next.2 = '"' then some (string next.1 next.2 [] chars)
  else if next.2 = '$' then some (deref next.1 chars)
  else if Token.isNameStart next.2 then name source (next :: chars)
  else mark source (next :: chars)

/-- The words of the characters that have not been read.  A word that leaves as many characters as
there were would be read for ever. -/
def words (chars : Chars) : Option (Except SyntaxError (List Placed)) :=
  match chars with
  | [] => some (.ok [])
  | next :: chars =>
    if Text.isBlank next.2 then words chars
    else
      match word source next chars with
      | none => none
      | some (.error e) => some (.error e)
      | some (.ok (token, rest)) =>
        if rest.length ≤ chars.length then
          (words rest).map fun more => more.map (⟨token, next.1⟩ :: ·)
        else none
termination_by chars.length
decreasing_by
  · simp
  · exact Nat.lt_succ_of_le ‹_›

def tokenize : Option (Except SyntaxError (List Placed)) := words source (Text.indices 0 source)

def expression : Option (Except SyntaxError Expr) :=
  (tokenize source).map fun tokens => do Expr.ofWords (Text.byteLength source) (← tokens)

end

/-- The position of the brace that closes a hole.  Braces nest, and those inside quotes do not
count; a backslash in quotes guards the character after it. -/
def matchingBrace (quote : Option Char) (guarded : Bool) (depth : Nat) : Chars → Option Nat
  | [] => none
  | next :: chars =>
    match quote with
    | some q =>
      if guarded then matchingBrace (some q) false depth chars
      else if next.2 = '\\' then matchingBrace (some q) true depth chars
      else if next.2 = q then matchingBrace none false depth chars
      else matchingBrace (some q) false depth chars
    | none =>
      if next.2 = '\'' ∨ next.2 = '"' ∨ next.2 = Token.backquote then
        matchingBrace (some next.2) false depth chars
      else if next.2 = '\x7b' then matchingBrace none false (depth + 1) chars
      else if next.2 = '\x7d' then
        match depth with
        | 0 => some next.1
        | depth + 1 => matchingBrace none false depth chars
      else matchingBrace none false depth chars

/-- What a dollar sign at a position of the rest of a template starts: a hole, with the position of
its last byte, or nothing but text.  `base` is the count of the bytes before the rest. -/
def hole? (base dollar : Nat) (rest : List Char) :
    Option (Except SyntaxError (Option (Expr × Nat))) := do
  match ← Text.from? (dollar + 1) rest with
  | [] => some (.ok none)
  | c :: body =>
    if c = Token.backquote then
      match Text.position? Token.backquote body with
      | none => some (.error ⟨.unterminatedPointer, base + dollar⟩)
      | some close =>
        let pointer ← Text.upTo? close body
        some (.ok (some (.deref (String.ofList pointer), dollar + 2 + close)))
    else if c = '\x7b' then
      let start := dollar + 2
      match matchingBrace none false 0 (Text.indices 0 (← Text.from? start rest)) with
      | none => some (.error ⟨.unterminatedHole, base + dollar⟩)
      | some close =>
        match ← expression (← Text.slice? start (start + close) rest) with
        | .error e => some (.error ⟨e.fault, base + start + e.offset⟩)
        | .ok e => some (.ok (some (e, start + close)))
    else some (.ok none)

/-- Reads the rest of a template, with `base` bytes before it.  `gathered` is the text that no part
has been made of, the last character first. -/
def parts (base : Nat) (gathered rest : List Char) : Option (Except SyntaxError (List Part)) :=
  match Text.position? '$' rest with
  | none => some (.ok (Template.flush (rest.reverse ++ gathered)))
  | some dollar =>
    match hole? base dollar rest with
    | none => none
    | some (.error e) => some (.error e)
    | some (.ok none) =>
      match _h : Text.from? (dollar + 1) rest with
      | none => none
      | some after =>
        (Text.upTo? (dollar + 1) rest).bind fun text =>
          parts (base + dollar + 1) (text.reverse ++ gathered) after
    | some (.ok (some (hole, last))) =>
      match _h : Text.from? (last + 1) rest with
      | none => none
      | some after =>
        (Text.upTo? dollar rest).bind fun text =>
          (parts (base + last + 1) [] after).map fun more => more.map fun more =>
            Template.flush (text.reverse ++ gathered) ++ .hole hole :: more
termination_by rest.length
decreasing_by
  · exact Text.length_lt_of_from? ‹_›
  · exact Text.length_lt_of_from? ‹_›

def template (source : List Char) : Option (Except SyntaxError (List Part)) := parts 0 [] source

end FormSchema.Offsets
