import FormSchema.Expr.Syntax
import FormSchema.Number.Read
import FormSchema.Number.Notation
import FormSchema.Text.Bytes

/-!
The words of an expression.  Every word carries the text that starts with it; the position of the
word, counted in bytes, is the length of the source less the length of that text.
-/

namespace FormSchema

inductive Punct where
  | strictEq | strictNe | looseEq | looseNe | le | ge | and | or | coalesce
  | openParen | closeParen | openBracket | closeBracket | comma | dot | question | colon
  | not | plus | minus | times | slash | percent | lt | gt
  deriving DecidableEq, Repr

namespace Punct

/-- Longer ones stand before those that they start with. -/
def all : List Punct :=
  [strictEq, strictNe, looseEq, looseNe, le, ge, and, or, coalesce, openParen, closeParen,
    openBracket, closeBracket, comma, dot, question, colon, not, plus, minus, times, slash, percent,
    lt, gt]

def text : Punct → String
  | strictEq => "==="
  | strictNe => "!=="
  | looseEq => "=="
  | looseNe => "!="
  | le => "<="
  | ge => ">="
  | and => "&&"
  | or => "||"
  | coalesce => "??"
  | openParen => "("
  | closeParen => ")"
  | openBracket => "["
  | closeBracket => "]"
  | comma => ","
  | dot => "."
  | question => "?"
  | colon => ":"
  | not => "!"
  | plus => "+"
  | minus => "-"
  | times => "*"
  | slash => "/"
  | percent => "%"
  | lt => "<"
  | gt => ">"

def chars (p : Punct) : List Char := p.text.toList

def binary? : Punct → Option BinaryOp
  | coalesce => some .coalesce
  | or => some .or
  | and => some .and
  | looseEq => some .looseEq
  | looseNe => some .looseNe
  | strictEq => some .strictEq
  | strictNe => some .strictNe
  | lt => some .lt
  | le => some .le
  | gt => some .gt
  | ge => some .ge
  | plus => some .add
  | minus => some .sub
  | times => some .mul
  | slash => some .div
  | percent => some .rem
  | _ => none

def unary? : Punct → Option UnaryOp
  | not => some .not
  | minus => some .neg
  | plus => some .plus
  | _ => none

end Punct

inductive Token where
  | number (value : Float)
  | str (value : String)
  | ident (name : String)
  | deref (pointer : String)
  | punct (p : Punct)

def Token.describe : Token → String
  | .number x => "number " ++ NumberLayout.plain.float x
  | .str s => s!"string '{s}'"
  | .ident name => s!"`{name}`"
  | .deref pointer => s!"pointer `{pointer}`"
  | .punct p => "`" ++ p.text ++ "`"

inductive Expected where
  | punct (p : Punct)
  | propertyName
  | theEnd
  deriving DecidableEq, Repr

def Expected.text : Expected → String
  | .punct p => "`" ++ p.text ++ "`"
  | .propertyName => "a property name"
  | .theEnd => "end of expression"

inductive SyntaxFault where
  | unterminatedString
  | danglingEscape
  | bareDollar
  | unterminatedPointer
  | unexpectedCharacter (c : Char)
  | empty
  | unexpectedEnd
  | unknownName (name : String)
  | unexpected (p : Punct)
  | expected (what : Expected) (found : Option Token)
  | tooDeep
  | unterminatedHole
  | notTemplate (found : Json)
  | notBoolean (found : Json)
  | notFragment (found : Json)
  | notGeneric

/-- How deeply groups, brackets, calls, branches and prefix operators nest. -/
def nestingLevels : Nat := 256

def SyntaxFault.message : SyntaxFault → String
  | .unterminatedString => "unterminated string literal"
  | .danglingEscape => "dangling escape"
  | .bareDollar => "expected `` ` `` after `$`"
  | .unterminatedPointer => "unterminated pointer reference"
  | .unexpectedCharacter c => "unexpected character `" ++ String.singleton c ++ "`"
  | .empty => "empty expression"
  | .unexpectedEnd => "unexpected end of expression"
  | .unknownName name => s!"unknown identifier `{name}`"
  | .unexpected p => "unexpected `" ++ p.text ++ "`"
  | .expected what (some token) => "expected " ++ what.text ++ ", found " ++ token.describe
  | .expected what none => "expected " ++ what.text ++ ", reached end of expression"
  | .tooDeep => s!"expression nests deeper than {nestingLevels} levels"
  | .unterminatedHole => "unterminated `$\x7b` hole"
  | .notTemplate found => "expected a template string, found " ++ found.compact
  | .notBoolean found => "expected a boolean, null or an expression string, found " ++ found.compact
  | .notFragment found => "expected string fragments, found " ++ found.compact
  | .notGeneric => "expected an expression string, a boolean or string fragments"

/-- A fault and the position, in bytes, at which it shows. -/
structure SyntaxError where
  fault : SyntaxFault
  offset : Nat

def SyntaxError.message (e : SyntaxError) : String :=
  e.fault.message ++ s!" (at offset {e.offset})"

/-- A word and the text that starts with it. -/
structure Spanned where
  token : Token
  text : List Char

structure Placed where
  token : Token
  offset : Nat

/-- A word with its position in a source that ends at position `stop`. -/
def Spanned.placed (stop : Nat) (word : Spanned) : Placed :=
  ⟨word.token, stop - Text.byteLength word.text⟩

@[simp] theorem Spanned.token_placed (stop : Nat) (word : Spanned) :
    (word.placed stop).token = word.token := rfl

/-- The error of a fault that shows where `text` starts, in a source that ends at position
`stop`. -/
def failAt {α : Type} (stop : Nat) (text : List Char) (fault : SyntaxFault) :
    Except SyntaxError α :=
  .error ⟨fault, stop - Text.byteLength text⟩

namespace Token

def backquote : Char := '\x60'

def isNameStart (c : Char) : Bool := Text.isAlphabetic c || c == '_'

def isNamePart (c : Char) : Bool := Text.isAlphanumeric c || c == '_' || c == '$'

/-- What a word of the text is made of, with the text after it. -/
abbrev Read (text : List Char) := Token × { rest : List Char // rest.length ≤ text.length }

theorem length_dropWhile_le (p : Char → Bool) (text : List Char) :
    (text.dropWhile p).length ≤ text.length := (List.dropWhile_suffix p).length_le

/-- The digits of a number after its first one, and a point among them if a digit follows it. -/
def numberTail (text : List Char) : List Char × { rest : List Char // rest.length ≤ text.length } :=
  let whole := text.takeWhile Text.isPlainDigit
  match h : text.dropWhile Text.isPlainDigit with
  | '.' :: d :: rest =>
    have shorter : rest.length + 2 ≤ text.length :=
      Nat.le_trans (Nat.le_of_eq (congrArg List.length h.symm)) (length_dropWhile_le _ text)
    if Text.isPlainDigit d then
      (whole ++ '.' :: d :: rest.takeWhile Text.isPlainDigit,
        ⟨rest.dropWhile Text.isPlainDigit,
          Nat.le_trans (length_dropWhile_le _ rest) (Nat.le_of_add_right_le shorter)⟩)
    else (whole, ⟨'.' :: d :: rest, shorter⟩)
  | rest => (whole, ⟨rest, h ▸ length_dropWhile_le Text.isPlainDigit text⟩)

/-- Reads a string up to and with its closing quote.  A backslash takes the next character as it
is, except that `\n` and `\t` are a line end and a tab.  `whole` is the text from the opening quote
on, and `stop` the position of the end. -/
def readString (stop : Nat) (whole : List Char) (quote : Char) (read : List Char)
    (text : List Char) :
    Except SyntaxError (String × { rest : List Char // rest.length ≤ text.length }) :=
  match text with
  | [] => failAt stop whole .unterminatedString
  | c :: rest =>
    if c = quote then .ok (String.ofList read.reverse, ⟨rest, Nat.le_succ _⟩)
    else if c = '\\' then
      match rest with
      | [] => failAt stop [c] .danglingEscape
      | e :: rest =>
        let e := if e = 'n' then '\n' else if e = 't' then '\t' else e
        (readString stop whole quote (e :: read) rest).map fun (s, after) =>
          (s, ⟨after, Nat.le_trans after.2 (Nat.le_add_right _ 2)⟩)
    else
      (readString stop whole quote (c :: read) rest).map fun (s, after) =>
        (s, ⟨after, Nat.le_trans after.2 (Nat.le_succ _)⟩)

/-- Reads a pointer up to and with its closing backquote. -/
def readPointer (text : List Char) :
    Option (List Char × { rest : List Char // rest.length ≤ text.length }) :=
  match text with
  | [] => none
  | c :: rest =>
    if c = backquote then some ([], ⟨rest, Nat.le_succ _⟩)
    else (readPointer rest).map fun (p, after) =>
      (c :: p, ⟨after, Nat.le_trans after.2 (Nat.le_succ _)⟩)

theorem length_drop_tail_le (p : Punct) (c : Char) (text : List Char) :
    ((c :: text).drop p.chars.length).length ≤ text.length := by
  cases p <;> simp [Punct.chars, Punct.text]

/-- Reads the word that starts with `c`; `stop` is the position of the end of the source. -/
def read (stop : Nat) (c : Char) (text : List Char) : Except SyntaxError (Read text) :=
  if Text.isPlainDigit c then
    let (digits, rest) := numberTail text
    .ok (.number ((Number.decimal? (c :: digits)).getD 0), rest)
  else if c = '\'' ∨ c = '"' then
    (readString stop (c :: text) c [] text).map fun (s, rest) => (.str s, rest)
  else if c = '$' then
    match text with
    | [] => failAt stop [c] .bareDollar
    | b :: pointer =>
      if b = backquote then
        match readPointer pointer with
        | some (p, rest) =>
          .ok (.deref (String.ofList p), ⟨rest, Nat.le_trans rest.2 (Nat.le_succ _)⟩)
        | none => failAt stop (c :: b :: pointer) .unterminatedPointer
      else failAt stop (c :: b :: pointer) .bareDollar
  else if isNameStart c then
    .ok (.ident (String.ofList (c :: text.takeWhile isNamePart)),
      ⟨text.dropWhile isNamePart, length_dropWhile_le _ _⟩)
  else
    match Punct.all.find? fun p => p.chars.isPrefixOf (c :: text) with
    | some p => .ok (.punct p, ⟨(c :: text).drop p.chars.length, length_drop_tail_le p c text⟩)
    | none => failAt stop (c :: text) (.unexpectedCharacter c)

/-- The words of the rest of a source that ends at position `stop`. -/
def scanTo (stop : Nat) : List Char → Except SyntaxError (List Spanned)
  | [] => .ok []
  | c :: text =>
    if Text.isBlank c then scanTo stop text
    else do
      let (token, rest) ← read stop c text
      return ⟨token, c :: text⟩ :: (← scanTo stop rest.1)
termination_by text => text.length
decreasing_by
  · simp
  · exact Nat.lt_succ_of_le rest.2

def scan (source : List Char) : Except SyntaxError (List Spanned) :=
  scanTo (Text.byteLength source) source

end Token

end FormSchema
