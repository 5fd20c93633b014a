import FormSchema.Json.Basic
import FormSchema.Number.Read
import FormSchema.Text.Bytes
import FormSchema.Text.CodeRanges

/-!
The words of JSON text.  A text that cannot be split further ends with a word that says what is
wrong there, so that the reader can decide whether it comes to matter.
-/

namespace FormSchema.Json

inductive Fault where
  | endOfList | endOfObject | endOfString | endOfValue
  | expectedColon | expectedListEnd | expectedObjectEnd | expectedWord | expectedValue
  | invalidEscape | invalidNumber | numberOutOfRange | controlCharacter
  | keyNotString | loneSurrogate | unpairedSurrogate
  | trailingComma | trailingCharacters | tooDeep
  deriving DecidableEq, Repr

def Fault.message : Fault → String
  | .endOfList => "EOF while parsing a list"
  | .endOfObject => "EOF while parsing an object"
  | .endOfString => "EOF while parsing a string"
  | .endOfValue => "EOF while parsing a value"
  | .expectedColon => "expected `:`"
  | .expectedListEnd => "expected `,` or `]`"
  | .expectedObjectEnd => "expected `,` or `\x7d`"
  | .expectedWord => "expected ident"
  | .expectedValue => "expected value"
  | .invalidEscape => "invalid escape"
  | .invalidNumber => "invalid number"
  | .numberOutOfRange => "number out of range"
  | .controlCharacter => "control character (\\u0000-\\u001F) found while parsing a string"
  | .keyNotString => "key must be a string"
  | .loneSurrogate => "lone leading surrogate in hex escape"
  | .unpairedSurrogate => "unexpected end of hex escape"
  | .trailingComma => "trailing comma"
  | .trailingCharacters => "trailing characters"
  | .tooDeep => "recursion limit exceeded"

inductive Token where
  | openArr | closeArr | openObj | closeObj | comma | colon
  | null
  | bool (value : Bool)
  | num (value : Number)
  | str (value : String)
  /-- The text goes wrong here; `inString` says whether a string starts here. -/
  | wrong (fault : Fault) (inString : Bool)

def isSpace (c : Char) : Bool := c == ' ' || c == '\n' || c == '\t' || c == '\r'

def codeUnit? (a b c d : Char) : Option Nat := do
  let a ← Text.hexDigit? a
  let b ← Text.hexDigit? b
  let c ← Text.hexDigit? c
  let d ← Text.hexDigit? d
  return 4096 * a + 256 * b + 16 * c + d

def escaped? (c : Char) : Option Char :=
  if c == '"' || c == '\\' || c == '/' then some c
  else if c == 'b' then some '\x08'
  else if c == 'f' then some '\x0c'
  else if c == 'n' then some '\n'
  else if c == 'r' then some '\r'
  else if c == 't' then some '\t'
  else none

/-- What is wrong with a hexadecimal escape that has no four characters: the text ends too early,
unless what is left has four bytes all the same. -/
def shortEscape (rest : List Char) : Fault :=
  if 4 ≤ Text.byteLength rest then .invalidEscape else .endOfString

/-- Reads a string up to and with its closing quote: the string, or what is wrong with it, and the
rest of the text. -/
def readString (read : List Char) : List Char → Except Fault String × List Char
  | [] => (.error .endOfString, [])
  | '"' :: rest => (.ok (String.ofList read.reverse), rest)
  | '\\' :: 'u' :: a :: b :: c :: d :: rest =>
    match codeUnit? a b c d with
    | none => (.error .invalidEscape, rest)
    | some high =>
      if 0xDC00 ≤ high ∧ high ≤ 0xDFFF then (.error .loneSurrogate, rest)
      else if high < 0xD800 ∨ 0xDBFF < high then readString (Char.ofNat high :: read) rest
      else match rest with
        | '\\' :: 'u' :: a :: b :: c :: d :: rest =>
          match codeUnit? a b c d with
          | none => (.error .invalidEscape, rest)
          | some low =>
            if low < 0xDC00 ∨ 0xDFFF < low then (.error .loneSurrogate, rest)
            else
              let code := 0x10000 + 0x400 * (high - 0xD800) + (low - 0xDC00)
              readString (Char.ofNat code :: read) rest
        | [] | ['\\'] => (.error .endOfString, [])
        | '\\' :: 'u' :: rest => (.error (shortEscape rest), [])
        | _ => (.error .unpairedSurrogate, rest)
  | ['\\'] => (.error .endOfString, [])
  | '\\' :: 'u' :: rest => (.error (shortEscape rest), [])
  | '\\' :: c :: rest =>
    match escaped? c with
    | some c => readString (c :: read) rest
    | none => (.error .invalidEscape, rest)
  | c :: rest =>
    if c.toNat < 0x20 then (.error .controlCharacter, rest) else readString (c :: read) rest

/-- The rest of the text after a string is no longer than the text with it. -/
theorem length_readString_le (read text : List Char) :
    (readString read text).2.length ≤ text.length := by
  fun_induction readString read text <;> simp_all <;> omega

/-- Whole numbers stay exact up to this bound. -/
def significandBound : Nat := Nat.pow 2 64

/-- Appends digits to a value as long as it stays below the bound on exact integers; the digits
from there on are left over. -/
def appendDigits (value : Nat) : List Char → Nat × List Char
  | [] => (value, [])
  | c :: rest =>
    let next := 10 * value + Number.digitValue c
    if next < significandBound then appendDigits next rest else (value, c :: rest)

/-- `significand · 10 ^ exponent`, rounded at each step of the scaling: exact powers of ten up to
`10 ^ 308` are divided by or multiplied with, and a larger exponent is worked off in steps of 308.
A result beyond the largest double is a fault. -/
def scaled (significand : Nat) (exponent : Int) : Except Fault Float :=
  let start := Float.ofNat significand
  if 0 ≤ exponent then
    if exponent ≤ 308 then
      let value := start * Float.ofScientific 1 false exponent.toNat
      if value.isInf then .error .numberOutOfRange else .ok value
    else if significand = 0 then .ok start else .error .numberOutOfRange
  else .ok (down start (-exponent).toNat)
where
  down (value : Float) (steps : Nat) : Float :=
    if steps ≤ 308 then value / Float.ofScientific 1 false steps
    else if value == 0.0 then value
    else down (value / 1e308) (steps - 308)
  termination_by steps

structure NumberParts where
  whole : List Char
  /-- The digits after the point, if there is one. -/
  fraction : Option (List Char)
  /-- The sign and the digits of the exponent, if there is one. -/
  exponent : Option (Bool × List Char)

/-- The exponent of a number, with digits enough to decide that it is out of range. -/
def NumberParts.exponentValue (parts : NumberParts) : Int :=
  match parts.exponent with
  | none => 0
  | some (negative, digits) =>
    if negative then -(Number.digitsValue digits : Int) else Number.digitsValue digits

/-- The bound that the exponent's digits stay below in a number that is scaled. -/
def exponentBound : Nat := Nat.pow 2 31

/-- The number that the parts stand for.  Without point and exponent it is an integer if it is in
range, except that `-0` is a double. -/
def NumberParts.value (parts : NumberParts) (negative : Bool) : Except Fault Number := do
  let (significand, dropped) := appendDigits 0 parts.whole
  let signed (x : Float) : Number := .float (if negative then -x else x)
  if parts.fraction.isNone ∧ parts.exponent.isNone ∧ dropped.isEmpty then
    if !negative then return .int significand
    else if significand = 0 ∨ Nat.pow 2 63 < significand then
      return signed (Float.ofNat significand)
    else return .int (-significand)
  else
    let (significand, exponent) : Nat × Int :=
      match parts.fraction with
      | some fraction =>
        let (value, unused) := appendDigits significand fraction
        (value, (dropped.length : Int) - ((fraction.length - unused.length : Nat) : Int))
      | none => (significand, dropped.length)
    match parts.exponent with
    | some (expNegative, digits) =>
      if exponentBound ≤ Number.digitsValue digits then
        if significand ≠ 0 ∧ !expNegative then throw .numberOutOfRange
        else return signed 0.0
    | none => pure ()
    return signed (← scaled significand (exponent + parts.exponentValue))

/-- Reads the number that starts the text after its sign. -/
def readNumber (negative : Bool) (text : List Char) : Except Fault Number × List Char :=
  let whole := text.takeWhile Text.isPlainDigit
  let rest := text.dropWhile Text.isPlainDigit
  if whole.isEmpty then (.error (if rest.isEmpty then .endOfValue else .invalidNumber), rest)
  else if whole.head? = some '0' ∧ 1 < whole.length then (.error .invalidNumber, rest)
  else
    match rest with
    | '.' :: rest =>
      let fraction := rest.takeWhile Text.isPlainDigit
      let rest := rest.dropWhile Text.isPlainDigit
      if fraction.isEmpty then (.error (if rest.isEmpty then .endOfValue else .invalidNumber), rest)
      else exponent whole (some fraction) rest
    | rest => exponent whole none rest
where
  exponent (whole : List Char) (fraction : Option (List Char)) (text : List Char) :
      Except Fault Number × List Char :=
    match text with
    | 'e' :: rest | 'E' :: rest =>
      let (down, rest) := match rest with
        | '-' :: rest => (true, rest)
        | '+' :: rest => (false, rest)
        | rest => (false, rest)
      let digits := rest.takeWhile Text.isPlainDigit
      let rest := rest.dropWhile Text.isPlainDigit
      if digits.isEmpty then (.error (if rest.isEmpty then .endOfValue else .invalidNumber), rest)
      else (NumberParts.value ⟨whole, fraction, some (down, digits)⟩ negative, rest)
    | rest => (NumberParts.value ⟨whole, fraction, none⟩ negative, rest)

/-- Takes the characters of a fixed word from the start of the text. -/
def readWord : List Char → List Char → Except Fault (List Char)
  | [], rest => .ok rest
  | _ :: _, [] => .error .endOfValue
  | e :: expected, c :: rest => if e = c then readWord expected rest else .error .expectedWord

theorem length_of_readWord {expected text rest : List Char}
    (h : readWord expected text = .ok rest) : rest.length ≤ text.length := by
  fun_induction readWord expected text <;> simp_all
  omega

/-- The words of a text.  After a word that is wrong nothing is read any more. -/
def tokens : List Char → List Token
  | [] => []
  | c :: rest =>
    if isSpace c then tokens rest
    else if c = '[' then .openArr :: tokens rest
    else if c = ']' then .closeArr :: tokens rest
    else if c = '\x7b' then .openObj :: tokens rest
    else if c = '\x7d' then .closeObj :: tokens rest
    else if c = ',' then .comma :: tokens rest
    else if c = ':' then .colon :: tokens rest
    else if c = '"' then
      match _h : readString [] rest with
      | (.ok s, after) => .str s :: tokens after
      | (.error fault, _) => [.wrong fault true]
    else if c = 'n' then
      match _h : readWord "ull".toList rest with
      | .ok after => .null :: tokens after
      | .error fault => [.wrong fault false]
    else if c = 't' then
      match _h : readWord "rue".toList rest with
      | .ok after => .bool true :: tokens after
      | .error fault => [.wrong fault false]
    else if c = 'f' then
      match _h : readWord "alse".toList rest with
      | .ok after => .bool false :: tokens after
      | .error fault => [.wrong fault false]
    else if c = '-' ∨ Text.isPlainDigit c then
      match readNumber (c == '-') (if c = '-' then rest else c :: rest) with
      | (.ok n, after) =>
        -- a number has at least one digit, so the test never fails
        if after.length < rest.length + 1 then .num n :: tokens after else [.num n]
      | (.error fault, _) => [.wrong fault false]
    else [.wrong .expectedValue false]
termination_by text => text.length
decreasing_by
  all_goals simp only [List.length_cons]
  all_goals first
    | omega
    | exact Nat.lt_succ_of_le (length_of_readWord _h)
    | exact Nat.lt_succ_of_le (by simpa only [_h] using length_readString_le [] rest)

end FormSchema.Json
