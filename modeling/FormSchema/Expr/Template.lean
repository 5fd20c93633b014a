import FormSchema.Expr.Parser

/-!
Templates: text with holes.  A hole is a pointer in backquotes or an expression in braces, both
after a dollar sign; any other dollar sign is text.
-/

namespace FormSchema

inductive Part where
  | text (text : String)
  | hole (e : Expr)

namespace Template

/-- The text up to the brace that closes a hole, and the text after that brace.  Braces nest, and
those inside quotes do not count; a backslash in quotes guards the character after it. -/
def splitBrace (quote : Option Char) (guarded : Bool) (depth : Nat) (text : List Char) :
    Option (List Char × { rest : List Char // rest.length < text.length }) :=
  match text with
  | [] => none
  | c :: text =>
    let goOn (quote : Option Char) (guarded : Bool) (depth : Nat) :=
      (splitBrace quote guarded depth text).map
        fun (body, rest) =>
          ((c :: body, ⟨rest.1, Nat.lt_succ_of_lt rest.2⟩) :
            List Char × { rest : List Char // rest.length < (c :: text).length })
    match quote with
    | some q =>
      if guarded then goOn (some q) false depth
      else if c = '\\' then goOn (some q) true depth
      else if c = q then goOn none false depth
      else goOn (some q) false depth
    | none =>
      if c = '\'' ∨ c = '"' ∨ c = Token.backquote then goOn (some c) false depth
      else if c = '\x7b' then goOn none false (depth + 1)
      else if c = '\x7d' then
        match depth with
        | 0 => some ([], ⟨text, Nat.lt_succ_self _⟩)
        | depth + 1 => goOn none false depth
      else goOn none false depth

/-- The text that has been gathered, as a part; nothing if there is none. -/
def flush (gathered : List Char) : List Part :=
  if gathered.isEmpty then [] else [.text (String.ofList gathered.reverse)]

/-- The parts of the rest of a template that ends at position `stop`; `gathered` is the text before
it, the last character first. -/
def partsTo (stop : Nat) (gathered : List Char) (text : List Char) :
    Except SyntaxError (List Part) :=
  match text with
  | [] => .ok (flush gathered)
  | c :: text =>
    if c = '$' then
      match text with
      | [] => partsTo stop (c :: gathered) []
      | d :: body =>
        if d = Token.backquote then
          match Token.readPointer body with
          | none => failAt stop (c :: d :: body) .unterminatedPointer
          | some (pointer, rest) => do
            let parts ← partsTo stop [] rest.1
            return flush gathered ++ .hole (.deref (String.ofList pointer)) :: parts
        else if d = '\x7b' then
          match splitBrace none false 0 body with
          | none => failAt stop (c :: d :: body) .unterminatedHole
          | some (inner, rest) =>
            match Expr.parseChars inner with
            | .error e => .error ⟨e.fault, stop - Text.byteLength body + e.offset⟩
            | .ok e => do
              let parts ← partsTo stop [] rest.1
              return flush gathered ++ .hole e :: parts
        else partsTo stop (c :: gathered) (d :: body)
    else partsTo stop (c :: gathered) text
termination_by text.length
decreasing_by
  · simp
  · have := rest.2; simp only [List.length_cons]; omega
  · have := rest.2; simp only [List.length_cons]; omega
  · simp
  · simp

def parseChars (source : List Char) : Except SyntaxError (List Part) :=
  partsTo (Text.byteLength source) [] source

def parse (source : String) : Except SyntaxError (List Part) := parseChars source.toList

/-- The pointers that the holes read, from left to right. -/
def derefs (parts : List Part) : List String :=
  parts.flatMap fun
    | .text _ => []
    | .hole e => e.derefs

end Template

end FormSchema
