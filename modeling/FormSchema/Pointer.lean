import FormSchema.Number.Read

/-!
Pointers into a tree of named children.  An absolute pointer starts at the root; a relative one
climbs a number of ancestors first.  In a token `~` is written `~0` and `/` is written `~1`.
-/

namespace FormSchema

def escapeToken : List Char → List Char
  | [] => []
  | '~' :: rest => '~' :: '0' :: escapeToken rest
  | '/' :: rest => '~' :: '1' :: escapeToken rest
  | c :: rest => c :: escapeToken rest

/-- Replaces one pair of characters by a single one, from left to right. -/
def replacePair (a b out : Char) : List Char → List Char
  | [] => []
  | [c] => [c]
  | c :: d :: rest =>
    if c = a ∧ d = b then out :: replacePair a b out rest else c :: replacePair a b out (d :: rest)

/-- The token with this escaped form.  `~1` is read before `~0`, so that `~01` stands for `~1`; a
lone `~` stands for itself. -/
def unescapeToken (text : List Char) : List Char :=
  replacePair '~' '0' '~' (replacePair '~' '1' '/' text)

inductive Pointer where
  | absolute (tokens : List String)
  | relative (up : Nat) (tokens : List String)
  deriving DecidableEq, Repr

namespace Pointer

inductive Malformed where
  | hash | start | count | afterCount
  deriving DecidableEq, Repr

def Malformed.message : Malformed → String
  | .hash => "`#` must be followed by `/`"
  | .start => "expected `/`, `#` or an ancestor count"
  | .count => "ancestor count out of range"
  | .afterCount => "ancestor count must be followed by `/`"

inductive Error where
  | malformed (pointer : String) (reason : Malformed)
  | ancestorOverflow (pointer : String) (requested available : Nat)
  | notAbsolute (pointer : String)
  deriving DecidableEq, Repr

def Error.message : Error → String
  | .malformed pointer reason => s!"malformed pointer `{pointer}`: " ++ reason.message
  | .ancestorOverflow pointer requested available =>
    s!"pointer `{pointer}` climbs {requested} ancestors but only {available} exist"
  | .notAbsolute pointer => s!"pointer `{pointer}` must be absolute"

def tokens : Pointer → List String
  | .absolute tokens => tokens
  | .relative _ tokens => tokens

def isAbsolute : Pointer → Bool
  | .absolute _ => true
  | .relative _ _ => false

/-- One token with its slash. -/
def tokenText (token : String) : List Char := '/' :: escapeToken token.toList

def join (tokens : List String) : String := String.ofList (tokens.flatMap tokenText)

def child (pointer token : String) : String := pointer ++ String.ofList (tokenText token)

def splitTokens (text : List Char) : List String :=
  ((text.splitOn '/').drop 1).map fun token => String.ofList (unescapeToken token)

def text : Pointer → String
  | .absolute tokens => join tokens
  | .relative up tokens => up.repr ++ join tokens

def ofCount (up : Nat) : List Char → Except Malformed Pointer
  | [] => .ok (.relative up [])
  | '/' :: rest => .ok (.relative up (splitTokens ('/' :: rest)))
  | _ => .error .afterCount

def ofChars : List Char → Except Malformed Pointer
  | [] => .ok (.absolute [])
  | ['#'] => .ok (.absolute [])
  | '#' :: '/' :: rest => .ok (.absolute (splitTokens ('/' :: rest)))
  | '#' :: _ => .error .hash
  | '/' :: rest => .ok (.absolute (splitTokens ('/' :: rest)))
  | text =>
    let digits := text.takeWhile Text.isPlainDigit
    if digits.isEmpty then .error .start
    else if Number.indexBound ≤ Number.digitsValue digits then .error .count
    else ofCount (Number.digitsValue digits) (text.dropWhile Text.isPlainDigit)

def parse (source : String) : Except Error Pointer :=
  (ofChars source.toList).mapError (.malformed source)

def parseAbsolute (source : String) : Except Error (List String) := do
  match ← parse source with
  | .absolute tokens => return tokens
  | .relative _ _ => throw (.notAbsolute source)

/-- What a pointer needs to know of a tree: the root, the ancestors of a place from its parent up,
and the child of a place with a token. -/
structure Navigation (α : Type) where
  root : α
  ancestors : α → List α
  child? : α → String → Option α

def descend {α : Type} (nav : Navigation α) (start : α) (tokens : List String) : Option α :=
  tokens.foldlM nav.child? start

/-- The place that a pointer names from `start`, if there is one.  To climb beyond the root is an
error. -/
def resolve {α : Type} (nav : Navigation α) (start : α) : Pointer → Except Error (Option α)
  | .absolute tokens => .ok (descend nav nav.root tokens)
  | .relative up tokens =>
    match (start :: nav.ancestors start)[up]? with
    | some place => .ok (descend nav place tokens)
    | none =>
      .error (.ancestorOverflow (text (.relative up tokens)) up (nav.ancestors start).length)

def resolveText {α : Type} (nav : Navigation α) (start : α) (source : String) :
    Except Error (Option α) := do
  resolve nav start (← parse source)

end Pointer

end FormSchema
