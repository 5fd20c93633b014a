import FormSchema.Command.Files

/-!
Paths with wildcards.  `*` stands for any part of a name, `?` for one character, brackets for one
character of a set, and `**` as a whole name for any number of folders.  The paths that fit come in
alphabetical order within each folder.
-/

namespace FormSchema

namespace Wildcard

inductive Piece where
  | char (c : Char)
  | anyChar
  | anyRun
  /-- A character in one of the ranges, or in none of them. -/
  | within (ranges : List (Char × Char)) (negated : Bool)
  deriving DecidableEq

def Piece.takes : Piece → Char → Bool
  | .char d, c => c == d
  | .anyChar, _ => true
  | .anyRun, _ => true
  | .within ranges negated, c => (ranges.any fun r => r.1 ≤ c && c ≤ r.2) != negated

def fits : List Piece → List Char → Bool
  | [], name => name.isEmpty
  | .anyRun :: pieces, [] => fits pieces []
  | .anyRun :: pieces, c :: name => fits pieces (c :: name) || fits (.anyRun :: pieces) name
  | _ :: _, [] => false
  | piece :: pieces, c :: name => piece.takes c && fits pieces name

inductive Step where
  /-- Any number of folders. -/
  | anyDepth
  | named (pieces : List Piece)
  deriving DecidableEq

namespace Step

/-- The only name that a step without wildcards stands for. -/
def literal? : Step → Option String
  | .anyDepth => none
  | .named pieces =>
    (pieces.mapM fun (piece : Piece) =>
      match piece with
      | .char c => some c
      | _ => none).map String.ofList

def fits : Step → String → Bool
  | .anyDepth, _ => true
  | .named pieces, name => Wildcard.fits pieces name.toList

/-- Whether a step starts with a dot, so that `.` and `..` count as names for it. -/
def startsWithDot : Step → Bool
  | .named (.char '.' :: _) => true
  | _ => false

end Step

def ranges : List Char → List (Char × Char)
  | low :: '-' :: high :: rest => (low, high) :: ranges rest
  | c :: rest => (c, c) :: ranges rest
  | [] => []

/-- The inside of brackets and what follows them; the first character never closes them. -/
def bracket? : List Char → Option (List Char × List Char)
  | [] => none
  | first :: rest =>
    let inside := rest.takeWhile (· != ']')
    match rest.drop inside.length with
    | _ :: rest => some (first :: inside, rest)
    | [] => none

theorem length_of_bracket? {text inside rest : List Char}
    (h : bracket? text = some (inside, rest)) : rest.length < text.length := by
  cases text with
  | nil => simp [bracket?] at h
  | cons first tail =>
    simp only [bracket?] at h
    split at h
    · rename_i closing rest' heq
      have hl := congrArg List.length heq
      simp only [List.length_drop, List.length_cons] at hl
      simp only [Option.some.injEq, Prod.mk.injEq] at h
      obtain ⟨-, rfl⟩ := h
      simp only [List.length_cons]
      omega
    · simp at h

def pieces? (text : List Char) : Option (List Piece) :=
  match text with
  | [] => some []
  | '?' :: rest => (pieces? rest).map (.anyChar :: ·)
  | '*' :: '*' :: _ => none
  | '*' :: rest => (pieces? rest).map (.anyRun :: ·)
  | '[' :: '!' :: rest =>
    match h : bracket? rest with
    | none => none
    | some (inside, after) =>
      have := length_of_bracket? h
      (pieces? after).map (.within (ranges inside) true :: ·)
  | '[' :: rest =>
    match h : bracket? rest with
    | none => none
    | some (inside, after) =>
      have := length_of_bracket? h
      (pieces? after).map (.within (ranges inside) false :: ·)
  | c :: rest => (pieces? rest).map (.char c :: ·)
termination_by text.length
decreasing_by all_goals simp only [List.length_cons]; omega

def step? (text : String) : Option Step :=
  if text == "**" then some .anyDepth else (pieces? text.toList).map .named

/-- Whether a path has a wildcard in it.  Braces are none, but a path with an opening one is looked
up among the files that are there. -/
def hasWildcard (path : String) : Bool :=
  path.toList.any fun c => c == '*' || c == '?' || c == '[' || c == '\x7b'

/-- Where to look, and for what. -/
structure Search where
  start : String
  steps : List Step
  /-- Only folders are looked for. -/
  folders : Bool

/-- The search that a path with wildcards asks for, unless it is not well formed. -/
def search? (path : String) : Option Search := do
  let absolute := path.startsWith "/"
  let parts := PathText.parts (if absolute then String.ofList (path.toList.drop 1) else path)
  let parts := if parts.getLast? == some "" then parts.dropLast else parts
  return {
    start := if absolute then "/" else "."
    steps := ← parts.mapM step?
    folders := path.endsWith "/" }

variable {m : Type → Type} [Monad m]

/-- The results of a function on a list, one after the other. -/
def collect (f : String → m (List String)) : List String → m (List String)
  | [] => pure []
  | name :: names => do return (← f name) ++ (← collect f names)

def below (path name : String) : String :=
  if PathText.isHere path then name else PathText.join path name

/-- The paths that steps lead to.  A step without wildcards needs no look at the names around it.
Every round uses up a step or makes the path longer. -/
def walk (files : Files m) : Nat → List Step → String → m (List String)
  | 0, _, _ => pure []
  | _ + 1, [], path => pure [path]
  | fuel + 1, step :: steps, path =>
    match step.literal? with
    | some name => do
      let next := below path name
      let found ← if name == "." || name == ".." then files.isFolder path else files.leads next
      if found then walk files fuel steps next else pure []
    | none => do
      if !(← files.isFolder path) then return []
      let names ← files.names path
      let dots := if step.startsWithDot then ["..", "."].filter step.fits else []
      let first ← collect (fun dot => walk files fuel steps (PathText.join path dot)) dots
      let others ← collect
        (fun name => do
          let child := below path name
          match step with
          | .anyDepth =>
            let steps := steps.dropWhile (· = .anyDepth)
            let folder ← files.isFolder child
            let own ← match steps with
              | [] => pure (if folder then [child] else [])
              | next :: more => if next.fits name then walk files fuel more child else pure []
            let deeper ← if folder then walk files fuel (.anyDepth :: steps) child else pure []
            return own ++ deeper
          | step => if step.fits name then walk files fuel steps child else pure [])
        (names.mergeSort fun a b => !(b < a))
      return first ++ others

/-- No path is longer than this, so that no search goes deeper. -/
def pathLimit : Nat := 4096

def Search.run (files : Files m) (search : Search) : m (List String) := do
  let found ← walk files (search.steps.length + pathLimit) search.steps search.start
  if search.folders then
    collect (fun path => do return if ← files.isFolder path then [path] else []) found
  else return found

end Wildcard

end FormSchema
