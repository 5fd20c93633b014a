import FormSchema.Expr.Mention
import FormSchema.Schema.Attributes
import FormSchema.Schema.Problem

/-!
The expressions of a schema and what they read.  Every pointer in an expression has to name a place
of the schema, as seen from the container of the value; the place that is read then knows of the
place that reads it.
-/

namespace FormSchema

/-- The evaluators of one place and the paths of the places that they read. -/
structure Wiring where
  evaluators : List (Keyword × Evaluator) := []
  targets : List (List Slot) := []
  problem : Option Problem.Cause := none

namespace Wiring

/-- The path of the place that a pointer in a keyword names. -/
def target (root : Schema) (p : Tree.Place Attributes) (keyword : Keyword) (pointer : String) :
    Except Problem.Cause (List Slot) :=
  match Pointer.resolveText root.navigation p.container pointer with
  | .error e => .error (.badPointer e)
  | .ok none => .error (.danglingPointer keyword pointer)
  | .ok (some found) => .ok found.label.path

def targetsOf (root : Schema) (p : Tree.Place Attributes) (keyword : Keyword) (e : Evaluator) :
    Except Problem.Cause (List (List Slot)) :=
  match e.source with
  | none => .ok []
  | some source => (Expr.mentioned source).mapM (target root p keyword)

/-- The evaluator of a keyword that is there, and the paths of what it reads. -/
def install (root : Schema) (p : Tree.Place Attributes) (keyword : Keyword) (raw : Json) :
    Except Problem.Cause (Evaluator × List (List Slot)) :=
  match Evaluator.compile keyword.flavor raw with
  | .error e => .error (.malformedExpression keyword e)
  | .ok e => (targetsOf root p keyword e).map fun targets => (e, targets)

/-- The wiring of a place for a list of keywords, up to the first that has a problem. -/
def ofKeywords (root : Schema) (p : Tree.Place Attributes) : List Keyword → Wiring
  | [] => {}
  | keyword :: keywords =>
    match p.label.keyword? keyword.name with
    | none => ofKeywords root p keywords
    | some raw =>
      match install root p keyword raw with
      | .error cause => { problem := some cause }
      | .ok (e, targets) =>
        let rest := ofKeywords root p keywords
        { rest with
          evaluators := (keyword, e) :: rest.evaluators
          targets := targets ++ rest.targets }

def ofPlace (root : Schema) (p : Tree.Place Attributes) : Wiring := ofKeywords root p Keyword.all

/-- Who reads what: the path of the place that is read and the tokens of the place that reads. -/
abbrev Edge := List Slot × List String

def edges (a : Attributes) (w : Wiring) : List Edge :=
  w.targets.map fun target => (target, a.tokens)

/-- The places that read the place at a path, each once. -/
def observers (all : List Edge) (path : List Slot) : List (List String) :=
  ((all.filter fun edge => edge.1 == path).map (·.2)).eraseDups

def problem? (a : Attributes) (w : Wiring) : Option Problem :=
  w.problem.map fun cause => ⟨.expressions, a.pointer, cause⟩

def wire (root : Schema) : Schema × List Problem :=
  let wired := root.extend fun p => (p.label, ofPlace root p)
  let all := wired.labels.flatMap fun (a, w) => edges a w
  (wired.map fun (a, w) =>
      { a with
        evaluators := w.evaluators ++ a.evaluators
        observers := observers all a.path },
    wired.labels.filterMap fun (a, w) => problem? a w)

end Wiring

end FormSchema
