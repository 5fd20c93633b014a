import FormSchema.Enumeration.Request
import FormSchema.Schema.Definitions
import FormSchema.Schema.Derivation
import FormSchema.Schema.Outline
import FormSchema.Schema.Typing
import FormSchema.Schema.Wiring

/-!
Compilation of schemas.  References are inlined and the outline is drawn; then all kinds and choices
are found, after them what depends on parents, children and data, and last what the expressions
read.  A problem of one place is collected and leaves the others as they are.
-/

namespace FormSchema

/-- What schemas are compiled with. -/
structure Settings where
  dialect : Dialect := .draft7
  /-- What expressions see as the data of the application. -/
  userData : Json := .null
  sources : Enumeration.Sources := {}

structure Compiled where
  schema : Schema
  problems : List Problem
  userData : Json

namespace Compiled

def isValid (c : Compiled) : Bool := c.problems.isEmpty

def problemsAt (c : Compiled) (pointer : String) : List Problem :=
  c.problems.filter fun problem => problem.pointer == pointer

end Compiled

namespace Compilation

def typings (outline : Tree Section) : Tree (Section × Typing) :=
  outline.map fun s => (s, .ofSection s)

def names (typings : Tree (Section × Typing)) : List String :=
  typings.labels.filterMap fun (_, t) => t.choosing.name?

def derive (data : Option Json) (typed : Schema) : Except Refusal (Schema × List Problem) :=
  match typed.labels.findSome? Reference.refusal? with
  | some e => .error e
  | none =>
    let derived := typed.extend (Derivation.derive data)
    .ok (derived.map (·.1), derived.labels.filterMap (·.2))

/-- Compiles a schema, against data if there are some.  The names of enumerations are asked for even
if the schema is refused later. -/
def compile (settings : Settings) (cache : Enumeration.Cache) (raw : Json) (data : Option Json) :
    Except Refusal Compiled × Enumeration.Cache :=
  match Definitions.inline settings.dialect raw with
  | .error e => (.error e, cache)
  | .ok (inlined, inlining) =>
    let outline := Outline.ofJson inlined
    let typings := typings outline
    let cache := (names typings).foldl settings.sources.ask cache
    let typed := typings.map fun (s, t) => t.attributes (settings.sources.choices? cache) s
    let typing := typings.labels.filterMap fun (_, t) => t.problem
    let result := do
      let (derived, derivation) ← derive data typed
      let (schema, wiring) := Wiring.wire derived
      return { schema
               problems := inlining ++ Outline.problems outline ++ typing ++ derivation ++ wiring
               userData := settings.userData }
    (result, cache)

/-- Compiles a schema with nothing known of enumerations. -/
def run (settings : Settings) (raw : Json) (data : Option Json) : Except Refusal Compiled :=
  (compile settings {} raw data).1

end Compilation

end FormSchema
