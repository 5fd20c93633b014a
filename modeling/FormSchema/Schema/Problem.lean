import FormSchema.Expr.Parser
import FormSchema.Kind.Inference
import FormSchema.Pointer
import FormSchema.Schema.Keyword

/-!
What can be wrong with a schema.  A problem belongs to one place and leaves the rest of the schema
usable; a refusal leaves nothing.
-/

namespace FormSchema

/-- The step of the work on a schema that meets a problem. -/
inductive Stage where
  | inlining | outlining | inference | enumeration | reference | expressions
  deriving DecidableEq, Repr

def Stage.name : Stage → String
  | .inlining => "reference inlining"
  | .outlining => "structural annotation"
  | .inference => "type inference"
  | .enumeration => "enumeration"
  | .reference => "reference resolution"
  | .expressions => "expression compilation"

inductive Problem.Cause where
  | unsupportedReference (reference : String)
  | unknownDefinition (reference : String)
  | referenceCycle (reference : String)
  | noBaseType (e : Inference.BaseError)
  | invalidKeyword (e : InvalidKeyword)
  | malformedExpression (keyword : Keyword) (e : SyntaxError)
  | danglingPointer (keyword : Keyword) (pointer : String)
  | badPointer (e : Pointer.Error)

def Problem.Cause.message : Problem.Cause → String
  | .unsupportedReference reference =>
    s!"unsupported reference `{reference}` (only local definitions are allowed)"
  | .unknownDefinition reference => s!"unknown definition `{reference}`"
  | .referenceCycle reference => s!"reference cycle through `{reference}`"
  | .noBaseType e => e.message
  | .invalidKeyword e => e.message
  | .malformedExpression keyword e =>
    "expression in `" ++ keyword.name ++ "` does not compile: " ++ e.message
  | .danglingPointer keyword pointer =>
    s!"pointer `{pointer}` in `" ++ keyword.name ++ "` resolves to nothing"
  | .badPointer e => e.message

structure Problem where
  stage : Stage
  /-- The pointer to the place in the data that the schema describes. -/
  pointer : String
  cause : Problem.Cause

def Problem.message (p : Problem) : String :=
  "[" ++ p.stage.name ++ "] at `" ++ p.pointer ++ "`: " ++ p.cause.message

inductive Refusal where
  /-- The schema has no section for the definition that a reference names. -/
  | missingDefinitions (reference home : String)
  /-- The data that a value is picked from are named by a relative pointer. -/
  | relativeReference (pointer : String)
  deriving DecidableEq, Repr

def Refusal.message : Refusal → String
  | .missingDefinitions reference home =>
    s!"reference `{reference}` needs a `{home}` section but the schema has none"
  | .relativeReference pointer => (Pointer.Error.notAbsolute pointer).message

end FormSchema
