import FormSchema.Json.Writer
import FormSchema.Kind.Basic
import FormSchema.Pointer

/-! What a document can be blamed for, and where. -/

namespace FormSchema

inductive Violation.Cause where
  | nothingAllowed
  | wrongKind (allowed : List Kind) (found : Kind)
  | differs (expected : Json)
  | notEnumerated
  | tooShort (least : Nat)
  | tooLong (most : Nat)
  | mismatch (pattern : String)
  | badPattern (pattern : String)
  | malformed (format : String)
  | below (least : Float)
  | above (most : Float)
  | notAbove (bound : Float)
  | notBelow (bound : Float)
  | notMultiple (step : Float)
  | missing
  | notAllowed
  | tooFew (least : Nat)
  | tooMany (most : Nat)
  | noVariant

def Violation.Cause.message : Violation.Cause → String
  | .nothingAllowed => "no value is allowed here"
  | .wrongKind allowed found =>
    "expected " ++ String.intercalate " or " (allowed.map Kind.name) ++ ", found " ++ found.name
  | .differs expected => "must equal " ++ expected.compact
  | .notEnumerated => "must be one of the enumerated values"
  | .tooShort least => s!"must be at least {least} characters"
  | .tooLong most => s!"must be at most {most} characters"
  | .mismatch pattern => "must match /" ++ pattern ++ "/"
  | .badPattern pattern => "invalid pattern /" ++ pattern ++ "/"
  | .malformed format => "is not a valid " ++ format
  | .below least => "must be ≥ " ++ NumberLayout.plain.float least
  | .above most => "must be ≤ " ++ NumberLayout.plain.float most
  | .notAbove bound => "must be > " ++ NumberLayout.plain.float bound
  | .notBelow bound => "must be < " ++ NumberLayout.plain.float bound
  | .notMultiple step => "must be a multiple of " ++ NumberLayout.plain.float step
  | .missing => "is required"
  | .notAllowed => "is not allowed"
  | .tooFew least => s!"must have at least {least} items"
  | .tooMany most => s!"must have at most {most} items"
  | .noVariant => "matches none of the item variants"

/-- A complaint about the value at a path; a missing property is blamed at its own path. -/
structure Violation where
  path : List String
  cause : Violation.Cause

namespace Violation

def pointer (v : Violation) : String := Pointer.join v.path

def message (v : Violation) : String := v.cause.message

/-- Violations by pointer, in the order in which the pointers come up first. -/
def byPointer (violations : List Violation) : List (String × List Violation) :=
  (violations.map pointer).eraseDups.map fun p => (p, violations.filter (·.pointer == p))

end Violation

end FormSchema
