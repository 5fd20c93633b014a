import FormSchema.Expr.Coercion
import FormSchema.Validation.Format
import FormSchema.Validation.Violation

/-!
Validation of a document against the text of a schema.  The kind of a value is checked first, and a
value of the wrong kind is blamed for nothing else.  Keywords that constrain other kinds, and
keywords with a value of the wrong form, say nothing.
-/

namespace FormSchema

/-- How texts are checked: `none` if the pattern is not well formed or the format is not known. -/
structure TextChecks where
  pattern : String → Option (String → Bool)
  format : String → Option (String → Bool)

def TextChecks.ofFormats (formats : Formats) : TextChecks where
  pattern text := (Pattern.read? text).map Pattern.found
  format name := (formats.lookup name).map Pattern.found

namespace Validation

def allowedKinds (schema : Fields) : List Kind :=
  match schema.lookup "type" with
  | some (.str name) => (Kind.ofName? name).toList
  | some (.arr names) => names.filterMap fun name => name.str?.bind Kind.ofName?
  | _ => []

/-- A schema that names no kind takes every value. -/
def wrongKind? (schema : Fields) (data : Json) : Option Violation.Cause :=
  let allowed := allowedKinds schema
  let found := Kind.ofJson data
  if allowed.isEmpty || allowed.any found.satisfies then none else some (.wrongKind allowed found)

/-- The complaint about a bound that is there and not kept. -/
def blame {α : Type} (bound : Option α) (kept : α → Bool) (cause : α → Violation.Cause) :
    List Violation.Cause :=
  match bound with
  | some b => if kept b then [] else [cause b]
  | none => []

def natural? (schema : Fields) (key : String) : Option Nat :=
  (schema.lookup key).bind Json.natural?

def float? (schema : Fields) (key : String) : Option Float :=
  (schema.lookup key).bind Json.num? |>.map Number.toFloat

def text? (schema : Fields) (key : String) : Option String :=
  (schema.lookup key).bind Json.str?

/-- `const` and `enum`. -/
def valueCauses (schema : Fields) (data : Json) : List Violation.Cause :=
  blame (schema.lookup "const") (fun expected => expected.strictEq data) .differs ++
  blame ((schema.lookup "enum").bind Json.arr?) (fun members => members.any (·.strictEq data))
    fun _ => .notEnumerated

def textCauses (checks : TextChecks) (schema : Fields) (text : String) :
    List Violation.Cause :=
  blame (natural? schema "minLength") (· ≤ text.length) .tooShort ++
  blame (natural? schema "maxLength") (text.length ≤ ·) .tooLong ++
  (match text? schema "pattern" with
    | none => []
    | some pattern =>
      match checks.pattern pattern with
      | some found => if found text then [] else [.mismatch pattern]
      | none => [.badPattern pattern]) ++
  blame (text? schema "format") (fun name => ((checks.format name).map (· text)).getD true)
    .malformed

def ratioTolerance : Float := 1e-9

def isMultiple (x step : Float) : Bool :=
  let ratio := x / step
  !(ratioTolerance < (ratio - ratio.round).abs)

def numberCauses (schema : Fields) (x : Float) : List Violation.Cause :=
  blame (float? schema "minimum") (fun b => !(x < b)) .below ++
  blame (float? schema "maximum") (fun b => !(b < x)) .above ++
  blame (float? schema "exclusiveMinimum") (fun b => !(x ≤ b)) .notAbove ++
  blame (float? schema "exclusiveMaximum") (fun b => !(b ≤ x)) .notBelow ++
  blame ((float? schema "multipleOf").filter (0.0 < ·)) (isMultiple x) .notMultiple

/-- What a value is blamed for by itself, apart from its kind and its parts. -/
def ownCauses (checks : TextChecks) (schema : Fields) (data : Json) : List Violation.Cause :=
  valueCauses schema data ++
    match data with
    | .str text => textCauses checks schema text
    | .num n => numberCauses schema n.toFloat
    | .arr items =>
      blame (natural? schema "minItems") (· ≤ items.length) .tooFew ++
      blame (natural? schema "maxItems") (items.length ≤ ·) .tooMany
    | _ => []

/-- The required names that an object does not have, in the order of the schema. -/
def missing (schema data : Fields) : List String :=
  (((schema.lookup "required").bind Json.arr?).getD []).filterMap Json.str?
    |>.filter fun name => !data.has name

def property? (schema : Fields) (name : String) : Option Json :=
  ((schema.lookup "properties").bind Json.obj?).bind (·.lookup name)

def isClosed (schema : Fields) : Bool :=
  match schema.lookup "additionalProperties" with
  | some (.bool false) => true
  | _ => false

/-- What the schema of items asks of each item: to fit one of several variants, or to fit it. -/
inductive ItemRule where
  | anything
  | variants (variants : List Json)
  | schema (schema : Json)

def itemRule (schema : Fields) : ItemRule :=
  match schema.lookup "items" with
  | none => .anything
  | some items =>
    match (items.field? "oneOf").bind Json.arr? with
    | some variants => .variants variants
    | none => .schema items

/-- The violations of a value whose schema is an object, given those of its parts. -/
def whole (checks : TextChecks) (schema : Json) (path : List String) (data : Json)
    (parts : Fields → List Violation) : List Violation :=
  match schema with
  | .obj schema =>
    match wrongKind? schema data with
    | some cause => [⟨path, cause⟩]
    | none => (ownCauses checks schema data).map (⟨path, ·⟩) ++ parts schema
  | .bool false => [⟨path, .nothingAllowed⟩]
  | _ => []

mutual

def violations (checks : TextChecks) (schema : Json) (path : List String) :
    Json → List Violation
  | .obj fields =>
    whole checks schema path (.obj fields) fun schema =>
      (missing schema fields).map (fun name => ⟨path ++ [name], .missing⟩) ++
        fieldViolations checks schema path fields
  | .arr items =>
    whole checks schema path (.arr items) fun schema =>
      itemViolations checks (itemRule schema) path 0 items
  | .null => whole checks schema path .null fun _ => []
  | .bool b => whole checks schema path (.bool b) fun _ => []
  | .num n => whole checks schema path (.num n) fun _ => []
  | .str s => whole checks schema path (.str s) fun _ => []

def fieldViolations (checks : TextChecks) (schema : Fields) (path : List String) :
    List (String × Json) → List Violation
  | [] => []
  | (name, value) :: fields =>
    (match property? schema name with
      | some property => violations checks property (path ++ [name]) value
      | none => if isClosed schema then [⟨path ++ [name], .notAllowed⟩] else []) ++
    fieldViolations checks schema path fields

def itemViolations (checks : TextChecks) (rule : ItemRule) (path : List String) (i : Nat) :
    List Json → List Violation
  | [] => []
  | item :: items =>
    let here := path ++ [toString i]
    (match rule with
      | .anything => []
      | .schema schema => violations checks schema here item
      | .variants variants =>
        if variants.any fun variant => (violations checks variant here item).isEmpty then []
        else [⟨here, .noVariant⟩]) ++
    itemViolations checks rule path (i + 1) items

end

def run (checks : TextChecks) (schema data : Json) : List Violation :=
  violations checks schema [] data

end Validation

end FormSchema
