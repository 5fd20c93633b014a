import FormSchema.Kind.Set
import FormSchema.Misuse

/-!
The kinds that a schema admits, read off its keywords.  Each source either constrains the kind or is
silent; the target is what all the constraining sources admit, so the order of keywords does not
count.
-/

namespace FormSchema.Inference

inductive BaseError where
  | empty
  | ambiguous (target : KindSet)
  | secondNotNull (target : KindSet)
  deriving DecidableEq

def BaseError.message : BaseError → String
  | .empty => "no type satisfies the schema keywords"
  | .ambiguous target => "ambiguous type set " ++ target.text
  | .secondNotNull target =>
    "type set " ++ target.text ++ " is a union whose second type is not null"

/-- The constraint that a source places on the kind, if it places one. -/
abbrev Constraint := Except InvalidKeyword (Option KindSet)

def families : List (Kind × List String) :=
  [(.string, ["minLength", "maxLength", "pattern", "format"]),
   (.number, ["minimum", "maximum", "exclusiveMinimum", "exclusiveMaximum", "multipleOf"]),
   (.array, ["items", "additionalItems", "minItems", "maxItems", "uniqueItems"]),
   (.object, ["required", "properties", "additionalProperties", "patternProperties",
     "minProperties", "maxProperties", "dependencies"])]

def ofFamily (fields : Fields) (kind : Kind) (keywords : List String) : Constraint :=
  .ok (if keywords.any fields.has then some (.single kind) else none)

def typeName (name : Json) : Except InvalidKeyword Kind :=
  match name.str?.bind Kind.ofName? with
  | some kind => .ok kind
  | none => .error ⟨"type", .unknownType name⟩

/-- `type`: the kinds that it names. -/
def ofType (fields : Fields) : Constraint :=
  match fields.lookup "type" with
  | none => .ok none
  | some (.str name) => (typeName (.str name)).map (some ∘ KindSet.single)
  | some (.arr names) => (names.mapM typeName).map (some ∘ KindSet.ofList)
  | some other => .error ⟨"type", .unexpected .typeNames other⟩

def ofConst (fields : Fields) : Constraint :=
  .ok ((fields.lookup "const").map fun value => .single (Kind.ofJson value))

def ofEnum (fields : Fields) : Constraint :=
  match fields.lookup "enum" with
  | none => .ok none
  | some (.arr members) => .ok (some (.ofList (members.map Kind.ofJson)))
  | some other => .error ⟨"enum", .unexpected .array other⟩

/-- What the value of a keyword constrains when it is taken as a subschema, and when its items
are. -/
structure Nested where
  whole : Constraint
  branches : List Constraint

/-- The set that a constraint leaves: silence admits everything. -/
def orUniversal (constraint : Option KindSet) : KindSet := constraint.getD .universal

/-- `not`: what the subschema does not admit. -/
def ofNot (nested : List (String × Nested)) : Constraint :=
  match nested.lookup "not" with
  | none => .ok none
  | some sub => sub.whole.map fun constraint => some (orUniversal constraint).compl

/-- The constraints of the branches of a keyword, if it is there. -/
def branches (fields : Fields) (nested : List (String × Nested)) (keyword : String) :
    Except InvalidKeyword (Option (List (Option KindSet))) :=
  match fields.lookup keyword, nested.lookup keyword with
  | some (.arr _), some sub => (sub.branches.mapM id).map some
  | some other, _ => .error ⟨keyword, .unexpected .schemas other⟩
  | none, _ => .ok none

/-- What the constraining members of a list all admit; no constraint if all are silent. -/
def meet (constraints : List (Option KindSet)) : Option KindSet :=
  constraints.foldl (fun acc constraint =>
    match acc, constraint with
    | acc, none => acc
    | none, some set => some set
    | some acc, some set => some (acc.inter set)) none

/-- What some member of a list admits. -/
def join (constraints : List (Option KindSet)) : KindSet :=
  constraints.foldl (fun acc constraint => acc.union (orUniversal constraint)) .empty

/-- `allOf`: what every branch admits. -/
def ofAllOf (fields : Fields) (nested : List (String × Nested)) : Constraint := do
  return (← branches fields nested "allOf").bind meet

/-- `anyOf` and `oneOf`: what some branch admits. -/
def ofAnyOf (fields : Fields) (nested : List (String × Nested)) (keyword : String) :
    Constraint := do
  return (← branches fields nested keyword).map join

/-- The sources, in the order in which their errors count. -/
def sources (fields : Fields) (nested : List (String × Nested)) : List Constraint :=
  [ofType fields, ofConst fields, ofEnum fields] ++
    families.map (fun family => ofFamily fields family.1 family.2) ++
    [ofNot nested, ofAllOf fields nested, ofAnyOf fields nested "anyOf",
      ofAnyOf fields nested "oneOf"]

/-- The target of a schema from its keywords and what is nested in them. -/
def targetOf (fields : Fields) (nested : List (String × Nested)) :
    Except InvalidKeyword KindSet := do
  let constraints ← (sources fields nested).mapM id
  return (constraints.filterMap id).foldl .inter .universal

mutual

/-- A value taken as a subschema.  One that admits every kind counts as silent. -/
def ofSubschema : Json → Constraint
  | .bool true => .ok none
  | .bool false => .ok (some .empty)
  | .obj fields => do
    let target ← targetOf fields (nestedIn fields)
    return if target = .universal then none else some target
  | other => .error ⟨"subschema", .unexpected .subschema other⟩

def ofBranches : List Json → List Constraint
  | [] => []
  | item :: items => ofSubschema item :: ofBranches items

/-- The values of a schema's fields, taken as subschemas. -/
def nestedIn : List (String × Json) → List (String × Nested)
  | [] => []
  | (key, .arr items) :: fields =>
    (key, ⟨.error ⟨"subschema", .unexpected .subschema (.arr items)⟩, ofBranches items⟩) ::
      nestedIn fields
  | (key, value) :: fields => (key, ⟨ofSubschema value, []⟩) :: nestedIn fields

end

def target (fields : Fields) : Except InvalidKeyword KindSet := targetOf fields (nestedIn fields)

/-- One member is the base type.  Of two one has to be `null`, and the other is the base type. -/
def baseType (target : KindSet) : Except BaseError (Kind × Bool) :=
  match target.toList with
  | [] => .error .empty
  | [only] => .ok (only, only == .null)
  | [a, b] =>
    if a = .null then .ok (b, true)
    else if b = .null then .ok (a, true)
    else .error (.secondNotNull target)
  | _ => .error (.ambiguous target)

end FormSchema.Inference
