import FormSchema.Json.Size
import FormSchema.Schema.Dialect
import FormSchema.Schema.Problem

/-!
Local definitions.  An object with a reference stands for the definition that the reference names,
with the other keywords of the object on top.  On the way down each reference is followed once; one
that comes up again inside its own definition goes round in a circle and is dropped.
-/

namespace FormSchema.Definitions

def dataKeywords : List String := ["enum", "const", "default", "examples", "enumTitles"]

def refKey : String := "$ref"

/-- The section and the name of a definition, of a reference to a section that is known. -/
def split? (namespaces : List String) (reference : String) : Option (String × String) :=
  match reference.toList with
  | '#' :: '/' :: rest =>
    match rest.splitOn '/' with
    | [home, name] =>
      if namespaces.contains (String.ofList home) then
        some (String.ofList home, String.ofList (unescapeToken name))
      else none
    | _ => none
  | _ => none

mutual

/-- All texts that are given for references anywhere in a value. -/
def references : Json → List String
  | .arr items => itemReferences items
  | .obj fields => fieldReferences fields
  | _ => []

def itemReferences : List Json → List String
  | [] => []
  | item :: items => references item ++ itemReferences items

def fieldReferences : List (String × Json) → List String
  | [] => []
  | (key, .str text) :: fields =>
    if key = refKey then text :: fieldReferences fields else fieldReferences fields
  | (_, item) :: fields => references item ++ fieldReferences fields

end

structure Source where
  fields : Fields
  namespaces : List String

/-- What a reference stands for. -/
inductive Target where
  | found (definition : Json)
  | problem (cause : Problem.Cause)
  | refused (e : Refusal)

def Source.target (source : Source) (reference : String) : Target :=
  match split? source.namespaces reference with
  | none => .problem (.unsupportedReference reference)
  | some (home, name) =>
    match (source.fields.lookup home).bind Json.obj? with
    | none => .refused (.missingDefinitions reference home)
    | some entries =>
      match entries.lookup name with
      | none => .problem (.unknownDefinition reference)
      | some definition => .found definition

def problem (pointer : String) (cause : Problem.Cause) : Problem := ⟨.inlining, pointer, cause⟩

/-- The keywords of a definition, and what is wrong with it. -/
def definitionFields (pointer : String) : Json → Fields × List Problem
  | .obj fields => (fields, [])
  | .bool true => ([], [])
  | other => ([], [problem pointer (.invalidKeyword ⟨refKey, .definition other⟩)])

mutual

/-- A value with its references replaced.  Only the references in `fresh` are followed, since the
others are being followed already.  The pointer is that of the data that the value describes. -/
def inlineValue (source : Source) (fresh : List String) (pointer : String) (value : Json) :
    Except Refusal (Json × List Problem) :=
  match value with
  | .obj fields =>
    match fields.lookup refKey with
    | some (.str reference) => do
      let siblings := Fields.erase fields refKey
      match source.target reference with
      | .refused e => throw e
      | .problem cause =>
        let (out, problems) ← inlineFields source fresh pointer siblings
        return (.obj out, problem pointer cause :: problems)
      | .found definition =>
        if reference ∈ fresh then
          let (base, problems) := definitionFields pointer definition
          let (out, more) ← inlineValue source (fresh.erase reference) pointer
            (.obj (Fields.overlay base siblings))
          return (out, problems ++ more)
        else
          let (out, problems) ← inlineFields source fresh pointer siblings
          return (.obj out, problem pointer (.referenceCycle reference) :: problems)
    | _ => do
      let (out, problems) ← inlineFields source fresh pointer fields
      return (.obj out, problems)
  | .arr items => do
    let (out, problems) ← inlineItems source fresh pointer items
    return (.arr out, problems)
  | other => return (other, [])
termination_by (fresh.length, 2 * value.size)
decreasing_by
  · have := Json.sizeFields_erase_le refKey fields
    apply Prod.Lex.right
    simp only [Json.size]
    omega
  · apply Prod.Lex.left
    rename_i h
    rw [List.length_erase_of_mem h]
    have := List.length_pos_of_mem h
    omega
  · have := Json.sizeFields_erase_le refKey fields
    apply Prod.Lex.right
    simp only [Json.size]
    omega
  · apply Prod.Lex.right
    simp only [Json.size]
    omega
  · apply Prod.Lex.right
    simp only [Json.size]
    omega

def inlineItems (source : Source) (fresh : List String) (pointer : String) (items : List Json) :
    Except Refusal (List Json × List Problem) :=
  match items with
  | [] => return ([], [])
  | item :: items => do
    let (item, problems) ← inlineValue source fresh pointer item
    let (items, more) ← inlineItems source fresh pointer items
    return (item :: items, problems ++ more)
termination_by (fresh.length, 2 * Json.sizeItems items + 1)
decreasing_by
  · apply Prod.Lex.right
    simp only [Json.sizeItems]
    omega
  · apply Prod.Lex.right
    have := item.size_pos
    simp only [Json.sizeItems]
    omega

/-- The values of keywords.  Data stay as they are, and so do the definitions. -/
def inlineFields (source : Source) (fresh : List String) (pointer : String) (fields : Fields) :
    Except Refusal (Fields × List Problem) :=
  match fields with
  | [] => return ([], [])
  | (key, given) :: fields => do
    let (value, problems) ←
      if dataKeywords.contains key || (pointer.isEmpty && source.namespaces.contains key) then
        pure (given, [])
      else if key = "properties" then
        match given with
        | .obj properties => do
          let (properties, problems) ← inlineProperties source fresh pointer properties
          pure (.obj properties, problems)
        | other => pure (other, [])
      else
        inlineValue source fresh (if key = "items" then Pointer.child pointer "*" else pointer)
          given
    let (fields, more) ← inlineFields source fresh pointer fields
    return ((key, value) :: fields, problems ++ more)
termination_by (fresh.length, 2 * Json.sizeFields fields + 1)
decreasing_by
  all_goals
    apply Prod.Lex.right
    have := given.size_pos
    simp only [Json.sizeFields, Json.size] at *
    omega

def inlineProperties (source : Source) (fresh : List String) (pointer : String)
    (properties : Fields) : Except Refusal (Fields × List Problem) :=
  match properties with
  | [] => return ([], [])
  | (name, value) :: properties => do
    let (value, problems) ← inlineValue source fresh (Pointer.child pointer name) value
    let (properties, more) ← inlineProperties source fresh pointer properties
    return ((name, value) :: properties, problems ++ more)
termination_by (fresh.length, 2 * Json.sizeFields properties + 1)
decreasing_by
  · apply Prod.Lex.right
    simp only [Json.sizeFields]
    omega
  · apply Prod.Lex.right
    have := value.size_pos
    simp only [Json.sizeFields]
    omega

end

/-- A document without its references, and without the definitions that they named. -/
def inline (dialect : Dialect) (document : Json) : Except Refusal (Json × List Problem) :=
  match document with
  | .obj fields => do
    let source : Source := ⟨fields, dialect.namespaces⟩
    let (out, problems) ← inlineValue source (references document).eraseDups "" document
    let out := match out with
      | .obj fields => .obj (dialect.namespaces.foldl Fields.erase fields)
      | other => other
    return (out, problems)
  | other => return (other, [])

end FormSchema.Definitions
