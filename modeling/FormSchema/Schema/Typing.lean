import FormSchema.Schema.Attributes
import FormSchema.Schema.Problem

/-! The kinds and the choices that the keywords of a single schema give. -/

namespace FormSchema

inductive Choosing where
  | free
  | listed (choices : List Choice)
  | named (name : String)

namespace Choosing

/-- A list of choices counts before the name of one. -/
def ofFields (fields : Fields) : Except InvalidKeyword Choosing :=
  match fields.lookup "enum", fields.lookup "enumSource" with
  | some (.arr values), _ =>
    .ok (.listed (Choice.ofLists values (((fields.lookup "enumTitles").bind Json.arr?).getD [])))
  | _, some (.str name) => .ok (.named name)
  | _, some other => .error ⟨"enumSource", .unexpected .name other⟩
  | some _, none => .error ⟨"enum", .noArray⟩
  | none, none => .ok .free

def name? : Choosing → Option String
  | named name => some name
  | _ => none

/-- The choices, of which `offer` knows those with a name. -/
def choices (offer : String → Option (List Choice)) : Choosing → List Choice
  | free => []
  | listed choices => choices
  | named name => (offer name).getD []

end Choosing

/-- What the keywords of one schema say about its values, as far as they can be understood. -/
structure Typing where
  target : KindSet := .empty
  base : Option Kind := none
  nullable : Bool := false
  choosing : Choosing := .free
  problem : Option Problem := none

namespace Typing

/-- The typing of a section.  The target stays when no base type can be picked from it, and only a
section with a base type has choices. -/
def ofSection (s : Section) : Typing :=
  match s.raw with
  | .obj fields =>
    match Inference.target fields with
    | .error e => { problem := some ⟨.inference, s.pointer, .invalidKeyword e⟩ }
    | .ok target =>
      match Inference.baseType target with
      | .error e => { target, problem := some ⟨.inference, s.pointer, .noBaseType e⟩ }
      | .ok (base, nullable) =>
        match Choosing.ofFields fields with
        | .error e =>
          { target, base, nullable, problem := some ⟨.enumeration, s.pointer, .invalidKeyword e⟩ }
        | .ok choosing => { target, base, nullable, choosing }
  | _ => {}

def attributes (offer : String → Option (List Choice)) (s : Section) (t : Typing) : Attributes where
  toSection := s
  target := t.target
  base := t.base
  nullable := t.nullable
  isEnum := match t.choosing with
    | .free => false
    | _ => true
  choices := t.choosing.choices offer
  source := t.choosing.name?

end Typing

end FormSchema
