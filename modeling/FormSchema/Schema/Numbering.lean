import FormSchema.Schema.Compilation

/-!
Numbers of schemas.  The schemas of a compiled one are listed one after the other, each before those
in it; a schema is told by its number in that list.
-/

namespace FormSchema

structure Numbered where
  number : Nat
  schema : Schema

namespace Numbered

def label (s : Numbered) : Attributes := s.schema.label

/-- Schemas in slots with their numbers, of which `start` is the first one. -/
def ofChildren (start : Nat) : List (Slot × Schema) → List (Slot × Numbered)
  | [] => []
  | (slot, schema) :: rest =>
    (slot, ⟨start, schema⟩) :: ofChildren (start + schema.labels.length) rest

def children (s : Numbered) : List (Slot × Numbered) := ofChildren (s.number + 1) s.schema.children

def at? (s : Numbered) (slot : Slot) : Option Numbered := s.children.lookup slot

def variants (s : Numbered) : List Numbered :=
  s.children.filterMap fun
    | (.variant _, child) => some child
    | _ => none

end Numbered

namespace Compiled

def root (c : Compiled) : Numbered := ⟨0, c.schema⟩

/-- The schema with a number.  A number from another compiled schema may lead to none. -/
def numbered? (c : Compiled) (number : Nat) : Option Numbered :=
  (c.schema.places[number]?).map fun place => ⟨number, place.tree⟩

end Compiled

end FormSchema
