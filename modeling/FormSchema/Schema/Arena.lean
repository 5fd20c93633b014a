import FormSchema.Schema.Outline

/-!
A schema and its subschemas in one list.  A schema is put at the end of the list before its subschemas
are, and it knows its parent and its children by their numbers, the places in the list.
-/

namespace FormSchema

structure Arena.Node where
  /-- The keywords, those of the subschemas included. -/
  raw : Json
  /-- Whether the items of an array are told apart by variants. -/
  mixed : Bool
  pointer : String
  /-- The token under the parent; the root has none. -/
  name : Option String
  parent : Option Nat
  children : List (Slot × Nat) := []

abbrev Arena := List Arena.Node

namespace Arena

def Node.withChild (node : Node) (slot : Slot) (number : Nat) : Node :=
  { node with children := node.children ++ [(slot, number)] }

/-- Puts a schema at the end of an arena, and after it its subschemas, each of which is made known to
the schema as soon as it is there. -/
def insert (raw : Json) (pointer : String) (name : Option String) (parent : Option Nat)
    (arena : Arena) : Arena :=
  (Outline.parts raw).attach.foldl
    (fun grown ⟨part, _⟩ =>
      (insert part.2 (Pointer.child pointer part.1.token) (some part.1.token) (some arena.length)
        grown).modify arena.length fun node => node.withChild part.1 grown.length)
    (arena ++ [{ raw := Outline.keywords raw, mixed := Outline.isMixed raw, pointer, name, parent }])
termination_by raw.size
decreasing_by exact Outline.size_parts_lt ‹_›

def build (raw : Json) : Arena := insert raw "" none none []

def parent? (arena : Arena) (number : Nat) : Option Nat := arena[number]?.bind Node.parent

/-- The numbers of the children, in the order of their declaration. -/
def children (arena : Arena) (number : Nat) : List Nat :=
  (arena[number]?.map fun node => node.children.map (·.2)).getD []

/-- The names on the way from the root.  The walk goes up from parent to parent, which all come before
their children. -/
def names (arena : Arena) (number : Nat) : List String :=
  match arena[number]? with
  | none => []
  | some node =>
    match node.parent with
    | none => []
    | some parent =>
      if parent < number then names arena parent ++ node.name.toList else node.name.toList
termination_by number

/-- The pointer that the names on the way from the root make. -/
def path (arena : Arena) (number : Nat) : String := Pointer.join (arena.names number)

end Arena

end FormSchema
