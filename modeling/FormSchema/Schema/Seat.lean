import FormSchema.Json.Basic

/-!
The order in which the properties of a schema are shown.  Properties of one tab are pulled together
at the first of them, and so are, inside a tab, the properties of one group.
-/

namespace FormSchema

structure Declaration where
  name : String
  tab : Option String
  group : Option String

structure Seat where
  name : String
  number : Nat
  /-- The number of the first property of the same tab. -/
  tabNumber : Option Nat
  /-- The number of the first property of the same tab and group. -/
  groupNumber : Option Nat
  tab : Option String
  group : Option String
  deriving DecidableEq, Repr

namespace Seat

/-- What seats are sorted by. -/
def key (s : Seat) : Nat × Nat × Nat :=
  (s.tabNumber.getD s.number, s.groupNumber.getD s.number, s.number)

def before (s t : Seat) : Bool :=
  let (a, b, c) := s.key
  let (x, y, z) := t.key
  decide (a < x) || (a == x && (decide (b < y) || (b == y && decide (c ≤ z))))

def ofDeclaration (all : List Declaration) (number : Nat) (d : Declaration) : Seat where
  name := d.name
  number := number
  tabNumber := d.tab.bind fun tab => all.findIdx? fun e => e.tab == some tab
  groupNumber := d.group.bind fun group =>
    all.findIdx? fun e => e.tab == d.tab && e.group == some group
  tab := d.tab
  group := d.group

def arrange (all : List Declaration) : List Seat :=
  (all.mapIdx (ofDeclaration all)).mergeSort before

def optional {α : Type} (f : α → Json) (value : Option α) : Json := (value.map f).getD .null

def toJson (s : Seat) : Json :=
  .obj [("fieldname", .str s.name), ("fieldnum", .ofNat s.number),
    ("tabnum", optional .ofNat s.tabNumber), ("groupnum", optional .ofNat s.groupNumber),
    ("tabname", optional .str s.tab), ("groupname", optional .str s.group)]

end Seat

end FormSchema
