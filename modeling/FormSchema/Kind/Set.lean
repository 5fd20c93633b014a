import FormSchema.Kind.Basic

/-!
Sets of kinds.  `number` admits integers, so a set that has it never lists `integer` besides; the
operations look at what a set admits and not at what it lists.
-/

namespace FormSchema

structure KindSet where
  null : Bool
  boolean : Bool
  object : Bool
  array : Bool
  number : Bool
  string : Bool
  integer : Bool
  number_or_integer : (number && integer) = false := by decide
  deriving DecidableEq

namespace KindSet

/-- The set of the kinds that satisfy a test, without `integer` if it has `number`. -/
def ofTest (p : Kind → Bool) : KindSet where
  null := p .null
  boolean := p .boolean
  object := p .object
  array := p .array
  number := p .number
  string := p .string
  integer := p .integer && !p .number
  number_or_integer := by cases p .number <;> simp

def has (s : KindSet) : Kind → Bool
  | .null => s.null
  | .boolean => s.boolean
  | .object => s.object
  | .array => s.array
  | .number => s.number
  | .string => s.string
  | .integer => s.integer

def admits (s : KindSet) (k : Kind) : Bool := s.has k || (k == .integer && s.number)

def empty : KindSet := ofTest fun _ => false

def universal : KindSet := ofTest fun _ => true

def single (k : Kind) : KindSet := ofTest (· == k)

def ofList (kinds : List Kind) : KindSet := ofTest kinds.contains

def toList (s : KindSet) : List Kind := Kind.all.filter s.has

def inter (s t : KindSet) : KindSet := ofTest fun k => s.admits k && t.admits k

def union (s t : KindSet) : KindSet := ofTest fun k => s.has k || t.has k

/-- The kinds that the set does not admit.  Without `integer` alone there is still `number`, since
the other numbers have no kind of their own. -/
def compl (s : KindSet) : KindSet := ofTest fun k => !s.admits k

/-- The text of a set: its members in braces. -/
def text (s : KindSet) : String :=
  "\x7b" ++ String.intercalate ", " (s.toList.map Kind.name) ++ "\x7d"

theorem has_ofTest (p : Kind → Bool) (k : Kind) :
    (ofTest p).has k = (p k && !(k == .integer && p .number)) := by
  cases k <;> cases h : p .number <;> simp_all [ofTest, has]

theorem admits_ofTest (p : Kind → Bool) (k : Kind) :
    (ofTest p).admits k = (p k || (k == .integer && p .number)) := by
  cases k <;> cases h : p .number <;> simp_all [ofTest, has, admits]

@[simp] theorem admits_universal (k : Kind) : universal.admits k = true := by
  simp [universal, admits_ofTest]

@[simp] theorem admits_empty (k : Kind) : empty.admits k = false := by
  simp [empty, admits_ofTest]

end KindSet

end FormSchema
