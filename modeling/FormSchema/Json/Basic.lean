import FormSchema.Number.Binary64

/-!
JSON values.  An object is a list of fields in the order in which they were first set, and each key
stands once; setting a key again keeps its place.
-/

namespace FormSchema

/-- A number is an integer or a double; the two are told apart even where their values agree.  Text
yields integers from `-2 ^ 63` to `2 ^ 64 - 1` and finite doubles. -/
inductive Number where
  | int (value : Int)
  | float (value : Float)

namespace Number

def toFloat : Number → Float
  | .int n => Float.ofInt n
  | .float x => x

def isWhole : Number → Bool
  | .int _ => true
  | .float x => (wholeOfFloat? x).isSome

def same : Number → Number → Bool
  | .int m, .int n => m == n
  | .float x, .float y => x == y
  | _, _ => false

end Number

inductive Json where
  | null
  | bool (value : Bool)
  | num (value : Number)
  | str (value : String)
  | arr (items : List Json)
  | obj (fields : List (String × Json))

abbrev Fields := List (String × Json)

namespace Fields

/-- Sets a key: in its place if it is there, at the end if it is new. -/
def set (key : String) (value : Json) : Fields → Fields
  | [] => [(key, value)]
  | (k, v) :: rest => if k = key then (k, value) :: rest else (k, v) :: set key value rest

/-- Removes a key; the others keep their order. -/
def erase (fields : Fields) (key : String) : Fields := fields.filter fun field => field.1 ≠ key

/-- Sets every field of `layer`, in its order, on top of `fields`. -/
def overlay (fields layer : Fields) : Fields :=
  layer.foldl (fun acc field => set field.1 field.2 acc) fields

/-- The object that a list of fields makes when they are set one after the other. -/
def ofList (fields : List (String × Json)) : Fields := overlay [] fields

def has (fields : Fields) (key : String) : Bool := (fields.lookup key).isSome

theorem erase_cons (key : String) (field : String × Json) (fields : Fields) :
    erase (field :: fields) key =
      if field.1 = key then erase fields key else field :: erase fields key := by
  by_cases h : field.1 = key <;> simp [erase, h]

@[simp] theorem set_nil (key : String) (value : Json) : set key value [] = [(key, value)] := rfl

theorem lookup_set_self (key : String) (value : Json) (fields : Fields) :
    (set key value fields).lookup key = some value := by
  induction fields with
  | nil => simp
  | cons field rest ih =>
    obtain ⟨k, v⟩ := field
    by_cases h : k = key
    · simp [set, h]
    · have h' : (key == k) = false := beq_false_of_ne fun e => h e.symm
      simp [set, h, List.lookup_cons, h', ih]

theorem lookup_set_ne {key other : String} (h : other ≠ key) (value : Json) (fields : Fields) :
    (set key value fields).lookup other = fields.lookup other := by
  induction fields with
  | nil => simp [set, List.lookup_cons, beq_false_of_ne h]
  | cons field rest ih =>
    obtain ⟨k, v⟩ := field
    by_cases hk : k = key
    · subst hk
      simp [set, List.lookup_cons, beq_false_of_ne h]
    · simp only [set, hk, if_false, List.lookup_cons]
      split
      · rfl
      · exact ih

end Fields

namespace Json

/-- The value of a field; values that are not objects have none. -/
def field? : Json → String → Option Json
  | .obj fields, key => fields.lookup key
  | _, _ => none

def str? : Json → Option String
  | .str s => some s
  | _ => none

def num? : Json → Option Number
  | .num n => some n
  | _ => none

def arr? : Json → Option (List Json)
  | .arr items => some items
  | _ => none

def obj? : Json → Option Fields
  | .obj fields => some fields
  | _ => none

def isNull : Json → Bool
  | .null => true
  | _ => false

def isStr (value : Json) : Bool := value.str?.isSome

/-- A number that is an integer from 0 to `2 ^ 64 - 1`. -/
def natural? : Json → Option Nat
  | .num (.int n) => if 0 ≤ n then some n.toNat else none
  | _ => none

def ofNat (n : Nat) : Json := .num (.int n)

def ofStrings (items : List String) : Json := .arr (items.map .str)

mutual

/-- Equality of values: an integer differs from a double, and the order of fields does not
count. -/
def same : Json → Json → Bool
  | .null, .null => true
  | .bool a, .bool b => a == b
  | .num a, .num b => a.same b
  | .str a, .str b => a == b
  | .arr a, .arr b => sameItems a b
  | .obj a, .obj b => a.length == b.length && sameFields a b
  | _, _ => false

def sameItems : List Json → List Json → Bool
  | [], [] => true
  | a :: as, b :: bs => a.same b && sameItems as bs
  | _, _ => false

/-- Whether each field of the first list has the same value in the second. -/
def sameFields : List (String × Json) → List (String × Json) → Bool
  | [], _ => true
  | (key, a) :: as, bs =>
    (match bs.lookup key with
      | some b => a.same b
      | none => false) && sameFields as bs

end

end Json

end FormSchema
