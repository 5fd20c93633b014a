import FormSchema.Schema.Numbering
import FormSchema.Store.Basic

/-!
What expressions see of a store, and which nodes read which.  To ask for the schema of a link that is
none of the compiled schema ends it all without an answer.
-/

namespace FormSchema.Store

variable (s : Store) (c : Compiled)

def deref (start : Nat) (pointer : String) : Except Pointer.Error (Option Json) := do
  return (← s.resolve start pointer).bind s.value?

def scope (userData : Json) (schema : Attributes) (container : Option Nat) (key value : Json) :
    Scope where
  schema := schema.raw
  value := value
  parent := (container.bind s.value?).getD .null
  key := key
  userData := userData
  deref := s.deref (container.getD 0)

def evaluateAs (userData : Json) (schema : Attributes) (id : Nat) (keyword : Keyword) : Json :=
  (schema.evaluator keyword).eval
    (s.scope userData schema (s.parent? id) (((s.key? id).map Key.toJson).getD .null)
      ((s.value? id).getD .null))

def evaluate (id : Nat) (keyword : Keyword) : Option Json :=
  match s.links id with
  | none => some keyword.unset
  | some number =>
    (c.numbered? number).map fun schema => s.evaluateAs c.userData schema.label id keyword

/-- A keyword of some schema for a key of a node, whether or not there is a value under it. -/
def evaluateAt (userData : Json) (schema : Attributes) (parent : Nat) (key : String)
    (keyword : Keyword) : Json :=
  let value := ((s.child? parent key).bind s.value?).getD .null
  (schema.evaluator keyword).eval (s.scope userData schema (some parent) (.str key) value)

def schemaName? (id : Nat) : Option (Option String) :=
  match s.links id with
  | none => some none
  | some number => (c.numbered? number).map fun schema => schema.label.name?

/-- The children that one token of a schema pointer stands for. -/
def fan (token : String) (id : Nat) : Option (List Nat) :=
  match token.toList with
  | '*' :: rest =>
    match s.content? id with
    | some (.array items) =>
      if rest.isEmpty then some items
      else items.filterMapM fun item =>
        (s.schemaName? c item).map fun name => if name = some token then some item else none
    | _ => some []
  | _ => some (s.child? id token).toList

/-- The nodes that the rest of a schema pointer stands for. -/
def fanOut (ids : List Nat) : List String → Option (List Nat)
  | [] => some ids
  | token :: tokens => do fanOut (← ids.mapM (s.fan c token)).flatten tokens

/-- The nodes that a schema pointer stands for, as seen from a node. -/
def follow (ids : List Nat) : (schema data observer : List String) → Option (List Nat)
  | t :: schema, d :: data, o :: observer =>
    if t = o then follow (ids.filterMap fun id => s.child? id d) schema data observer
    else s.fanOut c ids (o :: observer)
  | _, _, observer => s.fanOut c ids observer

/-- The nodes whose expressions read a node, each once. -/
def dependents (changed : Nat) : Option (List Nat) :=
  match s.links changed with
  | none => some []
  | some number => do
    let schema ← c.numbered? number
    let found ← schema.label.observers.mapM fun observer =>
      s.follow c [0] schema.label.tokens (s.tokens changed) observer
    return found.flatten.eraseDups

end FormSchema.Store
