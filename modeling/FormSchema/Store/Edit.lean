import FormSchema.Document.Edit
import FormSchema.Store.Evaluation

/-!
Linking and changing a store.  Links are written and mistakes are noted on one walk down the document.
A change that is refused gives the store back as it is.
-/

namespace FormSchema.Store

variable (s : Store) (c : Compiled)

/-! ## Links -/

/-- The variants whose `case` is true or null for a node, in their order. -/
def matching (variants : List Numbered) (id : Nat) : List Numbered :=
  variants.filter fun variant =>
    let verdict := s.evaluateAs c.userData variant.label id .case
    verdict.isNull || verdict.truthy

/-- A store and what is wrong with its links. -/
abbrev Linked := Store × List LinkError

/-- Links an item by the first variant that matches it. -/
def linkItem (variants : List Numbered) (item : Nat) (link : Numbered → Linked → Linked)
    (out : Linked) : Linked :=
  match (out.1.matching c variants item).head? with
  | none => out
  | some variant => link variant out

def linkWithin : Nat → Numbered → Nat → Linked → Linked
  | 0, _, _, out => out
  | fuel + 1, schema, id, (s, errors) =>
    match s.content? id with
    | none => (s, errors)
    | some content =>
      let s := s.setLink id (some schema.number)
      if schema.label.compatible content.kind then
        match content with
        | .scalar _ => (s, errors)
        | .object fields =>
          fields.foldl (fun out field =>
            match schema.at? (.property field.1) with
            | none => out
            | some child => linkWithin fuel child field.2 out) (s, errors)
        | .array items =>
          if schema.label.mixed then
            items.foldl (fun out item =>
              linkItem c schema.variants item (fun variant => linkWithin fuel variant item) out)
              (s, errors)
          else
            match schema.at? .item with
            | none => (s, errors)
            | some child => items.foldl (fun out item => linkWithin fuel child item out) (s, errors)
      else (s, errors ++ [⟨s.pointer id, .wrongKind schema.label.target content.kind⟩])

def link : Linked :=
  linkWithin c s.slots.length c.root 0 ({ s with links := fun _ => none }, [])

def unlinkWithin : Nat → Store → Nat → Store
  | 0, s, _ => s
  | fuel + 1, s, id => (s.children id).foldl (unlinkWithin fuel) (s.setLink id none)

/-- Takes the links of a node and of what is below it away. -/
def unlink (id : Nat) : Store := unlinkWithin s.slots.length s id

/-- The variants of the array that holds a node, if its items are told apart by variants. -/
def variants? (id : Nat) : Option (Option (List Numbered)) :=
  match s.parent? id with
  | none => some none
  | some array =>
    if s.kind? array = some .array then
      match s.links array with
      | none => some none
      | some number =>
        (c.numbered? number).map fun schema =>
          if schema.label.mixed then some schema.variants else none
    else some none

def relink (id : Nat) : Option Linked := do
  match ← s.variants? c id with
  | some variants =>
    return linkItem c variants id (fun variant => linkWithin c s.slots.length variant id)
      (s.unlink id, [])
  | none =>
    match s.links id with
    | none => return (s, [⟨s.pointer id, .noSchema⟩])
    | some number =>
      return linkWithin c s.slots.length (← c.numbered? number) id (s.unlink id, [])

/-! ## Changes -/

def subtreeWithin : Nat → List Nat → List Nat
  | 0, _ => []
  | _, [] => []
  | fuel + 1, id :: queue => id :: subtreeWithin fuel (queue ++ s.children id)

/-- The nodes from one down, level by level. -/
def subtree (id : Nat) : List Nat := s.subtreeWithin s.slots.length [id]

/-- The nodes whose expressions read some node of a subtree, each once. -/
def affected (id : Nat) : Option (List Nat) :=
  ((s.subtree id).mapM (s.dependents c)).map fun found => found.flatten.eraseDups

/-- The store in which a node has another value: its parts go and new ones come in. -/
def replace (id : Nat) (value : Json) : Store :=
  let s := (s.children id).foldl release s
  let (content, s) := s.contentOf id value
  s.update id fun _ => content

def drop (parent id : Nat) : Store := (s.update parent (Content.without id)).release id

/-- The store in which an array has one more item, after the identity of that item. -/
def extend (array : Nat) (value : Json) : Nat × Store :=
  let (item, s) := s.alloc (some array) value
  (item, s.update array (Content.append item))

/-- What a change comes to, and the store after it. -/
abbrev Result (α : Type) := Except EditError α × Store

/-- Gives a node another value, and tells which nodes have to be evaluated again. -/
def set (id : Nat) (value : Json) : Option (Result (List Nat)) :=
  if id = 0 then some (.error .rootChange, s)
  else if (s.slot? id).isNone then some (.error (.unknownNode id), s)
  else do
    let (s, _) ← (s.replace id value).relink c id
    return (.ok (← s.affected c id), s)

def detach (id : Nat) : Result Json :=
  if id = 0 then (.error .rootChange, s)
  else
    match s.slot? id with
    | none => (.error (.unknownNode id), s)
    | some entry =>
      match entry.parent with
      | none => (.error .rootChange, s)
      | some parent => (.ok ((s.value? id).getD .null), s.drop parent id)

/-- Appends a value to an array, and gives the identity of the new item. -/
def push (array : Nat) (value : Json) : Option (Result Nat) :=
  match s.content? array with
  | none => some (.error (.unknownNode array), s)
  | some (.array _) => do
    let (item, s) := s.extend array value
    match s.links array with
    | none => return (.ok item, s)
    | some _ =>
      let (s, _) ← s.relink c array
      return (.ok item, s)
  | some _ => some (.error (.noArray (s.pointer array)), s)

def newItem (array : Nat) : Option Json :=
  match s.links array with
  | none => some .null
  | some number =>
    (c.numbered? number).map fun schema =>
      let item := if schema.label.mixed then schema.variants.head? else schema.at? .item
      (item.map fun item => Schema.initial item.schema).getD .null

def pushNew (array : Nat) : Option (Result Nat) := do s.push c array (← s.newItem c array)

end FormSchema.Store
