import FormSchema.Proofs.Json.Path

/-!
Changes of a plain value: the part at the end of a path becomes another one, and everything beside
the path stays.
-/

namespace FormSchema.Json

/-- The value with another part at a key that it has. -/
def put (v : Json) (key : Key) (part : Json) : Json :=
  match v, key with
  | arr items, .index i => arr (items.set i part)
  | obj fields, .name s => obj (Fields.set s part fields)
  | v, _ => v

/-- The value without the part at a key; later items move down, other fields keep their order. -/
def drop (v : Json) (key : Key) : Json :=
  match v, key with
  | arr items, .index i => arr (items.eraseIdx i)
  | obj fields, .name s => obj (Fields.erase fields s)
  | v, _ => v

/-- An array with one more item at its end. -/
def append (v item : Json) : Json :=
  match v with
  | arr items => arr (items ++ [item])
  | v => v

/-- The value in which the part at the end of a path has become another one. -/
def modifyAt (f : Json → Json) : List Key → Json → Json
  | [], v => f v
  | key :: path, v =>
    match v.get? key with
    | none => v
    | some part => v.put key (modifyAt f path part)

variable {f g : Json → Json} {v w : Json}

theorem modifyAt_cons {key : Key} {part : Json} (h : v.get? key = some part) (f : Json → Json)
    (path : List Key) : v.modifyAt f (key :: path) = v.put key (part.modifyAt f path) := by
  rw [modifyAt, h]

/-- Only what a change does to the part that is there matters. -/
theorem modifyAt_congr {path : List Key} (h : v.at? path = some w) (heq : f w = g w) :
    v.modifyAt f path = v.modifyAt g path := by
  induction path generalizing v with
  | nil =>
    obtain rfl := Option.some.inj h
    exact heq
  | cons key path ih =>
    obtain ⟨part, hpart, h⟩ := Option.bind_eq_some_iff.1 h
    rw [modifyAt_cons hpart, modifyAt_cons hpart, ih h]

theorem modifyAt_append (f : Json → Json) (path more : List Key) (v : Json) :
    v.modifyAt f (path ++ more) = v.modifyAt (fun part => part.modifyAt f more) path := by
  induction path generalizing v with
  | nil => rfl
  | cons key path ih =>
    cases h : v.get? key with
    | none => simp only [List.cons_append, modifyAt, h]
    | some part => rw [List.cons_append, modifyAt_cons h, modifyAt_cons h, ih]

end FormSchema.Json
