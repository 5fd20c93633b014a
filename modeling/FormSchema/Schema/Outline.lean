import FormSchema.Json.Size
import FormSchema.Schema.Attributes
import FormSchema.Schema.Problem

/-!
The outline of a schema: the tree of its subschemas.  Properties come first, then the schema of all
items or the variants of items.  A part that is malformed is reported and left out.
-/

namespace FormSchema.Outline

/-- A variant has the keywords of the items that list it, with its own on top. -/
def variantSchema (items : Fields) : Json → Json
  | .obj fields => .obj (Fields.overlay (Fields.erase items "oneOf") fields)
  | other => other

def variants? (items : Fields) : Option (List Json) :=
  match items.lookup "oneOf" with
  | some (.arr variants) => some (variants.map (variantSchema items))
  | _ => none

def propertyParts (raw : Json) : List (Slot × Json) :=
  match raw.field? "properties" with
  | some (.obj properties) => properties.map fun (name, sub) => (.property name, sub)
  | _ => []

def itemParts (raw : Json) : List (Slot × Json) :=
  match raw.field? "items" with
  | some (.obj items) =>
    match variants? items with
    | some variants => variants.mapIdx fun i variant => (.variant i, variant)
    | none => [(.item, .obj items)]
  | some (.bool true) => [(.item, .bool true)]
  | _ => []

def parts (raw : Json) : List (Slot × Json) := propertyParts raw ++ itemParts raw

/-- Whether the items of a schema are told apart by variants. -/
def isMixed (raw : Json) : Bool :=
  match raw.field? "items" with
  | some (.obj items) => (variants? items).isSome
  | _ => false

theorem size_field_lt {raw value : Json} {key : String} (h : raw.field? key = some value) :
    value.size < raw.size := by
  cases raw with
  | obj fields =>
    have := Json.size_le_of_lookup h
    simp only [Json.size]
    omega
  | _ => simp [Json.field?] at h

theorem size_variantSchema_lt {items : Fields} {all : List Json} {variant : Json}
    (h : items.lookup "oneOf" = some (.arr all)) (hv : variant ∈ all) :
    (variantSchema items variant).size < (Json.obj items).size := by
  have hall := Json.sizeFields_erase_add_le h
  have hmem := Json.size_le_sizeItems hv
  simp only [Json.size] at hall ⊢
  cases variant with
  | obj fields =>
    have := Json.sizeFields_overlay_le fields (Fields.erase items "oneOf")
    simp only [variantSchema, Json.size] at hmem ⊢
    omega
  | _ =>
    simp only [variantSchema, Json.size] at hmem ⊢
    omega

theorem size_propertyParts_lt {raw : Json} {part : Slot × Json} (h : part ∈ propertyParts raw) :
    part.2.size < raw.size := by
  unfold propertyParts at h
  split at h
  · rename_i properties hp
    obtain ⟨field, hf, rfl⟩ := List.mem_map.1 h
    have := size_field_lt hp
    have := Json.size_le_sizeFields hf
    simp only [Json.size] at *
    omega
  · simp at h

theorem size_itemParts_lt {raw : Json} {part : Slot × Json} (h : part ∈ itemParts raw) :
    part.2.size < raw.size := by
  unfold itemParts at h
  split at h
  · rename_i items hi
    have hlt := size_field_lt hi
    split at h
    · rename_i variants hv
      obtain ⟨i, hlen, rfl⟩ := List.mem_mapIdx.1 h
      unfold variants? at hv
      split at hv
      · rename_i all hall
        injection hv with hv
        subst hv
        have hmem : all.get ⟨i, by simpa using hlen⟩ ∈ all := List.get_mem _ _
        have := size_variantSchema_lt hall hmem
        simp only [List.getElem_map]
        simp only [List.get_eq_getElem] at this
        omega
      · simp at hv
    · simp only [List.mem_singleton] at h
      subst h
      exact hlt
  · rename_i hi
    simp only [List.mem_singleton] at h
    subst h
    exact size_field_lt hi
  · simp at h

theorem size_parts_lt {raw : Json} {part : Slot × Json} (h : part ∈ parts raw) :
    part.2.size < raw.size := by
  rcases List.mem_append.1 h with h | h
  · exact size_propertyParts_lt h
  · exact size_itemParts_lt h

/-- The keywords of a schema; `true` has none. -/
def keywords : Json → Json
  | .bool true => .obj []
  | raw => raw

def build (path : List Slot) (raw : Json) : Tree Section :=
  .node ⟨path, keywords raw, isMixed raw⟩
    ((parts raw).attach.map fun ⟨part, _⟩ => (part.1, build (path ++ [part.1]) part.2))
termination_by raw.size
decreasing_by exact size_parts_lt ‹_›

def ofJson (raw : Json) : Tree Section := build [] raw

def problem (s : Section) (keyword : String) (misuse : Misuse) : Problem :=
  ⟨.outlining, s.pointer, .invalidKeyword ⟨keyword, misuse⟩⟩

def ownProblems (s : Section) : List Problem :=
  (match s.raw with
    | .obj _ => []
    | other => [problem s "schema" (.unexpected .object other)]) ++
  (match s.keyword? "properties" with
    | none | some (.obj _) => []
    | some other => [problem s "properties" (.unexpected .object other)])

def itemProblems (s : Section) : List Problem :=
  match s.keyword? "items" with
  | none | some (.obj _) | some (.bool true) => []
  | some (.arr _) => [problem s "items" .positionalItems]
  | some other => [problem s "items" (.unexpected .schema other)]

mutual

/-- What is wrong with an outline, in the order of the properties and items. -/
def problems : Tree Section → List Problem
  | .node s children => ownProblems s ++ childProblems children ++ itemProblems s

def childProblems : List (Slot × Tree Section) → List Problem
  | [] => []
  | (_, t) :: rest => problems t ++ childProblems rest

end

end FormSchema.Outline
