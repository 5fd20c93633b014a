import FormSchema.Proofs.Json.Path
import FormSchema.Validation.Basic

/-!
What a value is blamed for, by itself and by its parts.  The parts of objects and of arrays are
blamed in the same way, each by the schema that is declared for its key.
-/

namespace FormSchema

namespace Violation.Cause

/-- Whether a value is blamed for its kind. -/
def isWrongKind : Violation.Cause → Bool
  | .wrongKind _ _ => true
  | _ => false

end Violation.Cause

/-- The slot for all values at a key, where no items are told apart by variants. -/
def Key.slot : Key → Slot
  | .name s => .property s
  | .index _ => .item

namespace Validation

variable {checks : TextChecks} {schema schema' : Fields} {path : List String}

/-- To fit the schema of all items, if there is one. -/
def ItemRule.all : Option Json → ItemRule
  | some item => .schema item
  | none => .anything

/-- What a part is blamed for where nothing is declared for its key. -/
def undeclared (schema : Fields) (path : List String) : Key → List Violation
  | .name name => if isClosed schema then [⟨path ++ [name], .notAllowed⟩] else []
  | .index _ => []

/-- What an object is blamed for because of names that it does not have. -/
def absent (schema : Fields) (path : List String) : Json → List Violation
  | .obj fields => (missing schema fields).map fun name => ⟨path ++ [name], .missing⟩
  | _ => []

/-- What the part at a key is blamed for. -/
def partViolations (checks : TextChecks) (schema : Fields) (path : List String) (part : Key × Json) :
    List Violation :=
  match part.1 with
  | .name name =>
    match property? schema name with
    | some property => violations checks property (path ++ [name]) part.2
    | none => undeclared schema path part.1
  | .index i =>
    match itemRule schema with
    | .anything => undeclared schema path part.1
    | .schema item => violations checks item (path ++ [toString i]) part.2
    | .variants variants =>
      if variants.any fun variant =>
          (violations checks variant (path ++ [toString i]) part.2).isEmpty then []
      else [⟨path ++ [toString i], .noVariant⟩]

theorem fieldViolations_eq (checks : TextChecks) (schema : Fields) (path : List String)
    (fields : Fields) :
    fieldViolations checks schema path fields =
      (Key.ofFields fields).flatMap (partViolations checks schema path) := by
  induction fields with
  | nil => rfl
  | cons field fields ih =>
    rw [fieldViolations, ih]
    rfl

theorem itemViolations_eq (checks : TextChecks) (schema : Fields) (path : List String) (start : Nat)
    (items : List Json) :
    itemViolations checks (itemRule schema) path start items =
      (Key.ofItems start items).flatMap (partViolations checks schema path) := by
  induction items generalizing start with
  | nil => rfl
  | cons item items ih =>
    rw [itemViolations.eq_def]
    dsimp only
    rw [ih, Key.ofItems_cons, List.flatMap_cons]
    rfl

/-- What a value is blamed for, whatever its kind. -/
theorem violations_obj (checks : TextChecks) (schema : Fields) (path : List String) (data : Json) :
    violations checks (.obj schema) path data =
      match wrongKind? schema data with
      | some cause => [⟨path, cause⟩]
      | none =>
        (ownCauses checks schema data).map (⟨path, ·⟩) ++ (absent schema path data ++
          data.children.flatMap (partViolations checks schema path)) := by
  cases data with
  | obj fields =>
    rw [violations, whole, fieldViolations_eq]
    rfl
  | arr items =>
    rw [violations, whole, itemViolations_eq]
    rfl
  | _ => rfl

/-- What the part at a key is blamed for where each slot has one schema or none. -/
def slotViolations (checks : TextChecks) (part? : Slot → Option Json) (schema : Fields)
    (path : List String) (part : Key × Json) : List Violation :=
  match part? part.1.slot with
  | some declared => violations checks declared (path ++ [part.1.token]) part.2
  | none => undeclared schema path part.1

theorem partViolations_eq (part? : Slot → Option Json)
    (properties : ∀ name, property? schema name = part? (.property name))
    (items : itemRule schema = .all (part? .item)) :
    partViolations checks schema path = slotViolations checks part? schema path := by
  funext part
  obtain ⟨key, value⟩ := part
  rw [partViolations, slotViolations]
  cases key with
  | name name =>
    simp only [properties, Key.slot]
    cases part? (.property name) <;> rfl
  | index i =>
    simp only [items, Key.slot]
    cases part? .item <;> rfl

section

variable (same : ∀ key ∉ ["type", "properties", "items"], schema.lookup key = schema'.lookup key)

include same

/-- By itself a value is blamed for the same things by schemas that differ only in the types, the
properties and the items. -/
theorem ownCauses_congr (data : Json) : ownCauses checks schema data = ownCauses checks schema' data := by
  have value : valueCauses schema data = valueCauses schema' data := by
    rw [valueCauses, valueCauses, same "const" (by decide), same "enum" (by decide)]
  unfold ownCauses
  rw [value]
  refine congrArg _ ?_
  cases data with
  | str text =>
    simp only [textCauses, natural?, text?, same "minLength" (by decide),
      same "maxLength" (by decide), same "pattern" (by decide), same "format" (by decide)]
  | num n =>
    simp only [numberCauses, float?, same "minimum" (by decide), same "maximum" (by decide),
      same "exclusiveMinimum" (by decide), same "exclusiveMaximum" (by decide),
      same "multipleOf" (by decide)]
  | arr items =>
    simp only [natural?, same "minItems" (by decide), same "maxItems" (by decide)]
  | _ => rfl

theorem absent_congr (data : Json) : absent schema path data = absent schema' path data := by
  cases data with
  | obj fields => rw [absent, absent, missing, missing, same "required" (by decide)]
  | _ => rfl

theorem slotViolations_congr (part? : Slot → Option Json) :
    slotViolations checks part? schema path = slotViolations checks part? schema' path := by
  have hclosed : isClosed schema = isClosed schema' := by
    rw [isClosed, isClosed, same "additionalProperties" (by decide)]
  have hundeclared (key : Key) : undeclared schema path key = undeclared schema' path key := by
    cases key with
    | name name => rw [undeclared, undeclared, hclosed]
    | index i => rfl
  funext part
  rw [slotViolations, slotViolations, hundeclared]

end

theorem filter_blame {α : Type} (bound : Option α) (kept : α → Bool) {cause : α → Violation.Cause}
    (h : ∀ b, (cause b).isWrongKind = false) :
    (blame bound kept cause).filter Violation.Cause.isWrongKind = [] := by
  cases bound with
  | none => rfl
  | some b =>
    rw [blame]
    split
    · rfl
    · rw [List.filter_cons, h]
      rfl

/-- By itself a value is never blamed for its kind. -/
theorem filter_ownCauses (checks : TextChecks) (schema : Fields) (data : Json) :
    (ownCauses checks schema data).filter Violation.Cause.isWrongKind = [] := by
  have value : (valueCauses schema data).filter Violation.Cause.isWrongKind = [] := by
    rw [valueCauses, List.filter_append, filter_blame _ _ fun _ => rfl, filter_blame _ _ fun _ => rfl]
    rfl
  unfold ownCauses
  rw [List.filter_append, value, List.nil_append]
  cases data with
  | str text =>
    unfold textCauses
    rw [List.filter_append, List.filter_append, List.filter_append,
      filter_blame _ _ fun _ => rfl, filter_blame _ _ fun _ => rfl, filter_blame _ _ fun _ => rfl]
    simp only [List.nil_append, List.append_nil]
    split
    · rfl
    · split
      · split <;> rfl
      · rfl
  | num n =>
    simp only [numberCauses, List.filter_append]
    rw [filter_blame _ _ fun _ => rfl, filter_blame _ _ fun _ => rfl, filter_blame _ _ fun _ => rfl,
      filter_blame _ _ fun _ => rfl, filter_blame _ _ fun _ => rfl]
    rfl
  | arr items =>
    simp only [List.filter_append]
    rw [filter_blame _ _ fun _ => rfl, filter_blame _ _ fun _ => rfl]
    rfl
  | _ => rfl

theorem filter_absent (schema : Fields) (path : List String) (data : Json) :
    (absent schema path data).filter (·.cause.isWrongKind) = [] := by
  cases data with
  | obj fields =>
    refine List.filter_eq_nil_iff.2 fun violation hmem => ?_
    obtain ⟨name, -, rfl⟩ := List.mem_map.1 hmem
    exact Bool.false_ne_true
  | _ => rfl

theorem filter_undeclared (schema : Fields) (path : List String) (key : Key) :
    (undeclared schema path key).filter (·.cause.isWrongKind) = [] := by
  cases key with
  | name name =>
    rw [undeclared]
    split <;> rfl
  | index i => rfl

end Validation

end FormSchema
