import FormSchema.Proofs.Document.Addressing
import FormSchema.Proofs.Validation.Parts

/-!
Where complaints point to.  Whatever the schema is, a document is blamed at the pointers of its nodes,
and for each property that an object in it lacks, at the pointer that the property would have.  The
trials of variants leave nothing behind.
-/

namespace FormSchema

namespace Validation

variable {checks : TextChecks} {schema : Json} {path : List String} {data : Json} {v : Violation}

/-- Schemas that are no objects say at most that nothing is allowed. -/
theorem eq_of_mem_violations_plain (plain : schema.obj? = none)
    (h : v ∈ violations checks schema path data) : v = ⟨path, .nothingAllowed⟩ := by
  have hwhole : ∀ (data : Json) (parts : Fields → List Violation),
      v ∈ whole checks schema path data parts → v = ⟨path, .nothingAllowed⟩ := by
    intro data parts h
    cases schema with
    | obj fields => cases plain
    | bool b =>
      cases b with
      | false => exact List.mem_singleton.1 h
      | true => cases h
    | _ => cases h
  cases data <;> exact hwhole _ _ h

/-- A value is blamed for its kind, by itself, for what it lacks, or in one of its parts. -/
theorem cases_of_mem_violations (h : v ∈ violations checks schema path data) :
    (∃ cause, v = ⟨path, cause⟩) ∨
      ∃ fields, v ∈ absent fields path data ∨
        ∃ part ∈ data.children, v ∈ partViolations checks fields path part := by
  cases hschema : schema.obj? with
  | none => exact .inl ⟨_, eq_of_mem_violations_plain hschema h⟩
  | some fields =>
    obtain rfl : schema = .obj fields := by
      cases schema <;> simp_all [Json.obj?]
    rw [violations_obj] at h
    split at h
    · exact .inl ⟨_, List.mem_singleton.1 h⟩
    · rcases List.mem_append.1 h with hown | h
      · obtain ⟨cause, -, rfl⟩ := List.mem_map.1 hown
        exact .inl ⟨cause, rfl⟩
      · rcases List.mem_append.1 h with habsent | hparts
        · exact .inr ⟨fields, .inl habsent⟩
        · exact .inr ⟨fields, .inr (List.mem_flatMap.1 hparts)⟩

/-- In a part, a value is blamed at the pointer of the part, or for what the part is blamed for by
some schema. -/
theorem cases_of_mem_partViolations {fields : Fields} {part : Key × Json}
    (h : v ∈ partViolations checks fields path part) :
    (∃ cause, v = ⟨path ++ [part.1.token], cause⟩) ∨
      ∃ schema, v ∈ violations checks schema (path ++ [part.1.token]) part.2 := by
  obtain ⟨key, value⟩ := part
  have hundeclared : v ∈ undeclared fields path key → ∃ cause, v = ⟨path ++ [key.token], cause⟩ := by
    intro h
    cases key with
    | index i => cases h
    | name name =>
      rw [undeclared] at h
      split at h
      · exact ⟨_, List.mem_singleton.1 h⟩
      · cases h
  cases key with
  | name name =>
    rw [partViolations] at h
    dsimp only at h
    split at h
    · exact .inr ⟨_, h⟩
    · exact .inl (hundeclared h)
  | index i =>
    rw [partViolations] at h
    dsimp only at h
    split at h
    · exact .inl (hundeclared h)
    · exact .inr ⟨_, h⟩
    · split at h
      · cases h
      · exact .inl ⟨_, List.mem_singleton.1 h⟩

end Validation

namespace Document

section Located

variable {d : Document} {p : Place} {checks : TextChecks} {schema : Json} {v : Violation}

/-- Whether a violation is where a node is, or where an object lacks a property. -/
inductive Locates (d : Document) : Violation → Prop where
  | node {p : Place} (hp : d.Has p) (cause : Violation.Cause) : Locates d ⟨p.tokens, cause⟩
  | property {p : Place} {fields : Fields} {name : String} (hp : d.Has p)
      (object : p.value = .obj fields) (lacks : fields.lookup name = none) :
      Locates d ⟨p.tokens ++ [name], .missing⟩

theorem locates_of_absent (hp : d.Has p) {fields : Fields}
    (h : v ∈ Validation.absent fields p.tokens p.value) : d.Locates v := by
  cases hvalue : p.value with
  | obj own =>
    rw [hvalue] at h
    obtain ⟨name, hname, rfl⟩ := List.mem_map.1 h
    have hlacks : Fields.has own name = false := by
      simpa using (List.mem_filter.1 hname).2
    exact .property hp hvalue (by simpa [Fields.has] using hlacks)
  | _ =>
    rw [hvalue] at h
    cases h

/-- Whatever the value of a node is blamed for is located in the document. -/
theorem Sound.locates_of_mem_violations (sound : d.Sound) (hp : d.Has p)
    (h : v ∈ Validation.violations checks schema p.tokens p.value) : d.Locates v := by
  obtain ⟨n, above⟩ := p
  induction n using Node.induct generalizing above schema with
  | step n ih =>
    rcases Validation.cases_of_mem_violations h with ⟨cause, rfl⟩ | ⟨fields, habsent | hparts⟩
    · exact .node hp cause
    · exact locates_of_absent hp habsent
    · obtain ⟨part, hpart, h⟩ := hparts
      rw [Place.value, Node.children_value] at hpart
      obtain ⟨child, hchild, rfl⟩ := List.mem_map.1 hpart
      have hdown : d.Has (Place.down ⟨n, above⟩ child) :=
        hp.down (Key.lookup_eq_some_of_mem (sound.distinct.keys hp.at?_path) hchild)
      have htokens : Place.tokens ⟨n, above⟩ ++ [child.1.token] =
          Place.tokens (Place.down ⟨n, above⟩ child) := (Place.tokens_down _ _).symm
      rcases Validation.cases_of_mem_partViolations h with ⟨cause, rfl⟩ | ⟨schema, h⟩
      · dsimp only
        rw [htokens]
        exact .node hdown cause
      · dsimp only at h
        rw [htokens] at h
        exact ih child hchild _ hdown h

end Located

/-- What a document is blamed for is found at its pointer, or is a required property that an object
does not have, at the pointer that the object's own is the beginning of. -/
theorem located_of_mem_run (data : ProperJson) (words : data.1.size ≤ Number.indexBound)
    (checks : TextChecks) (schema : Json) :
    ∀ v ∈ Validation.run checks schema data.1,
      (∃ p, (ofJson data.1).byPointer? v.pointer = some p) ∨
        ∃ object name, v.pointer = Pointer.child object name ∧ v.message = "is required" ∧
          ∃ p fields, (ofJson data.1).byPointer? object = some p ∧ p.value = .obj fields ∧
            fields.lookup name = none := by
  intro v hv
  have sound : (ofJson data.1).Sound := sound_ofJson data.2
  have hfound {p : Place} (hp : (ofJson data.1).Has p) :
      (ofJson data.1).byPointer? p.pointer = some p :=
    sound.byPointer?_pointer words (sound.mem_places_iff.2 hp)
  have hroot : (ofJson data.1).rootPlace.value = data.1 := Node.value_ofJson ..
  rw [Validation.run, ← hroot] at hv
  cases sound.locates_of_mem_violations (.root _) hv with
  | @node p hp cause => exact .inl ⟨p, hfound hp⟩
  | @property p fields name hp object lacks =>
    exact .inr ⟨p.pointer, name, (Pointer.child_join _ _).symm, rfl, p, fields, hfound hp, object, lacks⟩

namespace Located

def schema : Json :=
  .obj [("properties", .obj [("a/b", .obj [("items", .obj [("required", .arr [.str "~c"])])])])]

def data : ProperJson := ⟨.obj [("a/b", .arr [.obj [("~c", .null)], .obj [("c", .null)]])], by decide⟩

def checks : TextChecks := ⟨fun _ => none, fun _ => none⟩

end Located

/-- The second item has no property of the required name. -/
theorem located_of_mem_run_item :
    (Validation.run Located.checks Located.schema Located.data.1).map Violation.pointer =
        ["/a~1b/1/~0c"] ∧
      ∀ v ∈ Validation.run Located.checks Located.schema Located.data.1,
        (∃ p, (ofJson Located.data.1).byPointer? v.pointer = some p) ∨
          ∃ object name, v.pointer = Pointer.child object name ∧ v.message = "is required" ∧
            ∃ p fields, (ofJson Located.data.1).byPointer? object = some p ∧
              p.value = .obj fields ∧ fields.lookup name = none :=
  ⟨by decide +kernel, located_of_mem_run Located.data (by decide) Located.checks Located.schema⟩

end Document

end FormSchema
