import FormSchema.Proofs.Schema.Halting
import FormSchema.Proofs.Schema.Resolved

/-!
Inlining again.  Whatever there was to report, no schema that can be reached in a schema whose
references have been inlined has a reference, and to inline it once more changes nothing.
-/

namespace FormSchema.Definitions

/-- The keywords whose values are schemas or lists of schemas. -/
def schemaKeywords : List String := ["items", "oneOf", "anyOf", "allOf", "not"]

/-- What can be reached from a schema through its properties and the keywords for schemas. -/
inductive Reaches (start : Json) : Json → Prop where
  | self : Reaches start start
  | property {fields properties : Fields} {property : String × Json}
      (reached : Reaches start (.obj fields)) (mem : ("properties", .obj properties) ∈ fields)
      (property_mem : property ∈ properties) : Reaches start property.2
  | keyword {fields : Fields} {field : String × Json} (reached : Reaches start (.obj fields))
      (mem : field ∈ fields) (key_mem : field.1 ∈ schemaKeywords) : Reaches start field.2
  | item {fields : Fields} {key : String} {items : List Json} {item : Json}
      (reached : Reaches start (.obj fields)) (mem : (key, .arr items) ∈ fields)
      (key_mem : key ∈ schemaKeywords) (item_mem : item ∈ items) : Reaches start item

/-- Only an object leads anywhere. -/
theorem Reaches.eq_or_exists_obj {start v : Json} (h : Reaches start v) :
    v = start ∨ ∃ fields, start = .obj fields := by
  induction h with
  | self => exact .inl rfl
  | property _ _ _ ih | keyword _ _ _ ih | item _ _ _ _ ih =>
    rcases ih with rfl | ih
    · exact .inr ⟨_, rfl⟩
    · exact .inr ih

theorem isKept_schemaKeywords (dialect : Dialect) (root : Bool) :
    ∀ key ∈ schemaKeywords, isKept dialect.namespaces root key = false := by
  cases dialect <;> cases root <;> decide

theorem ne_properties_of_mem {key : String} (h : key ∈ schemaKeywords) : key ≠ "properties" := by
  rintro rfl
  revert h
  decide

/-- What can be reached in a schema without references has none. -/
theorem Resolved.of_reaches {dialect : Dialect} {root : Bool} {start v : Json}
    (h : Resolved dialect.namespaces root start) (hv : Reaches start v) :
    ∃ root, Resolved dialect.namespaces root v := by
  -- The keywords for schemas are neither data nor sections of definitions, even of the root.
  have keyword {root : Bool} {fields : Fields} (hfields : Resolved dialect.namespaces root (.obj fields))
      {field : String × Json} (hmem : field ∈ fields) (hkey : field.1 ∈ schemaKeywords) :=
    (resolved_obj_iff.1 hfields field hmem).others (isKept_schemaKeywords dialect root _ hkey)
      (ne_properties_of_mem hkey)
  induction hv with
  | self => exact ⟨root, h⟩
  | @property _ properties property _ hmem hproperty ih =>
    obtain ⟨root, ih⟩ := ih
    have hkept := Outline.isKept_rewritten dialect root "properties" (by decide)
    exact ⟨false, (resolved_obj_iff.1 ih _ hmem).properties hkept rfl properties rfl property hproperty⟩
  | keyword _ hmem hkey ih =>
    obtain ⟨root, ih⟩ := ih
    exact ⟨_, keyword ih hmem hkey⟩
  | item _ hmem hkey hitem ih =>
    obtain ⟨root, ih⟩ := ih
    exact ⟨_, resolved_arr_iff.1 (keyword ih hmem hkey) _ hitem⟩

/-- No object that can be reached in the outcome of inlining has a reference, and inlining it again
gives the very same with nothing to report. -/
theorem inline_idempotent {dialect : Dialect} {document out : Json} {problems : List Problem}
    (distinct : document.keysDistinct = true)
    (h : inline dialect document = .ok (out, problems)) :
    (∀ fields, Reaches out (.obj fields) → ∀ text, (refKey, .str text) ∉ fields) ∧
      inline dialect out = .ok (out, []) := by
  cases document with
  | obj fields =>
    have hout : IsInlined dialect out := isInlined_inline distinct h
    refine ⟨fun inner hinner text hmem => ?_, hout.inline⟩
    obtain ⟨root, hresolved⟩ := hout.resolved.of_reaches hinner
    cases (resolved_obj_iff.1 hresolved _ hmem).free rfl
  | _ =>
    obtain ⟨rfl, -⟩ := Prod.mk.inj (Except.ok.inj h)
    refine ⟨fun inner hinner => ?_, rfl⟩
    rcases hinner.eq_or_exists_obj with hinner | ⟨fields, hfields⟩
    · cases hinner
    · cases hfields

/-! Two definitions that refer to each other, a definition that is no schema, and data that look like
a reference. -/

namespace Tangled

def reference (text : String) : Json := .obj [("$ref", .str text)]

def document : Json :=
  .obj [
    ("definitions", .obj [
      ("a", .obj [("$ref", .str "#/definitions/b"), ("title", .str "A")]),
      ("b", .obj [("items", .obj [("oneOf", .arr [reference "#/definitions/a"])])]),
      ("c", .bool false)]),
    ("properties", .obj [("x", reference "#/definitions/a"), ("y", reference "#/definitions/c"),
      ("z", reference "elsewhere")]),
    ("const", reference "#/definitions/a")]

def out : Json :=
  .obj [
    ("properties", .obj [
      ("x", .obj [("items", .obj [("oneOf", .arr [.obj []])]), ("title", .str "A")]),
      ("y", .obj []), ("z", .obj [])]),
    ("const", reference "#/definitions/a")]

def problems : List Problem :=
  [problem "/x/*" (.referenceCycle "#/definitions/a"),
    problem "/y" (.invalidKeyword ⟨"$ref", .definition (.bool false)⟩),
    problem "/z" (.unsupportedReference "elsewhere")]

end Tangled

/-- The references are gone, but for the one in the data. -/
theorem inline_idempotent_tangled :
    inline .draft7 Tangled.document = .ok (Tangled.out, Tangled.problems) ∧
      (∀ fields, Reaches Tangled.out (.obj fields) → ∀ text, (refKey, .str text) ∉ fields) ∧
        inline .draft7 Tangled.out = .ok (Tangled.out, []) := by
  have hinline : inline .draft7 Tangled.document = .ok (Tangled.out, Tangled.problems) :=
    inline_eq_of_within rfl
  exact ⟨hinline, inline_idempotent (by decide) hinline⟩

end FormSchema.Definitions
