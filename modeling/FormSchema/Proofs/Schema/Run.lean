import FormSchema.Proofs.Schema.Relabel
import FormSchema.Proofs.Schema.Typing
import FormSchema.Schema.Compilation
import Mathlib

/-!
Compilations of given schemas.  The schema before its expressions are read tells the stages apart, so
that each of them can be evaluated for itself.

To evaluate a stage on a given schema is to unfold functions on strings and bytes whose equations are
in none of the parts of Mathlib, so that the whole of it is imported.
-/

namespace FormSchema

namespace Compilation

/-- What is known at first of a schema that admits one kind. -/
def typedAs (kind : Kind) (s : Section) : Attributes :=
  Typing.attributes (fun _ => none) s { target := .single kind, base := some kind }

/-- What the typing of a section says, if no choices are known by name. -/
def typedAlone (s : Section) : Attributes := (Typing.ofSection s).attributes (fun _ => none) s

/-- What was known of a schema before anything was derived. -/
def underived (a : Attributes) : Attributes where
  toSection := a.toSection
  target := a.target
  base := a.base
  nullable := a.nullable
  isEnum := a.isEnum
  choices := a.choices
  source := a.source

/-- A compilation told by the schema that it comes to before the expressions are read.  The sections
of this schema make the outline; no typing of them has a problem or asks for choices. -/
theorem run_eq_of_derived {settings : Settings} {raw inlined : Json} {data : Option Json}
    {derived schema : Schema} {inlining derivation wiring problems : List Problem}
    (inline_eq : Definitions.inline settings.dialect raw = .ok (inlined, inlining))
    (outline_eq : Outline.ofJson inlined = derived.map Attributes.toSection)
    (typing : ∀ s ∈ (derived.map Attributes.toSection).labels,
      (Typing.ofSection s).problem = none ∧ (Typing.ofSection s).choosing.name? = none)
    (typed_eq : (derived.map Attributes.toSection).map typedAlone = derived.map underived)
    (derive_eq : derive data (derived.map underived) = .ok (derived, derivation))
    (wire_eq : Wiring.wire derived = (schema, wiring))
    (problems_eq : inlining ++ Outline.problems (derived.map Attributes.toSection) ++ derivation ++
      wiring = problems) :
    run settings raw data = .ok ⟨schema, problems, settings.userData⟩ := by
  rw [← typed_eq] at derive_eq
  generalize derived.map Attributes.toSection = outline at *
  have typed_eq (offer : String → Option (List Choice)) :
      (typings outline).map (fun typed => typed.2.attributes offer typed.1) =
        outline.map typedAlone := by
    rw [typings, Tree.map_map]
    refine Tree.map_congr fun s hs => Typing.attributes_congr s fun name hname => ?_
    rw [(typing s hs).2] at hname
    cases hname
  have typing_eq : ((typings outline).labels.filterMap fun typed => typed.2.problem) = [] := by
    rw [typings, Tree.labels_map, List.filterMap_map]
    exact List.filterMap_eq_nil_iff.2 fun s hs => (typing s hs).1
  rw [run, compile, inline_eq]
  dsimp only
  rw [outline_eq, typed_eq, derive_eq]
  simp only [bind, Except.bind, wire_eq, typing_eq, List.append_nil, problems_eq]
  rfl

end Compilation

end FormSchema
