import FormSchema.Proofs.Document.Relinking
import FormSchema.Proofs.Schema.Normal
import FormSchema.Proofs.Schema.Target
import FormSchema.Proofs.Validation.Parts
import FormSchema.Proofs.Schema.Run

/-!
Validation and linking.  Where no items are told apart by variants, to link a document is to check
the kinds of its parts: linking blames those parts for their kinds that validation against the plain
schema blames for theirs, and besides that the plain schema asks only what the schema itself asks.
-/

namespace FormSchema

theorem Schema.part?_eq (s : Schema) (key : Key) : Schema.part? s key = s.at? key.slot := by
  cases key <;> rfl

/-- Whether a schema has the labels of an outline that has neither problems nor variants. -/
structure Schema.OfOutline (s : Schema) (o : Tree Section) : Prop where
  core : s.map Attributes.core = o.map Section.typed
  valid : Outline.Valid o
  unmixed : ∀ label ∈ o.labels, label.mixed = false

namespace Schema.OfOutline

variable {s : Schema} {o : Tree Section}

theorem label (h : OfOutline s o) : s.label.core = o.label.typed := by
  have := congrArg Tree.label h.core
  rwa [Tree.label_map, Tree.label_map] at this

theorem mixed (h : OfOutline s o) : o.label.mixed = false :=
  h.unmixed _ (by rw [Tree.labels_eq]; exact List.mem_cons_self)

theorem isMixed_eq {path : List Slot} {raw : Json} (h : OfOutline s (Outline.build path raw)) :
    Outline.isMixed raw = false := by
  have := h.mixed
  rwa [Outline.label_build] at this

/-- The schemas in a slot are there for both or for neither. -/
theorem at? (h : OfOutline s o) (slot : Slot) :
    s.at? slot = none ∧ o.at? slot = none ∨
      ∃ u v, s.at? slot = some u ∧ o.at? slot = some v ∧ OfOutline u v := by
  have hcore := congrArg (Tree.at? · slot) h.core
  simp only [Tree.at?_map] at hcore
  cases hs : s.at? slot with
  | none =>
    rw [hs] at hcore
    exact .inl ⟨rfl, Option.map_eq_none_iff.1 hcore.symm⟩
  | some u =>
    rw [hs, Option.map_some] at hcore
    obtain ⟨v, hv, heq⟩ := Option.map_eq_some_iff.1 hcore.symm
    refine .inr ⟨u, v, rfl, hv, heq.symm, h.valid.at? hv, fun label hlabel => h.unmixed label ?_⟩
    rw [Tree.labels_eq]
    exact List.mem_cons_of_mem _ (List.mem_flatMap.2 ⟨_, Key.mem_of_lookup hv, hlabel⟩)

theorem schema_unmixed (h : OfOutline s o) : Schema.Unmixed s := by
  intro path u hu
  induction path generalizing s o with
  | nil =>
    obtain rfl := Option.some.inj hu
    exact (congrArg (fun a => a.toSection.mixed) h.label).trans h.mixed
  | cons slot path ih =>
    obtain ⟨child, hchild, hu⟩ := Option.bind_eq_some_iff.1 hu
    obtain ⟨hnone, -⟩ | ⟨u', v, hu', -, hchild'⟩ := h.at? slot
    · rw [hnone] at hchild
      cases hchild
    · rw [hu'] at hchild
      obtain rfl := Option.some.inj hchild
      exact ih hchild' hu

/-- What is known of the kinds of a schema that has the labels of an outline. -/
theorem kinds {path : List Slot} {fields : Fields}
    (h : OfOutline s (Outline.build path (.obj fields))) :
    Inference.target fields = .ok s.label.target ∧ s.label.target.toList ≠ [] ∧
      (Outline.build path (.obj fields)).label.typed.target = s.label.target ∧
        ∀ kind, s.label.target.admits kind = s.label.compatible kind := by
  have hlabel := h.label
  have htarget : s.label.target = (Outline.build path (.obj fields)).label.typed.target :=
    (congrArg Attributes.target hlabel : s.label.core.target = _)
  have hbase : s.label.base = (Outline.build path (.obj fields)).label.typed.base :=
    (congrArg Attributes.base hlabel : s.label.core.base = _)
  have hnullable : s.label.nullable = (Outline.build path (.obj fields)).label.typed.nullable :=
    (congrArg Attributes.nullable hlabel : s.label.core.nullable = _)
  obtain ⟨hfound, base, hpicked, hsome⟩ :=
    h.valid.label.typed (by rw [Outline.label_build]; rfl : _ = Json.obj fields)
  rw [← htarget] at hfound hpicked
  rw [← hnullable] at hpicked
  rw [← hbase] at hsome
  refine ⟨hfound, Inference.toList_ne_nil hpicked, htarget.symm, fun kind => ?_⟩
  rw [Inference.admits_of_baseType hpicked, Attributes.compatible, hsome]

end Schema.OfOutline

namespace Validation

variable {s : Schema} {path : List Slot} {fields : Fields}

/-- A value that fits its schema is blamed by the plain schema for what the keywords say of it, and
its parts are blamed by the plain schemas of the outlines below. -/
theorem violations_plain (h : Schema.OfOutline s (Outline.build path (.obj fields)))
    (checks : TextChecks) (tokens : List String) (data : Json) :
    violations checks (Outline.normal (Outline.build path (.obj fields))) tokens data =
      if s.label.compatible (Kind.ofJson data) then
        (ownCauses checks fields data).map (⟨tokens, ·⟩) ++ (absent fields tokens data ++
          data.children.flatMap (slotViolations checks
            (fun slot => ((Outline.build path (.obj fields)).at? slot).map Outline.normal)
            fields tokens))
      else [⟨tokens, .wrongKind s.label.target.toList (Kind.ofJson data)⟩] := by
  obtain ⟨-, hne, htyped, hadmits⟩ := h.kinds
  have same : ∀ key ∉ ["type", "properties", "items"],
      (Outline.plain (Outline.build path (.obj fields))).lookup key = fields.lookup key :=
    fun key hkey => Outline.lookup_plain hkey
  have htype : (Outline.plain (Outline.build path (.obj fields))).lookup "type" =
      some (Attributes.typeKeyword s.label.target) := by
    rw [← htyped] at hne ⊢
    exact Attributes.lookup_type hne
  have hpart : partViolations checks (Outline.plain (Outline.build path (.obj fields))) tokens =
      slotViolations checks
        (fun slot => ((Outline.build path (.obj fields)).at? slot).map Outline.normal)
        fields tokens := by
    rw [partViolations_eq
      (fun slot => ((Outline.build path (.obj fields)).at? slot).map Outline.normal)
      (Outline.property?_plain path fields)
      (Outline.itemRule_plain h.valid h.isMixed_eq), slotViolations_congr same]
  rw [Outline.normal_eq, violations_obj, wrongKind?_typeKeyword htype hne, hadmits]
  split
  · rename_i cause hcause
    split at hcause
    · cases hcause
    · rename_i hfits
      rw [if_neg hfits, ← Option.some.inj hcause]
  · rename_i hnone
    split at hnone
    · rename_i hfits
      rw [if_pos hfits, ownCauses_congr same, absent_congr same, hpart]
    · cases hnone

/-- What a schema itself blames a value for that fits it. -/
theorem violations_raw (h : Schema.OfOutline s (Outline.build path (.obj fields)))
    (checks : TextChecks) (tokens : List String) {data : Json}
    (hfits : s.label.compatible (Kind.ofJson data) = true) :
    violations checks (.obj fields) tokens data =
      (ownCauses checks fields data).map (⟨tokens, ·⟩) ++ (absent fields tokens data ++
        data.children.flatMap (slotViolations checks
          (fun slot => (Outline.parts (.obj fields)).lookup slot) fields tokens)) := by
  obtain ⟨htarget, -, -, hadmits⟩ := h.kinds
  rw [violations_obj, wrongKind?_eq_none htarget ((hadmits _).trans hfits),
    partViolations_eq (fun slot => (Outline.parts (.obj fields)).lookup slot)
      (fun name => (Outline.lookup_parts_property fields name).symm)
      (Outline.itemRule_eq h.valid h.isMixed_eq)]

end Validation

theorem Place.tokens_cons (n m : Node) (key : Key) (above : List (Key × Node)) :
    Place.tokens ⟨n, (key, m) :: above⟩ = Place.tokens ⟨m, above⟩ ++ [key.token] := by
  rw [Place.tokens_eq, Place.tokens_eq, Place.path_mk_cons, List.map_append]
  rfl

namespace Linking

variable {l : Linking} {above above' : List (Key × Node)} {n : Node}

/-- Nodes that are linked to nothing are blamed for nothing. -/
theorem mismatches_link_none (l : Linking) (above above' : List (Key × Node)) (n : Node) :
    Place.mismatches ⟨link l none above n, above'⟩ = [] := by
  induction n using Node.induct generalizing above above' with
  | step n ih =>
    rw [Place.mismatches, Place.subtree_eq, List.filterMap_cons, Place.mismatch?, schema?_link]
    dsimp only
    rw [children_link, List.flatMap_map, List.filterMap_flatMap, List.flatMap_eq_nil_iff]
    exact fun part hpart => ih part hpart _ _

/-- A linked node is blamed for its kind, or else its parts are for theirs. -/
theorem mismatches_link {s : Schema} (unmixed : Schema.Unmixed s) (l : Linking)
    (above above' : List (Key × Node)) (n : Node) :
    Place.mismatches ⟨link l (some s) above n, above'⟩ =
      if s.label.compatible n.kind then
        n.children.flatMap fun part =>
          match s.at? part.1.slot with
          | some u => Place.mismatches
              ⟨link l (some u) ((part.1, n) :: above) part.2,
                (part.1, link l (some s) above n) :: above'⟩
          | none => []
      else [⟨Place.pointer ⟨n, above'⟩, .wrongKind s.label.target n.kind⟩] := by
  have hbelow (part : Key × Node) : l.below? (some s) n ⟨part.2, (part.1, n) :: above⟩ =
      if s.label.compatible n.kind then s.at? part.1.slot else none := by
    rw [← Schema.part?_eq]
    exact below?_eq (fun u hu => Option.some.inj hu ▸ unmixed) ⟨n, above⟩ part
  rw [Place.mismatches, Place.subtree_eq, List.filterMap_cons, Place.mismatch?, schema?_link]
  dsimp only
  rw [kind_link, children_link, List.flatMap_map, List.filterMap_flatMap]
  simp only [hbelow]
  by_cases hfits : s.label.compatible n.kind = true
  · simp only [if_pos hfits]
    refine List.flatMap_congr fun part _ => ?_
    cases s.at? part.1.slot with
    | some u => rfl
    | none => exact mismatches_link_none l _ _ _
  · simp only [if_neg hfits]
    refine congrArg (_ :: ·) (List.flatMap_eq_nil_iff.2 fun part _ => ?_)
    exact mismatches_link_none l _ _ _

/-- The parts that linking blames for their kinds are those that validation against the plain schema
blames for theirs. -/
theorem pointers_mismatches {s : Schema} {path : List Slot} {raw : Json}
    (h : Schema.OfOutline s (Outline.build path raw)) (l : Linking) (checks : TextChecks)
    (above above' : List (Key × Node)) (n : Node) :
    (Place.mismatches ⟨link l (some s) above n, above'⟩).map LinkError.pointer =
      ((Validation.violations checks (Outline.normal (Outline.build path raw))
        (Place.tokens ⟨n, above'⟩) n.value).filter (·.cause.isWrongKind)).map Violation.pointer := by
  induction n using Node.induct generalizing s path raw above above' with
  | step n ih =>
    obtain ⟨fields, rfl⟩ := h.valid.exists_fields
    rw [mismatches_link h.schema_unmixed, Validation.violations_plain h, ← Node.kind_eq]
    by_cases hfits : s.label.compatible n.kind = true
    · have hown : ((Validation.ownCauses checks fields n.value).map fun cause =>
          (⟨Place.tokens ⟨n, above'⟩, cause⟩ : Violation)).filter (·.cause.isWrongKind) = [] := by
        rw [List.filter_map]
        exact congrArg _ (Validation.filter_ownCauses checks fields n.value)
      rw [if_pos hfits, if_pos hfits, List.filter_append, List.filter_append, hown,
        Validation.filter_absent, List.nil_append, List.nil_append, Node.children_value,
        List.flatMap_map, List.map_flatMap, List.filter_flatMap, List.map_flatMap]
      refine List.flatMap_congr fun part hpart => ?_
      obtain ⟨hs, ho⟩ | ⟨u, v, hu, hv, hbelow⟩ := h.at? part.1.slot
      · simp only [Validation.slotViolations, hs, ho, Option.map_none]
        rw [Validation.filter_undeclared]
        rfl
      · rw [Outline.at?_build] at hv
        obtain ⟨raw, hraw, rfl⟩ := Option.map_eq_some_iff.1 hv
        simp only [Validation.slotViolations, hu, Outline.at?_build, hraw, Option.map_some]
        rw [ih part hpart hbelow, Place.tokens_cons]
        rfl
    · rw [if_neg hfits, if_neg hfits]
      rfl

/-- A value is accepted by the plain schema if it is by the schema itself and nothing in it is blamed
for its kind. -/
theorem violations_plain_eq_nil_iff {s : Schema} {path : List Slot} {raw : Json}
    (h : Schema.OfOutline s (Outline.build path raw)) (l : Linking) (checks : TextChecks)
    (above above' : List (Key × Node)) (tokens : List String) (n : Node) :
    Validation.violations checks (Outline.normal (Outline.build path raw)) tokens n.value = [] ↔
      Validation.violations checks raw tokens n.value = [] ∧
        Place.mismatches ⟨link l (some s) above n, above'⟩ = [] := by
  induction n using Node.induct generalizing s path raw above above' tokens with
  | step n ih =>
    obtain ⟨fields, rfl⟩ := h.valid.exists_fields
    rw [mismatches_link h.schema_unmixed, Validation.violations_plain h, ← Node.kind_eq]
    by_cases hfits : s.label.compatible n.kind = true
    · rw [Validation.violations_raw h checks tokens (by rwa [← Node.kind_eq]), if_pos hfits,
        if_pos hfits, Node.children_value, List.flatMap_map, List.flatMap_map]
      simp only [List.append_eq_nil_iff, List.flatMap_eq_nil_iff, and_assoc]
      refine and_congr_right fun _ => and_congr_right fun _ => ?_
      rw [← forall₂_and]
      refine forall₂_congr fun part hpart => ?_
      obtain ⟨hs, ho⟩ | ⟨u, v, hu, hv, hbelow⟩ := h.at? part.1.slot
      · rw [Outline.at?_build, Option.map_eq_none_iff] at ho
        simp [Validation.slotViolations, hs, Outline.at?_build, ho]
      · rw [Outline.at?_build] at hv
        obtain ⟨raw, hraw, rfl⟩ := Option.map_eq_some_iff.1 hv
        simp only [Validation.slotViolations, hu, Outline.at?_build, hraw, Option.map_some]
        exact ih part hpart hbelow _ _ _
    · rw [if_neg hfits, if_neg hfits]
      simp

end Linking

/-- Whether a node is blamed for its kind. -/
def LinkError.Cause.isWrongKind : LinkError.Cause → Bool
  | .wrongKind _ _ => true
  | .noSchema => false

theorem Place.filter_mismatches (p : Place) :
    p.mismatches.filter (·.cause.isWrongKind) = p.mismatches := by
  refine List.filter_eq_self.2 fun e he => ?_
  obtain ⟨q, -, hq⟩ := List.mem_filterMap.1 he
  rw [mismatch?] at hq
  split at hq
  · cases hq
  · split at hq
    · cases hq
    · rw [← Option.some.inj hq]
      rfl

namespace Compilation

variable {settings : Settings} {cache : Enumeration.Cache} {data : Option Json} {c : Compiled}

/-! A schema that names no type, and a value of which no part has the kind that its keywords are
for. -/

namespace Silent

def text : Json := .obj [("minLength", .ofNat 1)]

def amount : Json := .obj [("maximum", .ofNat 9)]

def raw : Json := .obj [("properties", .obj [("a", text), ("b", amount)])]

def schema : Schema :=
  .node { typedAs .object ⟨[], raw, false⟩ with
      widget := "object"
      seats := [⟨"a", 0, none, none, none, none⟩, ⟨"b", 1, none, none, none, none⟩] }
    [(.property "a", .node { typedAs .string ⟨[.property "a"], text, false⟩ with
        widget := "string" } []),
      (.property "b", .node { typedAs .number ⟨[.property "b"], amount, false⟩ with
        widget := "number" } [])]

def compiled : Compiled := ⟨schema, [], .null⟩

theorem inline_eq : Definitions.inline .draft7 raw = .ok (raw, []) := by cbv

theorem run_eq : run {} raw none = .ok compiled := by
  have derive_eq : derive none (schema.map underived) = .ok (schema, []) := by cbv
  have wire_eq : Wiring.wire schema = (schema, []) := by cbv
  exact run_eq_of_derived inline_eq (by cbv) (by decide +kernel) rfl derive_eq wire_eq (by cbv)

def value : Json := .obj [("a", .null), ("b", .str "u")]

def checks : TextChecks := ⟨fun _ => none, fun _ => none⟩

end Silent

/-- A schema without problems and variants has the labels of the outline that it comes from. -/
theorem exists_ofOutline {raw : Json} (compiled : (compile settings cache raw data).1 = .ok c)
    (valid : c.problems = []) (unmixed : ∀ p ∈ c.schema.places, p.label.mixed = false) :
    ∃ inlined, Definitions.inline settings.dialect raw = .ok (inlined, []) ∧
      c.schema.normal = Outline.normal (Outline.ofJson inlined) ∧
        Schema.OfOutline c.schema (Outline.ofJson inlined) := by
  obtain ⟨inlined, offer, derived, stages, hinline, houtline⟩ := exists_valid compiled valid
  refine ⟨inlined, hinline, stages.normal_eq, stages.map_core, houtline, fun label hlabel => ?_⟩
  have hmem : label.typed ∈ (c.schema.map Attributes.core).labels := by
    rw [stages.map_core, Tree.labels_map]
    exact List.mem_map_of_mem hlabel
  rw [Tree.labels_map] at hmem
  obtain ⟨a, ha, hcore⟩ := List.mem_map.1 hmem
  rw [Tree.labels_eq_places] at ha
  obtain ⟨p, hp, rfl⟩ := List.mem_map.1 ha
  exact (congrArg (fun a => a.toSection.mixed) hcore).symm.trans (unmixed p hp)

/-- To link a document and to validate it against the plain schema blames the same parts of it for
their kinds, in the same order. -/
theorem pointers_link_eq {raw : Json} (compiled : (compile settings cache raw data).1 = .ok c)
    (valid : c.problems = []) (unmixed : ∀ p ∈ c.schema.places, p.label.mixed = false)
    (checks : TextChecks) (value : Json) :
    (((Document.ofJson value).link c).2.filter (·.cause.isWrongKind)).map LinkError.pointer =
      ((Validation.run checks c.schema.normal value).filter (·.cause.isWrongKind)).map
        Violation.pointer := by
  obtain ⟨inlined, -, hnormal, h⟩ := exists_ofOutline compiled valid unmixed
  have hvalue : (Document.ofJson value).root.value = value := Node.value_ofJson ..
  have hpointers := Linking.pointers_mismatches h ⟨Document.ofJson value, c.userData⟩ checks [] []
    (Document.ofJson value).root
  rw [hvalue] at hpointers
  rw [hnormal]
  exact (congrArg _ (Place.filter_mismatches _)).trans hpointers

theorem pointers_link_eq_silent :
    ((Document.ofJson Silent.value).link Silent.compiled).2.map LinkError.pointer = ["/a", "/b"] ∧
      ((Validation.run Silent.checks Silent.compiled.schema.normal Silent.value).filter
        (·.cause.isWrongKind)).map Violation.pointer = ["/a", "/b"] := by
  have hlinked : ((Document.ofJson Silent.value).link Silent.compiled).2.map LinkError.pointer =
      ["/a", "/b"] := by decide +kernel
  have heq := pointers_link_eq Silent.run_eq rfl (by decide +kernel) Silent.checks Silent.value
  exact ⟨hlinked, heq.symm.trans hlinked⟩

/-- The plain schema accepts what the schema accepts and can be linked: that it has types is all that
it adds to the schema without references. -/
theorem run_normal_eq_nil_iff {raw : Json} (compiled : (compile settings cache raw data).1 = .ok c)
    (valid : c.problems = []) (unmixed : ∀ p ∈ c.schema.places, p.label.mixed = false) :
    ∃ inlined, Definitions.inline settings.dialect raw = .ok (inlined, []) ∧
      ∀ (checks : TextChecks) (value : Json),
        Validation.run checks c.schema.normal value = [] ↔
          Validation.run checks inlined value = [] ∧ ((Document.ofJson value).link c).2 = [] := by
  obtain ⟨inlined, hinline, hnormal, h⟩ := exists_ofOutline compiled valid unmixed
  refine ⟨inlined, hinline, fun checks value => ?_⟩
  have hvalue : (Document.ofJson value).root.value = value := Node.value_ofJson ..
  have hiff := Linking.violations_plain_eq_nil_iff h ⟨Document.ofJson value, c.userData⟩ checks [] []
    [] (Document.ofJson value).root
  rw [hvalue] at hiff
  rw [hnormal]
  exact hiff

/-- The keywords say nothing of a value of another kind, so that it is accepted without the types. -/
theorem run_normal_eq_nil_iff_silent :
    Validation.run Silent.checks Silent.raw Silent.value = [] ∧
      Validation.run Silent.checks Silent.compiled.schema.normal Silent.value ≠ [] := by
  have haccepted : Validation.run Silent.checks Silent.raw Silent.value = [] := by rfl
  have hblamed : ((Document.ofJson Silent.value).link Silent.compiled).2 ≠ [] := by
    decide +kernel
  obtain ⟨inlined, hinline, hiff⟩ := run_normal_eq_nil_iff Silent.run_eq rfl (by decide +kernel)
  obtain ⟨rfl, -⟩ := Prod.mk.inj (Except.ok.inj (hinline.symm.trans Silent.inline_eq))
  exact ⟨haccepted, fun hnormal => hblamed ((hiff Silent.checks Silent.value).1 hnormal).2⟩

end Compilation

end FormSchema
