import FormSchema.Proofs.Schema.Fixpoint
import FormSchema.Proofs.Schema.Resolved
import FormSchema.Proofs.Schema.Run

/-!
Plain schemas compiled again.  What follows from the typings and what the expressions read does not
depend on the keywords that a plain schema rewrites, so that the plain schema compiles to the same
schema with these keywords in their plain form.
-/

namespace FormSchema

namespace Section

/-- A section without the keywords that its plain schema rewrites. -/
def bare (s : Section) : Section where
  path := s.path
  raw :=
    match s.raw with
    | .obj fields => .obj (fields.filter fun field => !Attributes.rewritten.contains field.1)
    | other => other
  mixed := s.mixed

theorem bare_obj (path : List Slot) (fields : Fields) (mixed : Bool) :
    bare ⟨path, .obj fields, mixed⟩ =
      ⟨path, .obj (fields.filter fun field => !Attributes.rewritten.contains field.1), mixed⟩ := rfl

theorem keyword?_bare (s : Section) {key : String} (h : key ∉ Attributes.rewritten) :
    s.bare.keyword? key = s.keyword? key := by
  rw [keyword?, keyword?, bare]
  cases s.raw with
  | obj fields =>
    exact Fields.lookup_filter (p := fun key => !Attributes.rewritten.contains key)
      (by simpa using h) fields
  | _ => rfl

end Section

namespace Attributes

/-- What is known of a schema without the keywords that its plain schema rewrites. -/
def bare (a : Attributes) : Attributes := { a with toSection := a.toSection.bare }

variable (a : Attributes) {key : String}

theorem keyword?_bare (h : key ∉ rewritten) : a.bare.keyword? key = a.keyword? key :=
  a.toSection.keyword?_bare h

theorem required_bare : a.bare.required = a.required := by
  rw [Section.required, Section.required, a.keyword?_bare (by decide)]

theorem filter_normalFields (children : List (Slot × Json)) :
    (a.normalFields children).filter (fun field => !rewritten.contains field.1) =
      a.keywords.filter fun field => !rewritten.contains field.1 := by
  have hset (key : String) (h : key ∈ rewritten) (v : Json) (fields : Fields) :
      (fields.set key v).filter (fun field => !rewritten.contains field.1) =
        fields.filter fun field => !rewritten.contains field.1 :=
    Fields.filter_set (p := fun key => !rewritten.contains key) (by simpa using h) v fields
  have htype : (a.withType a.keywords).filter (fun field => !rewritten.contains field.1) =
      a.keywords.filter fun field => !rewritten.contains field.1 := by
    rw [withType]
    split
    · rfl
    · exact hset "type" (by decide) _ _
  have hproperties : (withProperties children (a.withType a.keywords)).filter
      (fun field => !rewritten.contains field.1) =
        a.keywords.filter fun field => !rewritten.contains field.1 := by
    rw [withProperties_eq]
    split
    · exact htype
    · rw [hset "properties" (by decide), htype]
  rw [normalFields, withItems_eq]
  split
  · rw [hset "items" (by decide), hproperties]
  · split
    · rw [hset "items" (by decide), hproperties]
    · exact hproperties

end Attributes

theorem Widget.select_bare (a : Attributes) (count : Nat) : select a.bare count = select a count := by
  have htext : ofText a.bare = ofText a := by
    rw [ofText, ofText, a.keyword?_bare (by decide), a.keyword?_bare (by decide)]
  have hbase : ofBase a.bare = ofBase a := by
    rw [ofBase, ofBase, htext]
    rfl
  rw [select, select, a.keyword?_bare (by decide), a.keyword?_bare (by decide), hbase]
  rfl

namespace Reference

theorem ofAttributes_bare (data : Option Json) (a : Attributes) :
    ofAttributes data a.bare = ofAttributes data a := by
  rw [ofAttributes, ofAttributes, a.keyword?_bare (by decide)]

theorem refusal?_bare (a : Attributes) : refusal? a.bare = refusal? a := by
  rw [refusal?, refusal?, a.keyword?_bare (by decide)]

end Reference

namespace Derivation

variable (p : Tree.Place Attributes)

theorem enumItem?_map : enumItem? (p.map Attributes.bare) = (enumItem? p).map Attributes.bare := by
  have hitem : (p.map Attributes.bare).tree.at? .item =
      (p.tree.at? .item).map (Tree.map Attributes.bare) := Tree.at?_map _ _ _
  have hbase : p.label.bare.base = p.label.base := rfl
  rw [enumItem?, enumItem?, hitem, Tree.Place.label_map, hbase]
  by_cases harray : p.label.base = some .array
  · rw [if_pos harray, if_pos harray]
    cases p.tree.at? .item with
    | none => rfl
    | some item =>
      have henum : (item.map Attributes.bare).label.isEnum = item.label.isEnum := by
        rw [Tree.label_map]
        rfl
      dsimp only [Option.map_some]
      rw [henum, Tree.label_map]
      cases item.label.isEnum <;> rfl
  · rw [if_neg harray, if_neg harray]
    rfl

theorem seeded_map : seeded (p.map Attributes.bare) = seeded p := by
  have hrequired : isRequired (p.map Attributes.bare) = isRequired p := by
    have hname : p.label.bare.name? = p.label.name? := rfl
    rw [isRequired, isRequired, Tree.Place.parent?_map, Tree.Place.label_map, hname]
    cases p.parent? with
    | none => rfl
    | some parent =>
      cases p.label.name? with
      | none => rfl
      | some name =>
        dsimp only [Option.map_some]
        rw [Tree.Place.label_map, Attributes.required_bare]
  rw [seeded, seeded, hrequired]

theorem seats_map (t : Schema) : seats (t.map Attributes.bare) = seats t := by
  rw [seats, seats, Tree.properties_map, List.map_map]
  refine congrArg Seat.arrange (List.map_congr_left fun property _ => ?_)
  have hlabel : (property.2.map Attributes.bare).label = property.2.label.bare := Tree.label_map ..
  have hdeclaration : declaration property.1 property.2.label.bare =
      declaration property.1 property.2.label := by
    unfold declaration
    rw [Attributes.keyword?_bare _ (by decide), Attributes.keyword?_bare _ (by decide)]
  dsimp only [Function.comp]
  rw [hlabel, hdeclaration]

/-- What follows for a place does not depend on the keywords that the plain schema rewrites. -/
theorem derive_map (data : Option Json) :
    derive data (p.map Attributes.bare) = ((derive data p).1.bare, (derive data p).2) := by
  have hsome : ((enumItem? p).map Attributes.bare).isSome = (enumItem? p).isSome := by
    cases enumItem? p <;> rfl
  have hcount (a : Attributes) : (((enumItem? p).map Attributes.bare).getD a.bare).choices.length =
      ((enumItem? p).getD a).choices.length := by
    cases enumItem? p <;> rfl
  have hplaced (a : Attributes) : { a.bare with
      widget := Widget.select a.bare
        (((enumItem? p).map Attributes.bare).getD a.bare).choices.length
      seats := seats (p.tree.map Attributes.bare) } =
        Attributes.bare { a with
          widget := Widget.select a ((enumItem? p).getD a).choices.length
          seats := seats p.tree } := by
    rw [hcount, Widget.select_bare, seats_map]
    rfl
  have hlabel : { p.label.bare with
      isEnumArray := (enumItem? p).isSome
      evaluators := seeded p } =
        Attributes.bare { p.label with
          isEnumArray := (enumItem? p).isSome
          evaluators := seeded p } := rfl
  unfold derive
  dsimp only
  rw [enumItem?_map, seeded_map, Tree.Place.label_map, hsome, hlabel, Reference.ofAttributes_bare]
  cases Reference.ofAttributes data { p.label with
    isEnumArray := (enumItem? p).isSome
    evaluators := seeded p } with
  | error cause => rfl
  | ok picked =>
    exact congrArg (·, none) (hplaced { p.label with
      isEnumArray := (enumItem? p).isSome
      evaluators := seeded p
      reference := picked.map (·.1)
      candidates := (picked.map (·.2)).getD [] })

end Derivation

namespace Wiring

variable (root : Schema) (p : Tree.Place Attributes)

theorem target_map (keyword : Keyword) (pointer : String) :
    target (root.map Attributes.bare) (p.map Attributes.bare) keyword pointer =
      target root p keyword pointer := by
  have hresolved := (Tree.projection_map Attributes.bare root).resolveText
    (a := p.container) trivial pointer
  rw [target, target, Tree.Place.container_map, ← hresolved]
  cases Pointer.resolveText root.navigation p.container pointer with
  | error e => rfl
  | ok found =>
    cases found with
    | none => rfl
    | some q =>
      change Except.ok (q.map Attributes.bare).label.path = _
      rw [Tree.Place.label_map]
      rfl

/-- The evaluators of a place do not depend on the keywords that the plain schema rewrites. -/
theorem ofPlace_map :
    ofPlace (root.map Attributes.bare) (p.map Attributes.bare) = ofPlace root p := by
  have hinstall (keyword : Keyword) (raw : Json) :
      install (root.map Attributes.bare) (p.map Attributes.bare) keyword raw =
        install root p keyword raw := by
    have htarget (keyword : Keyword) :
        target (root.map Attributes.bare) (p.map Attributes.bare) keyword =
          target root p keyword := funext (target_map root p keyword)
    unfold install targetsOf
    rw [htarget]
  have hkeyword (keyword : Keyword) : (p.map Attributes.bare).label.keyword? keyword.name =
      p.label.keyword? keyword.name := by
    rw [Tree.Place.label_map, Attributes.keyword?_bare]
    cases keyword <;> decide
  have main (keywords : List Keyword) :
      ofKeywords (root.map Attributes.bare) (p.map Attributes.bare) keywords =
        ofKeywords root p keywords := by
    induction keywords with
    | nil => rfl
    | cons keyword keywords ih =>
      rw [ofKeywords, ofKeywords, hkeyword, ih]
      cases p.label.keyword? keyword.name with
      | none => rfl
      | some raw =>
        dsimp only
        rw [hinstall]
  exact main Keyword.all

/-- What is read does not depend on the keywords that the plain schema rewrites. -/
theorem wire_map :
    wire (root.map Attributes.bare) = ((wire root).1.map Attributes.bare, (wire root).2) := by
  have hwired : ((root.map Attributes.bare).extend fun p =>
        (p.label, ofPlace (root.map Attributes.bare) p)) =
      (root.extend fun p => (p.label, ofPlace root p)).map fun wired => (wired.1.bare, wired.2) := by
    rw [Tree.extend_map, Tree.map_extend]
    refine congrArg (Tree.extend · root) (funext fun p => ?_)
    rw [ofPlace_map, Tree.Place.label_map]
  unfold wire
  dsimp only
  rw [hwired, Tree.labels_map, List.flatMap_map, List.filterMap_map, Tree.map_map, Tree.map_map]
  rfl

end Wiring

namespace Outline

variable {path : List Slot} {raw : Json}

/-- Without the keywords that it rewrites a plain schema is the schema that it comes from. -/
theorem Valid.bare_normal (h : Valid (build path raw)) (distinct : raw.keysDistinct = true) :
    (build path (Outline.normal (build path raw))).label.bare = (build path raw).label.bare := by
  obtain ⟨fields, rfl⟩ := h.exists_fields
  rw [label_normal, (h.parts_normal distinct).2, Section.bare_obj, plain_build,
    Attributes.filter_normalFields, keywords_build, label_build]
  rfl

theorem Valid.problems {o : Tree Section} (h : Valid o) :
    Outline.problems o = [] ∧
      (Compilation.typings o).labels.filterMap (fun typed => typed.2.problem) = [] := by
  refine ⟨problems_eq_nil_iff.2 fun s hs => ⟨(h s hs).own, (h s hs).items⟩, ?_⟩
  rw [Compilation.typings, Tree.labels_map, List.filterMap_map]
  exact List.filterMap_eq_nil_iff.2 fun s hs => (h s hs).typing

end Outline

/-- What is known of a schema besides its keywords. -/
def Attributes.known (a : Attributes) : Attributes := { a with raw := .null }

namespace Compilation

section Stages

variable {settings : Settings} {cache : Enumeration.Cache} {raw : Json} {data : Option Json}
  {inlined : Json} {inlining : List Problem}

theorem derive_map (data : Option Json) (typed : Schema) :
    derive data (typed.map Attributes.bare) =
      (derive data typed).map fun out => (out.1.map Attributes.bare, out.2) := by
  have hrefusal : (typed.map Attributes.bare).labels.findSome? Reference.refusal? =
      typed.labels.findSome? Reference.refusal? := by
    rw [Tree.labels_map, List.findSome?_map]
    exact congrArg (List.findSome? · _) (funext Reference.refusal?_bare)
  have hderived : (typed.map Attributes.bare).extend (Derivation.derive data) =
      (typed.extend (Derivation.derive data)).map fun out => (out.1.bare, out.2) := by
    rw [Tree.extend_map, Tree.map_extend]
    exact congrArg (Tree.extend · typed) (funext fun p => Derivation.derive_map p data)
  unfold derive
  rw [hrefusal]
  cases typed.labels.findSome? Reference.refusal? with
  | some e => rfl
  | none =>
    dsimp only
    rw [hderived, Tree.map_map, Tree.labels_map, List.filterMap_map]
    change _ = Except.ok (((typed.extend (Derivation.derive data)).map (·.1)).map _, _)
    rw [Tree.map_map]
    rfl

/-- The schema that follows from an outline. -/
def typed (settings : Settings) (cache : Enumeration.Cache) (outline : Tree Section) : Schema :=
  outline.map fun s => (Typing.ofSection s).attributes (settings.sources.choices? cache) s

/-- What a compilation makes of a derived schema. -/
def wired (settings : Settings) (outline : Tree Section) (inlining : List Problem)
    (derived : Schema × List Problem) : Compiled where
  schema := (Wiring.wire derived.1).1
  problems := inlining ++ Outline.problems outline ++
    (typings outline).labels.filterMap (fun typed => typed.2.problem) ++ derived.2 ++
      (Wiring.wire derived.1).2
  userData := settings.userData

/-- Without a host nothing is asked for. -/
theorem compile_eq_of_inline (host : settings.sources.host = none)
    (inline_eq : Definitions.inline settings.dialect raw = .ok (inlined, inlining)) :
    compile settings cache raw data =
      ((derive data (typed settings cache (Outline.ofJson inlined))).map
        (wired settings (Outline.ofJson inlined) inlining), cache) := by
  have hask (names : List String) : names.foldl settings.sources.ask cache = cache := by
    induction names with
    | nil => rfl
    | cons name names ih =>
      have hname : settings.sources.ask cache name = cache := by
        rw [Enumeration.Sources.ask, host]
        cases settings.sources.choices? cache name <;> rfl
      rw [List.foldl_cons, hname, ih]
  have htyped : ((typings (Outline.ofJson inlined)).map fun typed =>
      typed.2.attributes (settings.sources.choices? cache) typed.1) =
        typed settings cache (Outline.ofJson inlined) := Tree.map_map _ _ _
  rw [compile, inline_eq]
  dsimp only
  rw [hask, htyped]
  cases derive data (typed settings cache (Outline.ofJson inlined)) <;> rfl

theorem typed_normal (settings : Settings) (cache : Enumeration.Cache)
    (h : Outline.Valid (Outline.ofJson inlined)) (distinct : inlined.keysDistinct = true) :
    (typed settings cache (Outline.ofJson (Outline.normal (Outline.ofJson inlined)))).map
        Attributes.bare =
      (typed settings cache (Outline.ofJson inlined)).map Attributes.bare := by
  have hbare (t : Typing) (s : Section) :
      (t.attributes (settings.sources.choices? cache) s).bare =
        t.attributes (settings.sources.choices? cache) s.bare := rfl
  rw [typed, typed, Tree.map_map, Tree.map_map]
  refine h.map_normal distinct fun path raw h distinct => ?_
  rw [h.ofSection_normal, hbare, hbare, h.bare_normal distinct]

/-- Schemas that are the same without the keywords that plain schemas rewrite are wired alike. -/
theorem wire_eq_of_bare {derived derived' : Schema}
    (h : derived'.map Attributes.bare = derived.map Attributes.bare) :
    (Wiring.wire derived').1.map Attributes.known = (Wiring.wire derived).1.map Attributes.known ∧
      (Wiring.wire derived').2 = (Wiring.wire derived).2 := by
  have hwire := congrArg Wiring.wire h
  rw [Wiring.wire_map, Wiring.wire_map] at hwire
  obtain ⟨hschema, hproblems⟩ := Prod.mk.inj hwire
  have hknown := congrArg (Tree.map Attributes.known) hschema
  rw [Tree.map_map, Tree.map_map] at hknown
  exact ⟨hknown, hproblems⟩

/-- What follows from the outline of the plain schema differs at most in the keywords that the plain
schema rewrites. -/
theorem exists_derived_normal (h : Outline.Valid (Outline.ofJson inlined))
    (distinct : inlined.keysDistinct = true) {derived : Schema} {derivation : List Problem}
    (derive_eq : derive data (typed settings cache (Outline.ofJson inlined)) =
      .ok (derived, derivation)) :
    ∃ derived', derive data (typed settings cache
        (Outline.ofJson (Outline.normal (Outline.ofJson inlined)))) = .ok (derived', derivation) ∧
      derived'.map Attributes.bare = derived.map Attributes.bare := by
  have hbare := congrArg (derive data) (typed_normal settings cache h distinct)
  rw [derive_map, derive_map, derive_eq] at hbare
  obtain ⟨⟨derived', derivation'⟩, hderive, hmap⟩ := map_eq_ok.1 hbare
  obtain ⟨hderived, rfl⟩ := Prod.mk.inj hmap
  exact ⟨derived', hderive, hderived⟩

/-- A valid outline is drawn of an object, of which no reference is left. -/
theorem isInlined_of_valid {dialect : Dialect} (distinct : raw.keysDistinct = true)
    (inline_eq : Definitions.inline dialect raw = .ok (inlined, inlining))
    (h : Outline.Valid (Outline.ofJson inlined)) : Definitions.IsInlined dialect inlined := by
  cases raw with
  | obj fields => exact Definitions.isInlined_inline distinct inline_eq
  | _ =>
    obtain rfl := (Prod.mk.inj (Except.ok.inj inline_eq)).1
    obtain ⟨fields, hfields⟩ := h.exists_fields
    cases hfields

end Stages

/-! Tags, of which no schema names a type.  The first variant refers to a definition, and both
variants have a keyword of the items. -/

namespace Tags

def definition : Json := .obj [("maxLength", .ofNat 9)]

def reference : Json := .obj [("$ref", .str "#/definitions/tag")]

def fixed : Json := .obj [("const", .str "none")]

def items (first : Json) : Json := .obj [("minLength", .ofNat 2), ("oneOf", .arr [first, fixed])]

def raw : Json :=
  .obj [("definitions", .obj [("tag", definition)]), ("items", items reference)]

def inlined : Json := .obj [("items", items definition)]

def first : Json := .obj [("minLength", .ofNat 2), ("maxLength", .ofNat 9)]

def second : Json := .obj [("minLength", .ofNat 2), ("const", .str "none")]

def schema : Schema :=
  .node { typedAs .array ⟨[], inlined, true⟩ with widget := "variant-array" }
    [(.variant 0, .node { typedAs .string ⟨[.variant 0], first, false⟩ with
        widget := "string" } []),
      (.variant 1, .node { typedAs .string ⟨[.variant 1], second, false⟩ with
        widget := "const" } [])]

def plain : Json :=
  .obj [("items", .obj [("oneOf", .arr [
      .obj [("minLength", .ofNat 2), ("maxLength", .ofNat 9), ("type", .str "string")],
      .obj [("minLength", .ofNat 2), ("const", .str "none"), ("type", .str "string")]])]),
    ("type", .str "array")]

theorem run_eq : run {} raw none = .ok ⟨schema, [], .null⟩ := by
  have inline_eq : Definitions.inline .draft7 raw = .ok (inlined, []) := by cbv
  have derive_eq : derive none (schema.map underived) = .ok (schema, []) := by cbv
  have wire_eq : Wiring.wire schema = (schema, []) := by cbv
  exact run_eq_of_derived inline_eq (by cbv) (by decide +kernel) rfl derive_eq wire_eq (by cbv)

theorem normal_eq : schema.normal = plain := rfl

theorem compile_snd : (compile {} {} raw none).2 = {} := by
  have inline_eq : Definitions.inline ({} : Settings).dialect raw = .ok (inlined, []) := by cbv
  exact congrArg Prod.snd (compile_eq_of_inline rfl inline_eq)

end Tags

/-- The plain schema of a schema that compiles without problems compiles to the same schema, and has
itself for its plain schema. -/
theorem compile_normal {settings : Settings} {cache : Enumeration.Cache} {raw : Json}
    {data : Option Json} {c : Compiled} (distinct : raw.keysDistinct = true)
    (host : settings.sources.host = none)
    (compiled : (compile settings cache raw data).1 = .ok c) (valid : c.problems = []) :
    ∃ c', (compile settings (compile settings cache raw data).2 c.schema.normal data).1 = .ok c' ∧
      c'.problems = [] ∧ c'.schema.map Attributes.known = c.schema.map Attributes.known ∧
        c'.schema.normal = c.schema.normal := by
  obtain ⟨inlined, offer, derived, stages, hinline, hvalid⟩ := exists_valid compiled valid
  have hdistinct : inlined.keysDistinct = true := Definitions.keysDistinct_inline distinct hinline
  have hinline' := (Outline.isInlined_normal (isInlined_of_valid distinct hinline hvalid)).inline
  have hvalid' : Outline.Valid (Outline.ofJson (Outline.normal (Outline.ofJson inlined))) :=
    hvalid.normal hdistinct
  have hnormal := stages.normal_eq
  rw [compile_eq_of_inline host hinline] at compiled ⊢
  obtain ⟨⟨derived, derivation⟩, hderive, rfl⟩ := map_eq_ok.1 compiled
  simp only [wired, List.append_eq_nil_iff] at valid
  obtain ⟨⟨-, rfl⟩, hwiring⟩ := valid
  obtain ⟨derived', hderive', hbare⟩ := exists_derived_normal hvalid hdistinct hderive
  obtain ⟨hschema, hwires⟩ := wire_eq_of_bare hbare
  rw [hnormal]
  have hcompiled : (compile settings cache (Outline.normal (Outline.ofJson inlined)) data).1 =
      .ok (wired settings (Outline.ofJson (Outline.normal (Outline.ofJson inlined))) []
        (derived', [])) := by
    rw [compile_eq_of_inline host hinline']
    exact map_eq_ok.2 ⟨_, hderive', rfl⟩
  have hproblems : (wired settings (Outline.ofJson (Outline.normal (Outline.ofJson inlined))) []
      (derived', [])).problems = [] := by
    simp only [wired, hvalid'.problems.1, hvalid'.problems.2, hwires, hwiring, List.append_nil]
  refine ⟨_, hcompiled, hproblems, hschema, ?_⟩
  -- The plain schema is its own outline's schema, whatever has been wired.
  obtain ⟨inlined', _, _, stages', hinlined', -⟩ := exists_valid hcompiled hproblems
  obtain rfl := (Prod.mk.inj (Except.ok.inj (hinlined'.symm.trans hinline'))).1
  rw [stages'.normal_eq]
  exact hvalid.normal_normal hdistinct

theorem compile_normal_tags :
    ∃ c, run {} Tags.plain none = .ok c ∧ c.problems = [] ∧
      c.schema.map Attributes.known = Tags.schema.map Attributes.known ∧
        c.schema.normal = Tags.plain := by
  have hcompiled := compile_normal (by decide) rfl Tags.run_eq rfl
  rwa [Tags.compile_snd, Tags.normal_eq] at hcompiled

end Compilation

end FormSchema
