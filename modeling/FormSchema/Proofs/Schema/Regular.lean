import FormSchema.Schema.Compilation
import FormSchema.Proofs.Schema.Inlining
import FormSchema.Proofs.Schema.Path
import FormSchema.Proofs.Schema.Typing

/-!
The shape of a compiled schema.  Every label knows the path to it, no slot stands twice, and a
schema that has properties, items or variants admits only objects or only arrays, so that a schema
never has properties and items together.
-/

namespace FormSchema

namespace Slot

/-- The kind of the values whose parts a slot describes. -/
def holder : Slot → Kind
  | .property _ => .object
  | .item | .variant _ => .array

/-- The keyword that the schema in a slot is declared under. -/
def keyword : Slot → String
  | .property _ => "properties"
  | .item | .variant _ => "items"

/-- The keyword belongs to the family that applies to the kind. -/
theorem exists_family (slot : Slot) :
    ∃ names, (slot.holder, names) ∈ Inference.families ∧ slot.keyword ∈ names ∧
      slot.holder ≠ .number := by
  cases slot with
  | property name => exact ⟨_, .tail _ (.tail _ (.tail _ (.head _))), .tail _ (.head _), nofun⟩
  | item => exact ⟨_, .tail _ (.tail _ (.head _)), .head _, nofun⟩
  | variant i => exact ⟨_, .tail _ (.tail _ (.head _)), .head _, nofun⟩

end Slot

namespace Outline

theorem children_build (path : List Slot) (raw : Json) :
    (build path raw).children =
      (parts raw).map fun part => (part.1, build (path ++ [part.1]) part.2) := by
  rw [build, Tree.children]
  exact List.attach_map_val (f := fun part : Slot × Json => (part.1, build (path ++ [part.1]) part.2))

theorem label_build (path : List Slot) (raw : Json) :
    (build path raw).label = ⟨path, keywords raw, isMixed raw⟩ := by
  rw [build, Tree.label]

theorem slots_build (path : List Slot) (raw : Json) :
    (build path raw).slots = (parts raw).map (·.1) := by
  rw [Tree.slots, children_build, List.map_map]
  rfl

theorem keysDistinct_variantSchema {items : Fields} {variant : Json}
    (hitems : (Json.obj items).keysDistinct = true) (h : variant.keysDistinct = true) :
    (variantSchema items variant).keysDistinct = true := by
  cases variant with
  | obj fields =>
    exact Fields.keysDistinct_overlay (Fields.keysDistinct_erase _ hitems)
      (Fields.keysDistinct_iff.1 h).2
  | _ => exact h

theorem keysDistinct_of_field? {raw value : Json} {key : String} (h : raw.keysDistinct = true)
    (hv : raw.field? key = some value) : value.keysDistinct = true := by
  cases raw with
  | obj fields => exact Fields.keysDistinct_of_lookup h hv
  | _ => simp [Json.field?] at hv

theorem keysDistinct_of_mem_parts {raw : Json} {part : Slot × Json} (h : raw.keysDistinct = true)
    (hpart : part ∈ parts raw) : part.2.keysDistinct = true := by
  rcases List.mem_append.1 hpart with hpart | hpart
  · unfold propertyParts at hpart
    split at hpart
    · rename_i properties hproperties
      obtain ⟨field, hfield, rfl⟩ := List.mem_map.1 hpart
      exact (Fields.keysDistinct_iff.1 (keysDistinct_of_field? h hproperties)).2 field hfield
    · simp at hpart
  · unfold itemParts at hpart
    split at hpart
    · rename_i items hitems
      have hitems := keysDistinct_of_field? h hitems
      split at hpart
      · rename_i variants hvariants
        obtain ⟨i, hi, rfl⟩ := List.mem_mapIdx.1 hpart
        unfold variants? at hvariants
        split at hvariants
        · rename_i all hall
          obtain rfl := Option.some.inj hvariants
          have := Fields.keysDistinct_of_lookup hitems hall
          rw [Json.keysDistinct, Json.itemsKeysDistinct_iff] at this
          simp only [List.getElem_map]
          exact keysDistinct_variantSchema hitems (this _ (List.getElem_mem _))
        · simp at hvariants
      · obtain rfl := List.mem_singleton.1 hpart
        exact hitems
    · obtain rfl := List.mem_singleton.1 hpart
      rfl
    · simp at hpart

/-- The schemas below an outline are the outlines of other schemas. -/
theorem exists_of_sub?_build {path more : List Slot} {raw : Json} {o : Tree Section}
    (hraw : raw.keysDistinct = true) (h : (build path raw).sub? more = some o) :
    ∃ raw', raw'.keysDistinct = true ∧ o = build (path ++ more) raw' := by
  induction more generalizing path raw with
  | nil => exact ⟨raw, hraw, by simpa using (Option.some.inj h).symm⟩
  | cons slot more ih =>
    obtain ⟨child, hchild, h⟩ := Option.bind_eq_some_iff.1 h
    have hmem := Key.mem_of_lookup hchild
    rw [children_build, List.mem_map] at hmem
    obtain ⟨part, hpart, heq⟩ := hmem
    obtain ⟨rfl, rfl⟩ := Prod.mk.inj heq
    obtain ⟨raw', hraw', rfl⟩ := ih (keysDistinct_of_mem_parts hraw hpart) h
    exact ⟨raw', hraw', by rw [List.append_assoc]; rfl⟩

theorem has_of_field? {raw value : Json} {key : String} (h : raw.field? key = some value) :
    ∃ fields : Fields, raw = .obj fields ∧ fields.has key = true := by
  cases raw with
  | obj fields =>
    refine ⟨fields, rfl, ?_⟩
    rw [Fields.has, show fields.lookup key = some value from h]
    rfl
  | _ => simp [Json.field?] at h

/-- A schema that has a slot also has the keyword that declares it. -/
theorem has_keyword_of_mem_parts {raw : Json} {part : Slot × Json} (h : part ∈ parts raw) :
    ∃ fields : Fields, raw = .obj fields ∧ fields.has part.1.keyword = true := by
  rcases List.mem_append.1 h with h | h
  · unfold propertyParts at h
    split at h
    · rename_i properties hproperties
      obtain ⟨field, -, rfl⟩ := List.mem_map.1 h
      exact has_of_field? hproperties
    · simp at h
  · unfold itemParts at h
    split at h
    · rename_i items hitems
      split at h
      · obtain ⟨i, hi, rfl⟩ := List.mem_mapIdx.1 h
        exact has_of_field? hitems
      · obtain rfl := List.mem_singleton.1 h
        exact has_of_field? hitems
    · rename_i hitems
      obtain rfl := List.mem_singleton.1 h
      exact has_of_field? hitems
    · simp at h

theorem has_items_of_isMixed {raw : Json} (h : isMixed raw = true) :
    ∃ fields : Fields, raw = .obj fields ∧ fields.has "items" = true := by
  unfold isMixed at h
  split at h
  · rename_i items hitems
    exact has_of_field? hitems
  · simp at h

theorem propertyParts_property {raw : Json} {part : Slot × Json} (h : part ∈ propertyParts raw) :
    ∃ name, part.1 = .property name := by
  unfold propertyParts at h
  split at h
  · obtain ⟨field, -, rfl⟩ := List.mem_map.1 h
    exact ⟨field.1, rfl⟩
  · simp at h

/-- The slots for items are one slot for all of them, or variants and nothing else. -/
theorem slots_itemParts (raw : Json) :
    (itemParts raw).map (·.1) = [] ∨
      (itemParts raw).map (·.1) = [.item] ∧ isMixed raw = false ∨
        ∃ n, (itemParts raw).map (·.1) = (List.range n).map .variant ∧ isMixed raw = true := by
  unfold itemParts isMixed
  cases hitems : raw.field? "items" with
  | none => exact .inl rfl
  | some value =>
    cases value with
    | obj items =>
      cases hvariants : variants? items with
      | none => simp [hvariants]
      | some variants =>
        refine .inr (.inr ⟨variants.length, ?_, by simp [hvariants]⟩)
        simp only [hvariants]
        refine List.ext_getElem (by simp) fun i h₁ h₂ => ?_
        simp
    | bool b => cases b <;> simp
    | _ => exact .inl rfl

theorem nodup_slots_parts {raw : Json} (h : raw.keysDistinct = true) :
    ((parts raw).map (·.1)).Nodup := by
  rw [parts, List.map_append]
  refine List.nodup_append'.2 ⟨?_, ?_, ?_⟩
  · unfold propertyParts
    split
    · rename_i properties hproperties
      have := (Fields.keysDistinct_iff.1 (keysDistinct_of_field? h hproperties)).1
      have names : (properties.map fun field => (Slot.property field.1, field.2)).map (·.1) =
          (properties.map (·.1)).map Slot.property := by simp
      rw [names]
      exact this.map fun a b hab => Slot.property.inj hab
    · simp
  · rcases slots_itemParts raw with hslots | ⟨hslots, -⟩ | ⟨n, hslots, -⟩
    · simp [hslots]
    · simp [hslots]
    · rw [hslots]
      exact List.nodup_range.map fun a b hab => Slot.variant.inj hab
  · intro slot hproperty hitem
    obtain ⟨part, hpart, rfl⟩ := List.mem_map.1 hproperty
    obtain ⟨name, hname⟩ := propertyParts_property hpart
    rw [hname] at hitem
    rcases slots_itemParts raw with hslots | ⟨hslots, -⟩ | ⟨n, hslots, -⟩
    · simp [hslots] at hitem
    · simp [hslots] at hitem
    · simp [hslots] at hitem

end Outline

namespace Derivation

/-- What a place derives leaves its section and its base type alone, and its evaluators are
constants as yet. -/
theorem derive_label (data : Option Json) (p : Tree.Place Attributes) :
    (derive data p).1.toSection = p.label.toSection ∧ (derive data p).1.base = p.label.base ∧
      ∀ seed ∈ (derive data p).1.evaluators, ∃ flavor value, seed.2 = .constant flavor value := by
  have seeds : ∀ seed ∈ seeded p, ∃ flavor value, seed.2 = .constant flavor value := by
    unfold seeded
    split
    · simp
    · simp
  unfold derive
  dsimp only
  split
  · exact ⟨rfl, rfl, seeds⟩
  · exact ⟨rfl, rfl, seeds⟩

end Derivation

namespace Compilation

/-- The trees that a compilation goes through: `inlined` is the schema without its references, and
`offer` knows the choices that have a name. -/
structure Stages (settings : Settings) (raw : Json) (data : Option Json) (inlined : Json)
    (offer : String → Option (List Choice)) (derived : Schema) (c : Compiled) : Prop where
  inline_eq : ∃ problems, Definitions.inline settings.dialect raw = .ok (inlined, problems)
  derived_eq :
    derived =
      ((((typings (Outline.ofJson inlined)).map fun typed =>
        typed.2.attributes offer typed.1).extend (Derivation.derive data)).map (·.1) : Schema)
  schema_eq : c.schema = (Wiring.wire derived).1

/-- The trees that a compilation without problems goes through. -/
structure Passes (settings : Settings) (raw : Json) (data : Option Json) (inlined : Json)
    (offer : String → Option (List Choice)) (derived : Schema) (c : Compiled) : Prop
    extends Stages settings raw data inlined offer derived c where
  typing : ∀ typed ∈ (typings (Outline.ofJson inlined)).labels, typed.2.problem = none
  wiring : (Wiring.wire derived).2 = []

variable {settings : Settings} {cache : Enumeration.Cache} {raw : Json} {data : Option Json}
  {inlined : Json} {offer : String → Option (List Choice)} {derived : Schema} {c : Compiled}

/-- What it means that a compilation has a result. -/
theorem compile_eq_ok (h : (compile settings cache raw data).1 = .ok c) :
    ∃ inlined inlining offer derived derivation,
      Definitions.inline settings.dialect raw = .ok (inlined, inlining) ∧
      derive data ((typings (Outline.ofJson inlined)).map fun typed =>
        typed.2.attributes offer typed.1) = .ok (derived, derivation) ∧
      c = { schema := (Wiring.wire derived).1
            problems := inlining ++ Outline.problems (Outline.ofJson inlined) ++
              ((typings (Outline.ofJson inlined)).labels.filterMap fun typed => typed.2.problem) ++
              derivation ++ (Wiring.wire derived).2
            userData := settings.userData } := by
  rw [compile] at h
  cases hinline : Definitions.inline settings.dialect raw with
  | error e =>
    rw [hinline] at h
    cases h
  | ok out =>
    obtain ⟨inlined, inlining⟩ := out
    rw [hinline] at h
    dsimp only at h
    obtain ⟨⟨derived, derivation⟩, hderive, h⟩ := bind_eq_ok.1 h
    exact ⟨inlined, inlining, _, derived, derivation, rfl, hderive, (Except.ok.inj h).symm⟩

theorem derive_eq_ok {typed : Schema} {derivation : List Problem}
    (h : derive data typed = .ok (derived, derivation)) :
    derived = (typed.extend (Derivation.derive data)).map (·.1) := by
  unfold derive at h
  split at h
  · cases h
  · exact (Prod.mk.inj (Except.ok.inj h)).1.symm

theorem exists_stages (h : (compile settings cache raw data).1 = .ok c) :
    ∃ inlined offer derived, Stages settings raw data inlined offer derived c := by
  obtain ⟨inlined, inlining, offer, derived, derivation, hinline, hderive, rfl⟩ := compile_eq_ok h
  exact ⟨inlined, offer, derived, ⟨inlining, hinline⟩, derive_eq_ok hderive, rfl⟩

theorem exists_passes (h : (compile settings cache raw data).1 = .ok c) (valid : c.problems = []) :
    ∃ inlined offer derived, Passes settings raw data inlined offer derived c := by
  obtain ⟨inlined, inlining, offer, derived, derivation, hinline, hderive, rfl⟩ := compile_eq_ok h
  simp only [List.append_eq_nil_iff] at valid
  obtain ⟨⟨-, htyping⟩, -⟩ := valid.1
  exact ⟨inlined, offer, derived, ⟨⟨inlining, hinline⟩, derive_eq_ok hderive, rfl⟩,
    fun typed htyped => List.filterMap_eq_nil_iff.1 htyping typed htyped, valid.2⟩

namespace Stages

/-- The section that a derived schema comes from. -/
theorem exists_section (h : Stages settings raw data inlined offer derived c) {path : List Slot}
    {u : Schema} (hu : derived.sub? path = some u) :
    ∃ o, (Outline.ofJson inlined).sub? path = some o ∧ u.slots = o.slots ∧
      u.label.toSection = o.label ∧ u.label.base = (Typing.ofSection o.label).base ∧
        ∀ seed ∈ u.label.evaluators, ∃ flavor value, seed.2 = .constant flavor value := by
  rw [h.derived_eq] at hu
  obtain ⟨u₁, hu₁, hlabel₁, hslots₁⟩ := Tree.exists_of_sub?_map hu
  obtain ⟨p, hp, rfl⟩ := Tree.exists_of_sub?_extend hu₁
  have hu₂ : ((typings (Outline.ofJson inlined)).map fun typed =>
      typed.2.attributes offer typed.1).sub? path = some p.tree := by
    rw [Tree.sub?_eq, hp]
    rfl
  obtain ⟨u₃, hu₃, hlabel₃, hslots₃⟩ := Tree.exists_of_sub?_map hu₂
  obtain ⟨o, ho, hlabel, hslots⟩ := Tree.exists_of_sub?_map hu₃
  obtain ⟨hsection, hbase, hseeds⟩ := Derivation.derive_label data p
  have hplabel : p.label = (Typing.ofSection o.label).attributes offer o.label := by
    rw [Tree.Place.label, hlabel₃, hlabel]
  refine ⟨o, ho, ?_, ?_, ?_, ?_⟩
  · rw [hslots₁, Tree.slots_extendAt, hslots₃, hslots]
  · rw [hlabel₁, Tree.label_extendAt, hsection, hplabel]
    rfl
  · rw [hlabel₁, Tree.label_extendAt, hbase, hplabel]
    rfl
  · rw [hlabel₁, Tree.label_extendAt]
    exact hseeds

/-- The label that a derived schema has once its expressions are known. -/
def wiredLabel (derived : Schema) (p : Tree.Place Attributes) : Attributes :=
  { p.label with
    evaluators := (Wiring.ofPlace derived p).evaluators ++ p.label.evaluators
    observers := Wiring.observers ((derived.extend fun p =>
      (p.label, Wiring.ofPlace derived p)).labels.flatMap fun label =>
        Wiring.edges label.1 label.2) p.label.path }

/-- The derived schema that a wired schema comes from. -/
theorem exists_place (h : Stages settings raw data inlined offer derived c) {path : List Slot}
    {u : Schema} (hu : c.schema.sub? path = some u) :
    ∃ p, derived.place? path = some p ∧ u.slots = p.tree.slots ∧
      u.label = wiredLabel derived p := by
  rw [h.schema_eq] at hu
  dsimp only [Wiring.wire] at hu
  obtain ⟨v, hv, hlabel, hslots⟩ := Tree.exists_of_sub?_map hu
  obtain ⟨p, hp, rfl⟩ := Tree.exists_of_sub?_extend hv
  refine ⟨p, hp, by rw [hslots, Tree.slots_extendAt], ?_⟩
  rw [hlabel, Tree.label_extendAt]
  rfl

theorem exists_wired (h : Stages settings raw data inlined offer derived c) {path : List Slot}
    {p : Tree.Place Attributes} (hp : derived.place? path = some p) :
    ∃ u, c.schema.sub? path = some u := by
  rw [h.schema_eq]
  dsimp only [Wiring.wire]
  rw [Tree.map, Tree.sub?_extend]
  have hsub := Tree.sub?_extend (fun p => (p.label, Wiring.ofPlace derived p)) derived path
  rw [hp, Option.map_some] at hsub
  obtain ⟨q, hq, -⟩ := Tree.exists_place_of_sub? hsub
  exact ⟨_, by rw [hq]; rfl⟩

end Stages

/-- The sections of a compilation without problems have typings without problems. -/
theorem Passes.problem_eq_none (h : Passes settings raw data inlined offer derived c)
    {path : List Slot} {o : Tree Section} (ho : (Outline.ofJson inlined).sub? path = some o) :
    (Typing.ofSection o.label).problem = none := by
  obtain ⟨q, hq, rfl⟩ := Tree.exists_place_of_sub? ho
  have hmem : (q.label, Typing.ofSection q.label) ∈ (typings (Outline.ofJson inlined)).labels := by
    rw [typings, Tree.map, Tree.labels_extend]
    exact List.mem_map.2 ⟨q, Tree.mem_places_of_place? hq, rfl⟩
  exact h.typing _ hmem

end Compilation

/-- What holds of every schema of a compiled schema, whatever problems there are. -/
structure Schema.Formed (u : Schema) : Prop where
  nodup : u.slots.Nodup
  base : u.label.mixed = true → ∀ base, u.label.base = some base → base = .array
  item : .item ∈ u.slots → u.label.mixed = false
  variant : ∀ i, .variant i ∈ u.slots → u.label.mixed = true

/-- Whether a schema has the shape of a compiled one. -/
structure Schema.Shaped (schema : Schema) : Prop where
  labelled : schema.Labelled fun label => label.path
  formed : ∀ {path u}, schema.sub? path = some u → Schema.Formed u
  raw : ∀ {path u}, schema.sub? path = some u → u.label.raw.keysDistinct = true

/-- What holds of every schema of a schema compiled without problems. -/
structure Schema.Orderly (u : Schema) : Prop where
  nodup : u.slots.Nodup
  base : ∀ slot ∈ u.slots, u.label.base = some slot.holder
  mixed : u.label.mixed = true → u.label.base = some .array
  item : .item ∈ u.slots → u.label.mixed = false
  variant : ∀ i, .variant i ∈ u.slots → u.label.mixed = true

/-- Whether a schema has the shape of one that is compiled without problems. -/
structure Schema.Regular (schema : Schema) : Prop where
  labelled : schema.Labelled fun label => label.path
  orderly : ∀ {path u}, schema.sub? path = some u → Schema.Orderly u
  raw : ∀ {path u}, schema.sub? path = some u → u.label.raw.keysDistinct = true

/-- An array whose items are told apart by variants fits its schema. -/
theorem Schema.Formed.compatible {u : Schema} (h : Schema.Formed u) (mixed : u.label.mixed = true) :
    u.label.compatible .array = true := by
  rw [Attributes.compatible]
  cases hbase : u.label.base with
  | none => rfl
  | some base =>
    rw [h.base mixed base hbase]
    rfl

theorem Schema.Regular.shaped {schema : Schema} (h : Schema.Regular schema) :
    Schema.Shaped schema where
  labelled := h.labelled
  formed hu := by
    obtain ⟨nodup, -, mixed, item, variant⟩ := h.orderly hu
    exact ⟨nodup, fun hm base hbase => Option.some.inj (hbase.symm.trans (mixed hm)), item, variant⟩
  raw := h.raw

theorem Schema.Shaped.slotsDistinct {schema u : Schema} (h : Schema.Shaped schema) {path : List Slot}
    (hu : schema.sub? path = some u) : u.SlotsDistinct := by
  intro more v hv
  have hsub : schema.sub? (path ++ more) = some v := by
    rw [Tree.sub?_append, hu]
    exact hv
  exact (h.formed hsub).nodup

namespace Outline

variable {path : List Slot} {raw : Json} {u : Schema}

theorem formed_build (h : raw.keysDistinct = true) (hslots : u.slots = (build path raw).slots)
    (hsection : u.label.toSection = (build path raw).label)
    (hbase : u.label.base = (Typing.ofSection (build path raw).label).base) : Schema.Formed u := by
  rw [label_build] at hsection hbase
  have hmixed : u.label.mixed = isMixed raw := congrArg Section.mixed hsection
  have items (slot : Slot) (hslot : slot ∈ u.slots) (hproperty : ∀ name, slot ≠ .property name) :
      slot ∈ (itemParts raw).map (·.1) := by
    rw [hslots, slots_build] at hslot
    obtain ⟨part, hpart, rfl⟩ := List.mem_map.1 hslot
    rcases List.mem_append.1 hpart with hpart | hpart
    · obtain ⟨name, hname⟩ := propertyParts_property hpart
      exact absurd hname (hproperty name)
    · exact List.mem_map_of_mem hpart
  refine ⟨?_, ?_, ?_, ?_⟩
  · rw [hslots, slots_build]
    exact nodup_slots_parts h
  · intro hm base heq
    obtain ⟨fields, rfl, hfield⟩ := has_items_of_isMixed (hmixed ▸ hm)
    obtain ⟨names, hfamily, hkeyword, hkind⟩ := Slot.item.exists_family
    rw [hbase] at heq
    exact Typing.eq_of_base heq rfl hfamily hkind hkeyword hfield
  · intro hitem
    have := items .item hitem (by simp)
    rw [hmixed]
    rcases slots_itemParts raw with hs | ⟨-, hm⟩ | ⟨n, hs, -⟩
    · simp [hs] at this
    · exact hm
    · simp [hs] at this
  · intro i hvariant
    have := items (.variant i) hvariant (by simp)
    rw [hmixed]
    rcases slots_itemParts raw with hs | ⟨hs, -⟩ | ⟨n, hs, hm⟩
    · simp [hs] at this
    · simp [hs] at this
    · exact hm

theorem orderly_build (h : raw.keysDistinct = true)
    (hproblem : (Typing.ofSection (build path raw).label).problem = none)
    (hslots : u.slots = (build path raw).slots) (hsection : u.label.toSection = (build path raw).label)
    (hbase : u.label.base = (Typing.ofSection (build path raw).label).base) :
    Schema.Orderly u := by
  obtain ⟨nodup, -, item, variant⟩ := formed_build h hslots hsection hbase
  rw [label_build] at hproblem hsection hbase
  have base {fields : Fields} (slot : Slot) (hraw : raw = .obj fields)
      (hfield : fields.has slot.keyword = true) : u.label.base = some slot.holder := by
    obtain ⟨names, hfamily, hkeyword, hkind⟩ := slot.exists_family
    rw [hbase]
    refine Typing.base_of_keyword hproblem ?_ hfamily hkind hkeyword hfield
    subst hraw
    rfl
  refine ⟨nodup, ?_, ?_, item, variant⟩
  · intro slot hslot
    rw [hslots, slots_build] at hslot
    obtain ⟨part, hpart, rfl⟩ := List.mem_map.1 hslot
    obtain ⟨fields, hraw, hfield⟩ := has_keyword_of_mem_parts hpart
    exact base part.1 hraw hfield
  · intro hm
    obtain ⟨fields, hraw, hfield⟩ := has_items_of_isMixed (congrArg Section.mixed hsection ▸ hm)
    exact base .item hraw hfield

end Outline

namespace Compilation

variable {settings : Settings} {raw : Json} {data : Option Json} {inlined : Json}
  {offer : String → Option (List Choice)} {derived : Schema} {c : Compiled}

theorem Stages.exists_outline (h : Stages settings raw data inlined offer derived c)
    (distinct : raw.keysDistinct = true) {path : List Slot} {o : Tree Section}
    (ho : (Outline.ofJson inlined).sub? path = some o) :
    ∃ raw', raw'.keysDistinct = true ∧ o = Outline.build path raw' := by
  obtain ⟨problems, hinline⟩ := h.inline_eq
  exact Outline.exists_of_sub?_build (Definitions.keysDistinct_inline distinct hinline) ho

/-- Derived schemas have the shape of compiled ones. -/
theorem Stages.shaped_derived (h : Stages settings raw data inlined offer derived c)
    (distinct : raw.keysDistinct = true) : Schema.Shaped derived := by
  refine ⟨fun path u hu => ?_, fun {path u} hu => ?_, fun {path u} hu => ?_⟩
  all_goals
    obtain ⟨o, ho, hslots, hsection, hbase, -⟩ := h.exists_section hu
    obtain ⟨raw', hraw', rfl⟩ := h.exists_outline distinct ho
  · change u.label.toSection.path = path
    rw [hsection, Outline.label_build]
  · exact Outline.formed_build hraw' hslots hsection hbase
  · rw [show u.label.raw = u.label.toSection.raw from rfl, hsection, Outline.label_build]
    cases raw' with
    | bool b => cases b <;> rfl
    | _ => exact hraw'

/-- A compiled schema has the shape of the derived one that it comes from. -/
theorem Stages.exists_derived (h : Stages settings raw data inlined offer derived c)
    {path : List Slot} {u : Schema} (hu : c.schema.sub? path = some u) :
    ∃ v, derived.sub? path = some v ∧ u.slots = v.slots ∧
      u.label.toSection = v.label.toSection ∧ u.label.base = v.label.base := by
  obtain ⟨p, hp, hslots, hlabel⟩ := h.exists_place hu
  exact ⟨p.tree, by rw [Tree.sub?_eq, hp]; rfl, hslots, by rw [hlabel]; rfl, by rw [hlabel]; rfl⟩

theorem Stages.shaped (h : Stages settings raw data inlined offer derived c)
    (distinct : raw.keysDistinct = true) : Schema.Shaped c.schema := by
  have hderived := h.shaped_derived distinct
  refine ⟨fun path u hu => ?_, fun {path u} hu => ?_, fun {path u} hu => ?_⟩
  all_goals obtain ⟨v, hv, hslots, hsection, hbase⟩ := h.exists_derived hu
  · change u.label.toSection.path = path
    rw [hsection]
    exact hderived.labelled path v hv
  · have hmixed : u.label.mixed = v.label.mixed := congrArg Section.mixed hsection
    obtain ⟨nodup, base, item, variant⟩ := hderived.formed hv
    refine ⟨?_, ?_, ?_, ?_⟩
    all_goals simp only [hslots, hbase, hmixed]
    · exact nodup
    · exact base
    · exact item
    · exact variant
  · rw [show u.label.raw = u.label.toSection.raw from rfl, hsection]
    exact hderived.raw hv

theorem Passes.regular (h : Passes settings raw data inlined offer derived c)
    (distinct : raw.keysDistinct = true) : Schema.Regular c.schema := by
  have hshaped := h.shaped distinct
  refine ⟨hshaped.labelled, fun {path u} hu => ?_, hshaped.raw⟩
  obtain ⟨v, hv, hslots, hsection, hbase⟩ := h.exists_derived hu
  obtain ⟨o, ho, hslots', hsection', hbase', -⟩ := h.exists_section hv
  have hproblem := h.problem_eq_none ho
  obtain ⟨raw', hraw', rfl⟩ := h.exists_outline distinct ho
  exact Outline.orderly_build hraw' hproblem (hslots.trans hslots') (hsection.trans hsection')
    (hbase.trans hbase')

/-- A compiled schema has its shape, whatever problems there are. -/
theorem shaped_of_compile {cache : Enumeration.Cache} (distinct : raw.keysDistinct = true)
    (h : (compile settings cache raw data).1 = .ok c) : Schema.Shaped c.schema := by
  obtain ⟨inlined, offer, derived, stages⟩ := exists_stages h
  exact stages.shaped distinct

end Compilation

end FormSchema
