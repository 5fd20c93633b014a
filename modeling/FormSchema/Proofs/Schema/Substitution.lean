import FormSchema.Proofs.Schema.Halting

/-!
Inlining is substitution.  An object with a reference becomes the definition, in which all references
have been replaced, with the keywords beside the reference on top, in which they have been replaced
as well.  This is what comes out as long as nothing that stands beside a reference leads back to
where the reference leads; otherwise the circle that is reported is none.
-/

namespace FormSchema

namespace Fields

variable {fields layer : Fields} {key : String} {v w : Json}

theorem mapValues_congr {out out' : String × Json → Json}
    (h : ∀ field ∈ fields, out field = out' field) :
    mapValues out fields = mapValues out' fields :=
  List.map_congr_left fun field hfield => by rw [h field hfield]

theorem names_mapValues (out : String × Json → Json) (fields : Fields) :
    (mapValues out fields).map (·.1) = fields.map (·.1) := by
  rw [mapValues, List.map_map]
  rfl

theorem mapValues_set (out : String × Json → Json) (key : String) (v : Json) (fields : Fields) :
    mapValues out (set key v fields) = set key (out (key, v)) (mapValues out fields) := by
  induction fields with
  | nil => rfl
  | cons head fields ih =>
    obtain ⟨k, w⟩ := head
    simp only [mapValues] at ih ⊢
    by_cases hk : k = key
    · subst hk
      simp [set]
    · simp [set, hk, ih]

theorem mapValues_overlay (out : String × Json → Json) (fields layer : Fields) :
    mapValues out (overlay fields layer) = overlay (mapValues out fields) (mapValues out layer) := by
  induction layer generalizing fields with
  | nil => rfl
  | cons field layer ih =>
    have := ih (set field.1 field.2 fields)
    rw [mapValues_set] at this
    exact this

theorem set_set (key : String) (v w : Json) (fields : Fields) :
    set key w (set key v fields) = set key w fields := by
  induction fields with
  | nil => simp [set]
  | cons head fields ih =>
    obtain ⟨k, u⟩ := head
    by_cases hk : k = key <;> simp [set, hk, ih]

theorem set_comm {other : String} (hne : key ≠ other) (h : key ∈ fields.map (·.1)) :
    set key v (set other w fields) = set other w (set key v fields) := by
  induction fields with
  | nil => cases h
  | cons head fields ih =>
    obtain ⟨k, u⟩ := head
    by_cases hk : k = key
    · subst hk
      simp [set, hne]
    · have htail : key ∈ fields.map (·.1) := by
        rw [List.map_cons, List.mem_cons] at h
        exact h.resolve_left fun e => hk e.symm
      by_cases hother : k = other
      · subst hother
        simp [set, hk]
      · simp [set, hk, hother, ih htail]

/-- A key that is there already can be set before or after other keys. -/
theorem set_overlay (h : key ∈ fields.map (·.1)) (hlayer : key ∉ layer.map (·.1)) :
    set key v (overlay fields layer) = overlay (set key v fields) layer := by
  induction layer generalizing fields with
  | nil => rfl
  | cons field layer ih =>
    rw [List.map_cons, List.mem_cons, not_or] at hlayer
    have hset : key ∈ (set field.1 field.2 fields).map (·.1) := mem_names_set_iff.2 (.inr h)
    have := ih hset hlayer.2
    rw [set_comm hlayer.1 h] at this
    exact this

theorem overlay_set (names : (layer.map (·.1)).Nodup) :
    overlay fields (set key v layer) = set key v (overlay fields layer) := by
  induction layer generalizing fields with
  | nil => rfl
  | cons field layer ih =>
    obtain ⟨k, w⟩ := field
    rw [List.map_cons, List.nodup_cons] at names
    by_cases hk : k = key
    · subst hk
      rw [set, if_pos rfl]
      have hset : k ∈ (set k w fields).map (·.1) := mem_names_set_iff.2 (.inl rfl)
      have := set_overlay (v := v) hset names.1
      rw [set_set] at this
      exact this.symm
    · rw [set, if_neg hk]
      exact ih names.2

/-- Layers can be put on top of each other first. -/
theorem overlay_overlay {top : Fields} (names : (layer.map (·.1)).Nodup) :
    overlay fields (overlay layer top) = overlay (overlay fields layer) top := by
  induction top generalizing layer with
  | nil => rfl
  | cons field top ih =>
    have hset : ((set field.1 field.2 layer).map (·.1)).Nodup := nodup_names_set names
    have := ih hset
    rw [overlay_set names] at this
    exact this

end Fields

namespace Definitions

/-- How a value is read: as data, as the properties of an object, or as a schema, that of the root or
another one. -/
inductive Role where
  | data
  | properties
  | schema (root : Bool)

/-- How the value of a keyword is read. -/
def roleOf (namespaces : List String) (root : Bool) (key : String) : Role :=
  if isKept namespaces root key then .data
  else if key = "properties" then .properties
  else .schema (root && key != "items")

/-- What a value becomes when each object with a reference becomes the definition, substituted, with
the keywords beside the reference, substituted, on top. -/
inductive Substitutes (source : Source) : Role → Json → Json → Prop where
  | data (v : Json) : Substitutes source .data v v
  | noProperties {v : Json} (obj : v.obj? = none) : Substitutes source .properties v v
  | properties {properties : Fields} (out : String × Json → Json)
      (all : ∀ property ∈ properties,
        Substitutes source (.schema false) property.2 (out property)) :
      Substitutes source .properties (.obj properties) (.obj (Fields.mapValues out properties))
  | scalar {root : Bool} {v : Json} (arr : v.arr? = none) (obj : v.obj? = none) :
      Substitutes source (.schema root) v v
  | arr {root : Bool} {items : List Json} (out : Json → Json)
      (all : ∀ item ∈ items, Substitutes source (.schema root) item (out item)) :
      Substitutes source (.schema root) (.arr items) (.arr (items.map out))
  | obj {root : Bool} {fields : Fields} (out : String × Json → Json)
      (free : reference? fields = none)
      (all : ∀ field ∈ fields,
        Substitutes source (roleOf source.namespaces root field.1) field.2 (out field)) :
      Substitutes source (.schema root) (.obj fields) (.obj (Fields.mapValues out fields))
  | reference {root : Bool} {fields body base out : Fields} {text : String}
      (given : reference? fields = some text) (found : source.target text = .found (.obj body))
      (definition : Substitutes source (.schema root) (.obj body) (.obj base))
      (beside : Substitutes source (.schema root) (.obj (siblings fields)) (.obj out)) :
      Substitutes source (.schema root) (.obj fields) (.obj (Fields.overlay base out))

namespace Substitutes

variable {source : Source} {role : Role} {root : Bool} {fields layer base out : Fields} {v w : Json}

/-- A value becomes one other value. -/
theorem unique (h : Substitutes source role v w) {w' : Json} (h' : Substitutes source role v w') :
    w = w' := by
  induction h generalizing w' with
  | data v =>
    cases h'
    rfl
  | noProperties obj =>
    cases h' with
    | noProperties => rfl
    | properties => cases obj
  | properties out _ ih =>
    cases h' with
    | noProperties obj => cases obj
    | properties out' all =>
      exact congrArg Json.obj (Fields.mapValues_congr fun property hproperty =>
        ih property hproperty (all property hproperty))
  | scalar arr obj =>
    cases h' with
    | scalar => rfl
    | arr => cases arr
    | obj => cases obj
    | reference => cases obj
  | arr out _ ih =>
    cases h' with
    | scalar arr => cases arr
    | arr out' all =>
      exact congrArg Json.arr (List.map_congr_left fun item hitem => ih item hitem (all item hitem))
  | obj out free _ ih =>
    cases h' with
    | scalar _ obj => cases obj
    | obj out' _ all =>
      exact congrArg Json.obj (Fields.mapValues_congr fun field hfield =>
        ih field hfield (all field hfield))
    | reference given =>
      rw [free] at given
      cases given
  | reference given found _ _ ihbase ihbeside =>
    cases h' with
    | scalar _ obj => cases obj
    | obj _ free =>
      rw [given] at free
      cases free
    | reference given' found' definition beside =>
      obtain rfl := Option.some.inj (given.symm.trans given')
      obtain rfl := Json.obj.inj (Target.found.inj (found.symm.trans found'))
      rw [Json.obj.inj (ihbase definition), Json.obj.inj (ihbeside beside)]

theorem exists_obj (h : Substitutes source (.schema root) (.obj fields) w) :
    ∃ out, w = .obj out := by
  cases h with
  | scalar _ obj => cases obj
  | obj => exact ⟨_, rfl⟩
  | reference => exact ⟨_, rfl⟩

theorem names_eq (h : Substitutes source (.schema root) (.obj fields) (.obj out))
    (free : reference? fields = none) : out.map (·.1) = fields.map (·.1) := by
  cases h with
  | scalar _ obj => cases obj
  | obj => exact Fields.names_mapValues _ _
  | reference given =>
    rw [free] at given
    cases given

/-- Without references, keywords can be put on top before or after the substitution. -/
theorem overlay_of_free (free : reference? fields = none) (hlayer : layer.lookup refKey = none)
    (h : Substitutes source (.schema root) (.obj fields) (.obj base))
    (h' : Substitutes source (.schema root) (.obj layer) (.obj out)) :
    Substitutes source (.schema root) (.obj (Fields.overlay fields layer))
      (.obj (Fields.overlay base out)) := by
  have free' : reference? layer = none := by
    rw [reference?, hlayer]
    rfl
  cases h with
  | scalar _ obj => cases obj
  | reference given =>
    rw [free] at given
    cases given
  | obj out _ all =>
    cases h' with
    | scalar _ obj => cases obj
    | reference given =>
      rw [free'] at given
      cases given
    | obj out' _ all' =>
      classical
      -- A field that stands in both becomes the same in both.
      let both (field : String × Json) : Json := if field ∈ layer then out' field else out field
      have hboth (field : String × Json)
          (h : Substitutes source (roleOf source.namespaces root field.1) field.2 (out field)) :
          both field = out field := by
        by_cases hmem : field ∈ layer
        · exact (if_pos hmem).trans ((all' field hmem).unique h)
        · exact if_neg hmem
      have hbase : Fields.mapValues out fields = Fields.mapValues both fields :=
        Fields.mapValues_congr fun field hfield => (hboth field (all field hfield)).symm
      have hout : Fields.mapValues out' layer = Fields.mapValues both layer :=
        Fields.mapValues_congr fun field hfield => (if_pos hfield).symm
      rw [hbase, hout, ← Fields.mapValues_overlay]
      refine .obj both (by rw [reference?_overlay hlayer, free]) fun field hfield => ?_
      by_cases hmem : field ∈ layer
      · have heq : both field = out' field := if_pos hmem
        exact heq ▸ all' field hmem
      · have hmem := (Fields.mem_overlay hfield).resolve_right hmem
        exact hboth field (all field hmem) ▸ all field hmem

/-- Keywords can be put on top before or after the substitution, also where the object below has a
reference itself. -/
theorem overlay (names : (fields.map (·.1)).Nodup) (hlayer : layer.lookup refKey = none)
    (h : Substitutes source (.schema root) (.obj fields) (.obj base))
    (h' : Substitutes source (.schema root) (.obj layer) (.obj out)) :
    Substitutes source (.schema root) (.obj (Fields.overlay fields layer))
      (.obj (Fields.overlay base out)) := by
  cases hfree : reference? fields with
  | none => exact overlay_of_free hfree hlayer h h'
  | some text =>
    cases h with
    | scalar _ obj => cases obj
    | obj _ free =>
      rw [hfree] at free
      cases free
    | @reference _ _ body inner beside _ given found definition hbeside =>
      have names' : (beside.map (·.1)).Nodup := by
        rw [hbeside.names_eq (reference?_siblings fields)]
        exact names.sublist (List.filter_sublist.map _)
      rw [← Fields.overlay_overlay names']
      refine .reference (by rw [reference?_overlay hlayer, given]) found definition ?_
      rw [siblings_overlay hlayer]
      exact overlay_of_free (reference?_siblings fields) hlayer hbeside h'

end Substitutes

/-! What the steps of inlining give when nothing is wrong. -/

section Steps

variable {source : Source} {fresh given : List String} {pointer text : String}
  {fields body : Fields} {v : Json}

theorem inlineValue_obj (free : reference? fields = none) {out : Fields}
    (h : inlineFields source fresh pointer fields = .ok (out, [])) :
    inlineValue source fresh pointer (.obj fields) = .ok (.obj out, []) := by
  rw [inlineValue]
  split
  · rename_i text htext
    rw [reference?_eq_some_iff.2 htext] at free
    cases free
  · rw [h]
    rfl

theorem inlineValue_reference {out : Json} (htext : reference? fields = some text)
    (found : source.target text = .found (.obj body)) (mem : text ∈ fresh)
    (h : inlineValue source (fresh.erase text) pointer
      (.obj (Fields.overlay body (siblings fields))) = .ok (out, [])) :
    inlineValue source fresh pointer (.obj fields) = .ok (out, []) := by
  rw [inlineValue]
  split
  · rename_i reference hreference
    obtain rfl : text = reference := by
      rw [reference?_eq_some_iff.1 htext] at hreference
      exact Json.str.inj (Option.some.inj hreference)
    rw [found]
    simp only [if_pos mem, definitionFields]
    rw [siblings] at h
    rw [h]
    rfl
  · rename_i hnone
    exact absurd (reference?_eq_some_iff.1 htext) (hnone text)

instance : Nonempty Json := ⟨.null⟩

/-- Whether, wherever it stands, a schema becomes its substitution and nothing is wrong. -/
def Inlines (source : Source) (fresh : List String) (v : Json) : Prop :=
  ∀ pointer, ∃ out, inlineValue source fresh pointer v = .ok (out, []) ∧
    Substitutes source (.schema pointer.isEmpty) v out

/-- The value of a keyword becomes its substitution if the schemas in it do. -/
theorem exists_inlineField {field : String × Json}
    (h : ∀ part ∈ subschemas field, Inlines source fresh part) (pointer : String) :
    ∃ out, inlineField source fresh pointer field = .ok (out, []) ∧
      Substitutes source (roleOf source.namespaces pointer.isEmpty field.1) field.2 out := by
  obtain ⟨key, given⟩ := field
  rw [inlineField, roleOf]
  by_cases hkept : isKept source.namespaces pointer.isEmpty key = true
  · rw [if_pos hkept, if_pos hkept]
    exact ⟨given, rfl, .data given⟩
  · rw [if_neg hkept, if_neg hkept]
    have hdata : ¬ dataKeywords.contains key = true := fun hdata =>
      hkept (by rw [isKept, hdata, Bool.true_or])
    by_cases hproperties : key = "properties"
    · rw [if_pos hproperties, if_pos hproperties]
      cases given with
      | obj properties =>
        rw [subschemas, if_neg hdata, if_pos hproperties] at h
        have hproperty (property : String × Json) (hmem : property ∈ properties) :=
          h property.2 (List.mem_map_of_mem hmem) (Pointer.child pointer property.1)
        choose! out hout hsubstitutes using hproperty
        refine ⟨_, ?_, .properties out fun property hmem => ?_⟩
        · simp only [inlineProperties_eq hout]
          rfl
        · rw [← isEmpty_child pointer property.1]
          exact hsubstitutes property hmem
      | _ => exact ⟨_, rfl, .noProperties rfl⟩
    · rw [if_neg hproperties, if_neg hproperties]
      rw [subschemas, if_neg hdata, if_neg hproperties] at h
      obtain ⟨out, hout, hsubstitutes⟩ :=
        h given (List.mem_singleton_self _)
          (if key = "items" then Pointer.child pointer "*" else pointer)
      exact ⟨out, hout, isEmpty_part pointer key ▸ hsubstitutes⟩

theorem Inlines.scalar (arr : v.arr? = none) (obj : v.obj? = none) : Inlines source fresh v :=
  fun _ => ⟨v, inlineValue_scalar arr obj, .scalar arr obj⟩

theorem Inlines.arr {items : List Json} (h : ∀ item ∈ items, Inlines source fresh item) :
    Inlines source fresh (.arr items) := by
  intro pointer
  have hitem (item : Json) (hmem : item ∈ items) := h item hmem pointer
  choose! out hout hsubstitutes using hitem
  refine ⟨.arr (items.map out), ?_, .arr out hsubstitutes⟩
  rw [inlineValue, inlineItems_eq hout]
  rfl

theorem Inlines.obj (free : reference? fields = none)
    (h : ∀ field ∈ fields, ∀ part ∈ subschemas field, Inlines source fresh part) :
    Inlines source fresh (.obj fields) := by
  intro pointer
  have hfield (field : String × Json) (hmem : field ∈ fields) :=
    exists_inlineField (h field hmem) pointer
  choose! out hout hsubstitutes using hfield
  exact ⟨_, inlineValue_obj free (inlineFields_eq hout), .obj out free hsubstitutes⟩

/-- What the definition and the keywords beside the reference become together is what the two become,
one on top of the other. -/
theorem Inlines.reference (htext : reference? fields = some text)
    (found : source.target text = .found (.obj body)) (mem : text ∈ fresh)
    (names : (body.map (·.1)).Nodup)
    (merged : Inlines source (fresh.erase text) (.obj (Fields.overlay body (siblings fields))))
    (definition : Inlines source (fresh.erase text) (.obj body))
    (beside : Inlines source fresh (.obj (siblings fields))) :
    Inlines source fresh (.obj fields) := by
  intro pointer
  obtain ⟨whole, hmerged, hwhole⟩ := merged pointer
  obtain ⟨base, -, hbase⟩ := definition pointer
  obtain ⟨layer, -, hlayer⟩ := beside pointer
  obtain ⟨base, rfl⟩ := hbase.exists_obj
  obtain ⟨layer, rfl⟩ := hlayer.exists_obj
  obtain rfl := hwhole.unique (hbase.overlay names (lookup_siblings fields) hlayer)
  exact ⟨_, inlineValue_reference htext found mem hmerged, .reference htext found hbase hlayer⟩

end Steps

section Inlining

variable {source : Source} {given : List String}

theorem size_le_of_mem_subschemas {field : String × Json} {part : Json}
    (h : part ∈ subschemas field) : part.size ≤ field.2.size := by
  rw [subschemas] at h
  split at h
  · cases h
  · split at h
    · obtain ⟨key, value⟩ := field
      cases value with
      | obj properties =>
        obtain ⟨property, hproperty, rfl⟩ := List.mem_map.1 h
        have := Json.size_le_sizeFields hproperty
        simp only [Json.size]
        omega
      | _ => cases h
    · exact List.mem_singleton.1 h ▸ Nat.le_refl _

theorem size_siblings_lt {fields : Fields} {text : String} (h : reference? fields = some text) :
    (Json.obj (siblings fields)).size < (Json.obj fields).size := by
  have := Json.sizeFields_erase_add_le (reference?_eq_some_iff.1 h)
  simp only [siblings, Json.size] at this ⊢
  omega

/-- Where all references can be followed, a value becomes its substitution and nothing is wrong. -/
theorem inlines_of_ready (proper : source.Proper given) {fresh : List String} {v : Json}
    (ready : source.Ready given fresh v) : Inlines source fresh v := by
  -- Either fewer references can be followed, or the schema is smaller.
  cases hv : v with
  | arr items =>
    refine .arr fun item hmem => ?_
    have hsize : item.size < v.size := by
      have := Json.size_le_sizeItems hmem
      rw [hv, Json.size]
      omega
    exact inlines_of_ready proper (ready.mono fun _ _ hcontains _ => hv ▸ .item hmem hcontains)
  | obj fields =>
    cases htext : reference? fields with
    | none =>
      refine .obj htext fun field hmem part hpart => ?_
      have hsize : part.size < v.size := by
        have := size_le_of_mem_subschemas hpart
        have := Json.size_le_sizeFields hmem
        rw [hv, Json.size]
        omega
      exact inlines_of_ready proper
        (ready.mono fun _ _ hcontains _ => hv ▸ .keyword hmem hpart hcontains)
    | some text =>
      have hready : source.Ready given fresh (.obj fields) := hv ▸ ready
      have hfresh : text ∈ fresh := hready.mem_fresh htext
      obtain ⟨name, body, hsplit, hbody⟩ := hready.known text ⟨fields, .self fields, htext⟩
      have names : (body.map (·.1)).Nodup :=
        (Fields.keysDistinct_iff.1 (Source.keysDistinct_body proper.distinct hbody)).1
      have hlength : (fresh.erase text).length < fresh.length := by
        rw [List.length_erase_of_mem hfresh]
        have := List.length_pos_of_mem hfresh
        omega
      have hsize : (Json.obj (siblings fields)).size < v.size := hv ▸ size_siblings_lt htext
      exact .reference htext (Source.target_eq hsplit hbody) hfresh names
        (inlines_of_ready proper (hready.merged proper htext hsplit hbody))
        (inlines_of_ready proper (hready.definition proper htext hsplit hbody))
        (inlines_of_ready proper hready.siblings)
  | _ => exact .scalar rfl rfl
termination_by (fresh.length, v.size)
decreasing_by
  all_goals
    first
    | exact Prod.Lex.right _ (by assumption)
    | exact Prod.Lex.left _ _ (by assumption)

/-- A document in which each reference leads to a definition, no definition comes back to itself and
nothing beside a reference leads back to where the reference leads becomes its substitution, without
the sections of definitions, and nothing is wrong with it.  Below the root, keywords that are named
like a section stay as they are only where they describe the root of the data. -/
theorem inline_substitutes (dialect : Dialect) {fields : Fields}
    (distinct : (Json.obj fields).keysDistinct = true)
    (closed : Source.Closed ⟨fields, dialect.namespaces⟩)
    (acyclic : Source.Acyclic ⟨fields, dialect.namespaces⟩)
    (apart : ∀ v, Source.IsSchema ⟨fields, dialect.namespaces⟩ v →
      Source.Apart ⟨fields, dialect.namespaces⟩ v) :
    ∃ out,
      inline dialect (.obj fields) =
          .ok (.obj (dialect.namespaces.foldl Fields.erase out), []) ∧
        ∀ w, Substitutes ⟨fields, dialect.namespaces⟩ (.schema true) (.obj fields) w ↔
          w = .obj out := by
  have fit (v : Json) (hv : Source.IsSchema ⟨fields, dialect.namespaces⟩ v) :
      Source.Fit ⟨fields, dialect.namespaces⟩ (references (.obj fields)).eraseDups v := by
    refine ⟨fun text hmentions => ?_, closed v hv, apart v hv⟩
    have hmem := mem_references_of_mentions hmentions
    rw [List.mem_eraseDups]
    rcases hv with rfl | ⟨name, body, hbody, rfl⟩
    · exact hmem
    · exact Source.references_subset_of_body? hbody hmem
  have proper :
      Source.Proper ⟨fields, dialect.namespaces⟩ (references (.obj fields)).eraseDups :=
    ⟨distinct, acyclic, fun name body hbody => fit _ (.inr ⟨name, body, hbody, rfl⟩)⟩
  obtain ⟨out, hinline, hout⟩ :=
    inlines_of_ready proper ⟨fit _ (.inl rfl), fun _ _ _ _ _ hmem _ => hmem⟩ ""
  obtain ⟨out, rfl⟩ := hout.exists_obj
  refine ⟨out, ?_, fun w => ⟨fun hw => hw.unique hout, fun heq => heq ▸ hout⟩⟩
  simp only [inline, hinline]
  rfl

end Inlining

/-! Two definitions that mention nothing, and a reference to the first one beside which a property has
a reference of its own. -/

namespace Nested

def whole : Fields := [("type", .str "object")]

def part : Fields := [("type", .str "string")]

def property (text : String) : Fields := [("$ref", .str text)]

def outer (text : String) : Fields :=
  [("$ref", .str "#/definitions/a"), ("properties", .obj [("y", .obj (property text))])]

def fields (text : String) : Fields :=
  [("definitions", .obj [("a", .obj whole), ("b", .obj part)]),
    ("properties", .obj [("x", .obj (outer text))])]

def source (text : String) : Source := ⟨fields text, Dialect.draft7.namespaces⟩

variable {text : String} {name : String × String} {body : Fields}

theorem body?_cases (h : (source text).body? name = some body) :
    name = ("definitions", "a") ∧ body = whole ∨ name = ("definitions", "b") ∧ body = part := by
  obtain ⟨home, key⟩ := name
  obtain ⟨hhome, entries, hentries, hbody⟩ := Source.exists_of_body? h
  obtain rfl : home = "definitions" := List.mem_singleton.1 hhome
  obtain rfl := Json.obj.inj (Option.some.inj hentries)
  simpa [Prod.ext_iff] using Json.mem_of_lookup hbody

theorem not_mentions (h : (source text).body? name = some body) (other : String) :
    ¬ Mentions (.obj body) other := by
  intro hmentions
  have hmem := mem_references_of_mentions hmentions
  rcases body?_cases h with ⟨-, rfl⟩ | ⟨-, rfl⟩ <;> exact List.not_mem_nil hmem

theorem not_uses (other : String × String) : ¬ (source text).Uses name other := by
  rintro ⟨body, hbody, other, hmentions, -⟩
  exact not_mentions hbody other hmentions

theorem acyclic (text : String) : (source text).Acyclic := by
  intro name hcycle
  cases hcycle with
  | single h => exact not_uses _ h
  | tail _ h => exact not_uses _ h

theorem split_a :
    split? Dialect.draft7.namespaces "#/definitions/a" = some ("definitions", "a") := by decide

theorem split_b :
    split? Dialect.draft7.namespaces "#/definitions/b" = some ("definitions", "b") := by decide

theorem closed (htext : text ∈ ["#/definitions/a", "#/definitions/b"]) : (source text).Closed := by
  rintro v (rfl | ⟨name, body, hbody, rfl⟩) other hmentions
  · have hmem : other ∈ ["#/definitions/a", text] := mem_references_of_mentions hmentions
    have hother : other ∈ ["#/definitions/a", "#/definitions/b"] := by
      rcases List.mem_cons.1 hmem with rfl | hmem
      · exact List.mem_cons_self
      · exact List.mem_singleton.1 hmem ▸ htext
    rcases List.mem_cons.1 hother with rfl | hother
    · exact ⟨("definitions", "a"), whole, split_a, rfl⟩
    · obtain rfl := List.mem_singleton.1 hother
      exact ⟨("definitions", "b"), part, split_b, rfl⟩
  · exact absurd hmentions (not_mentions hbody other)

theorem contains_cases {inner : Fields} (h : Contains (.obj (fields text)) inner) {other : String}
    (hother : reference? inner = some other) :
    inner = outer text ∧ other = "#/definitions/a" ∨ inner = property text ∧ other = text := by
  have hstr (s : String) : ¬ Contains (.str s) inner := by
    intro h
    cases h
  have hinner : inner = fields text ∨ inner = [("a", .obj whole), ("b", .obj part)] ∨
      inner = whole ∨ inner = part ∨ inner = outer text ∨ inner = property text := by
    simpa [contains_obj_iff, hstr, subschemas, dataKeywords, fields, outer, property, whole, part,
      or_assoc] using h
  rcases hinner with rfl | rfl | rfl | rfl | rfl | rfl
  · cases hother
  · cases hother
  · cases hother
  · cases hother
  · exact .inl ⟨rfl, (Option.some.inj hother).symm⟩
  · exact .inr ⟨rfl, (Option.some.inj hother).symm⟩

theorem refers_siblings {inner : String × String}
    (h : (source text).Refers (.obj (siblings (outer text))) inner) :
    split? Dialect.draft7.namespaces text = some inner := by
  obtain ⟨other, hmentions, hsplit⟩ := h
  have hmem : other ∈ [text] := mem_references_of_mentions hmentions
  exact List.mem_singleton.1 hmem ▸ hsplit

/-- The second definition does not lead back to the first one. -/
theorem apart (v : Json) (hv : (source "#/definitions/b").IsSchema v) :
    (source "#/definitions/b").Apart v := by
  intro inner other name sibling hcontains hother hname hsibling last hlast hreach
  have hfirst : last = name := by
    rcases hlast.cases_head with rfl | ⟨next, hnext, -⟩
    · rfl
    · exact absurd hnext.uses (not_uses next)
  have hsecond : last = sibling := by
    rcases hreach.cases_head with rfl | ⟨next, hnext, -⟩
    · rfl
    · exact absurd hnext (not_uses next)
  obtain rfl := hfirst.symm.trans hsecond
  rcases hv with rfl | ⟨name, body, hbody, rfl⟩
  · rcases contains_cases hcontains hother with ⟨rfl, rfl⟩ | ⟨rfl, -⟩
    · have hb := (refers_siblings hsibling).symm.trans split_b
      have ha := hname.symm.trans split_a
      rw [hb] at ha
      simp at ha
    · obtain ⟨text, hmentions, -⟩ := hsibling
      exact List.not_mem_nil (mem_references_of_mentions hmentions)
  · exact not_mentions hbody other ⟨inner, hcontains, hother⟩

end Nested

/-- A property beside a reference to one definition has a reference to another one, and both are
replaced. -/
theorem inline_substitutes_nested :
    ∃ out, Substitutes (Nested.source "#/definitions/b") (.schema true)
        (.obj (Nested.fields "#/definitions/b")) (.obj out) ∧
      Dialect.draft7.namespaces.foldl Fields.erase out =
        [("properties", .obj [("x", .obj [("type", .str "object"),
          ("properties", .obj [("y", .obj [("type", .str "string")])])])])] := by
  have distinct : (Json.obj (Nested.fields "#/definitions/b")).keysDistinct = true := by decide
  obtain ⟨out, hinline, hout⟩ := inline_substitutes .draft7 distinct (Nested.closed (by decide))
    (Nested.acyclic _) Nested.apart
  have hresult : inline .draft7 (.obj (Nested.fields "#/definitions/b")) =
      .ok (.obj [("properties", .obj [("x", .obj [("type", .str "object"),
        ("properties", .obj [("y", .obj [("type", .str "string")])])])])], []) :=
    inline_eq_of_within rfl
  obtain ⟨hobj, -⟩ := Prod.mk.inj (Except.ok.inj (hinline.symm.trans hresult))
  exact ⟨out, (hout _).2 rfl, Json.obj.inj hobj⟩

/-- No definition comes back to itself, and yet the property beside the reference is said to go round
in a circle and loses its reference. -/
theorem inline_reports_circle :
    (Json.obj (Nested.fields "#/definitions/a")).keysDistinct = true ∧
      (Nested.source "#/definitions/a").Closed ∧ (Nested.source "#/definitions/a").Acyclic ∧
        inline .draft7 (.obj (Nested.fields "#/definitions/a")) =
          .ok (.obj [("properties", .obj [("x", .obj [("type", .str "object"),
            ("properties", .obj [("y", .obj [])])])])],
              [problem "/x/y" (.referenceCycle "#/definitions/a")]) :=
  ⟨by decide, Nested.closed (by decide), Nested.acyclic _, inline_eq_of_within rfl⟩

end Definitions

end FormSchema
