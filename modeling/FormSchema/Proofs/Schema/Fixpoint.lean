import FormSchema.Proofs.Schema.Normal

/-!
The outline of a plain schema.  A schema without problems has the subschemas that it has in its
plain schema, and the kinds that are found for it are found again, since the types that the plain
schema names are what all its other keywords admit.  The plain schema of a plain schema is the same.
-/

namespace FormSchema

namespace Inference

variable {fields fields' : Fields} {t : KindSet}

/-- The sources but `type` find the same in keywords that have the same keys and of which those that
the plain schema rewrites are all that differs. -/
theorem tail_sources_eq
    (lookup : ∀ key ∉ Attributes.rewritten, fields'.lookup key = fields.lookup key)
    (has : ∀ key, key ≠ "type" → fields'.has key = fields.has key) :
    (sources fields' (nestedIn fields')).tail = (sources fields (nestedIn fields)).tail := by
  have hfamilies : families.map (fun family => ofFamily fields' family.1 family.2) =
      families.map fun family => ofFamily fields family.1 family.2 := by
    have htype : ∀ family ∈ families, "type" ∉ family.2 := by decide
    refine List.map_congr_left fun family hfamily => ?_
    have hany : family.2.any fields'.has = family.2.any fields.has := by
      refine Bool.eq_iff_iff.2 ?_
      rw [List.any_eq_true, List.any_eq_true]
      refine exists_congr fun key => and_congr_right fun hkey => ?_
      rw [has key fun e => htype family hfamily (e ▸ hkey)]
    rw [ofFamily, ofFamily, hany]
  have hconst : ofConst fields' = ofConst fields := by
    rw [ofConst, ofConst, lookup "const" (by decide)]
  have henum : ofEnum fields' = ofEnum fields := by
    rw [ofEnum, ofEnum, lookup "enum" (by decide)]
  have hnot : ofNot (nestedIn fields') = ofNot (nestedIn fields) := by
    rw [ofNot, ofNot, lookup_nestedIn, lookup_nestedIn, lookup "not" (by decide)]
  have hbranches (key : String) (h : key ∉ Attributes.rewritten) :
      branches fields' (nestedIn fields') key = branches fields (nestedIn fields) key := by
    rw [branches, branches, lookup_nestedIn, lookup_nestedIn, lookup key h]
  simp only [sources, List.cons_append, List.nil_append, List.tail_cons, hconst, henum, hfamilies,
    hnot, ofAllOf, ofAnyOf, hbranches _ (by decide : "allOf" ∉ Attributes.rewritten),
    hbranches _ (by decide : "anyOf" ∉ Attributes.rewritten),
    hbranches _ (by decide : "oneOf" ∉ Attributes.rewritten)]

end Inference

/-- The typing of a section depends on its path, its target and its choices. -/
theorem Typing.ofSection_congr {s s' : Section} {fields fields' : Fields}
    (raw : s.raw = .obj fields) (raw' : s'.raw = .obj fields') (path : s'.path = s.path)
    (target : Inference.target fields' = Inference.target fields)
    (choosing : Choosing.ofFields fields' = Choosing.ofFields fields) :
    ofSection s' = ofSection s := by
  have hpointer : s'.pointer = s.pointer := by
    rw [Section.pointer, Section.pointer, Section.tokens, Section.tokens, path]
  rw [ofSection, ofSection, raw, raw']
  dsimp only
  rw [target, choosing, hpointer]

/-- To rewrite the keywords of a plain schema changes nothing. -/
theorem Attributes.normalFields_normalFields {a a' : Attributes} {children : List (Slot × Json)}
    (keywords : a'.keywords = a.normalFields children) (target : a'.target = a.target)
    (mixed : a'.mixed = a.mixed) : a'.normalFields children = a.normalFields children := by
  have htype : a'.withType (a.normalFields children) = a.normalFields children := by
    rw [withType, target]
    split
    · rfl
    · rename_i hne
      exact Fields.set_eq_self (lookup_type (by simpa using hne))
  have hproperties : withProperties children (a.normalFields children) =
      a.normalFields children := by
    rw [withProperties_eq]
    split
    · rfl
    · rename_i hne
      exact Fields.set_eq_self (by rw [lookup_properties, if_neg hne])
  rw [normalFields, keywords, htype, hproperties, withItems_eq, mixed]
  split
  · rename_i hmixed
    exact Fields.set_eq_self (lookup_items_mixed hmixed)
  · rename_i hmixed
    have hlookup : (a.normalFields children).lookup "items" =
        (children.lookup .item).or (a.keywords.lookup "items") :=
      lookup_items (Bool.eq_false_iff.2 hmixed)
    split
    · rename_i item hitem
      exact Fields.set_eq_self (by rw [hlookup, hitem]; rfl)
    · rfl

namespace Outline

variable {path : List Slot} {raw : Json} {fields : Fields}

theorem valid_iff {o : Tree Section} :
    Valid o ↔ o.label.Valid ∧ ∀ part ∈ o.children, Valid part.2 := by
  unfold Valid
  rw [Tree.labels_eq, List.forall_mem_cons, List.forall_mem_flatMap]

theorem valid_build_iff :
    Valid (build path raw) ↔ (build path raw).label.Valid ∧
      ∀ part ∈ parts raw, Valid (build (path ++ [part.1]) part.2) := by
  rw [valid_iff, children_build, List.forall_mem_map]

theorem label_normal (path : List Slot) (raw : Json) :
    (build path (normal (build path raw))).label =
      ⟨path, .obj (plain (build path raw)), isMixed (normal (build path raw))⟩ := by
  rw [label_build, normal_eq]
  rfl

theorem named_plainParts (path : List Slot) (raw : Json) :
    (Attributes.named (plainParts path raw)).map (fun field => (Slot.property field.1, field.2)) =
      (propertyParts raw).map (plainPart path) := by
  have hitems : Attributes.named ((itemParts raw).map (plainPart path)) = [] :=
    Attributes.named_eq_nil (List.forall_mem_map.2 fun part hpart name =>
      itemParts_ne_property hpart name)
  rw [plainParts, parts, List.map_append, Attributes.named_append, hitems, List.append_nil]
  refine Attributes.map_named fun part hpart => ?_
  obtain ⟨given, hgiven, rfl⟩ := List.mem_map.1 hpart
  obtain ⟨name, hname⟩ := propertyParts_property hgiven
  exact ⟨name, hname⟩

theorem alternatives_plainParts (path : List Slot) (raw : Json) :
    Attributes.alternatives (plainParts path raw) =
      Attributes.alternatives ((itemParts raw).map (plainPart path)) := by
  have hproperties : Attributes.alternatives ((propertyParts raw).map (plainPart path)) = [] := by
    refine List.eq_nil_iff_forall_not_mem.2 fun variant hvariant => ?_
    obtain ⟨i, hmem⟩ := Attributes.mem_alternatives_iff.1 hvariant
    obtain ⟨part, hpart, hplain⟩ := List.mem_map.1 hmem
    obtain ⟨name, hname⟩ := propertyParts_property hpart
    cases hname.symm.trans (Prod.mk.inj hplain).1
  rw [plainParts, parts, List.map_append, Attributes.alternatives_append, hproperties,
    List.nil_append]

theorem propertyParts_normal (path : List Slot) (fields : Fields) :
    propertyParts (normal (build path (.obj fields))) =
      (propertyParts (.obj fields)).map (plainPart path) := by
  have hnamed := named_plainParts path (.obj fields)
  rw [normal_eq, propertyParts, Json.field?, lookup_plain_properties]
  by_cases hnil : Attributes.named (plainParts path (.obj fields)) = []
  · rw [hnil, List.map_nil] at hnamed
    rw [if_pos hnil, ← hnamed]
    exact List.map_eq_nil_iff.1 hnamed.symm
  · rw [if_neg hnil]
    exact hnamed

/-- Variants whose items have no other keywords are as they are listed. -/
theorem variants?_alone {all : List Json}
    (h : ∀ variant ∈ all, ∃ fields, variant = .obj fields ∧ variant.keysDistinct = true) :
    variants? [("oneOf", .arr all)] = some all := by
  have hmap : all.map (variantSchema [("oneOf", .arr all)]) = all := by
    refine (List.map_congr_left fun variant hvariant => ?_).trans (List.map_id _)
    obtain ⟨fields, rfl, hdistinct⟩ := h variant hvariant
    rw [variantSchema, Fields.erase_cons, if_pos rfl]
    exact congrArg Json.obj (Fields.overlay_eq_append (Fields.keysDistinct_iff.1 hdistinct).1)
  rw [variants?, List.lookup_cons_self]
  exact congrArg some hmap

theorem items_normal_mixed (path : List Slot) (distinct : (Json.obj fields).keysDistinct = true)
    (mixed : isMixed (.obj fields) = true) :
    itemParts (normal (build path (.obj fields))) =
        (itemParts (.obj fields)).map (plainPart path) ∧
      isMixed (normal (build path (.obj fields))) = true := by
  obtain ⟨n, hslots⟩ : ∃ n, ((itemParts (.obj fields)).map (plainPart path)).map (·.1) =
      (List.range n).map .variant := by
    rw [List.map_map]
    rcases slots_itemParts (.obj fields) with hslots | ⟨-, hmixed⟩ | ⟨n, hslots, -⟩
    · exact ⟨0, hslots⟩
    · rw [mixed] at hmixed
      cases hmixed
    · exact ⟨n, hslots⟩
  have hvariants : variants? [("oneOf", .arr (Attributes.alternatives
      ((itemParts (.obj fields)).map (plainPart path))))] =
        some (Attributes.alternatives ((itemParts (.obj fields)).map (plainPart path))) := by
    refine variants?_alone fun variant hvariant => ?_
    obtain ⟨i, hmem⟩ := Attributes.mem_alternatives_iff.1 hvariant
    obtain ⟨part, hpart, hplain⟩ := List.mem_map.1 hmem
    obtain rfl := (Prod.mk.inj hplain).2
    exact ⟨_, normal_eq _, keysDistinct_normal _
      (keysDistinct_of_mem_parts distinct (List.mem_append_right _ hpart))⟩
  rw [normal_eq, itemParts, isMixed, Json.field?, lookup_plain_items_mixed path mixed,
    alternatives_plainParts]
  dsimp only
  rw [hvariants]
  exact ⟨Attributes.mapIdx_alternatives hslots, rfl⟩

theorem variants?_eq_none {items : Fields} (h : (items.lookup "oneOf").bind Json.arr? = none) :
    variants? items = none := by
  unfold variants?
  split
  · rename_i all hall
    rw [hall] at h
    cases h
  · rfl

theorem items_normal_unmixed (h : Valid (build path (.obj fields)))
    (unmixed : isMixed (.obj fields) = false) :
    itemParts (normal (build path (.obj fields))) =
        (itemParts (.obj fields)).map (plainPart path) ∧
      isMixed (normal (build path (.obj fields))) = false := by
  have hfield : (normal (build path (.obj fields))).field? "items" =
      (((build path (.obj fields)).at? .item).map normal).or (fields.lookup "items") := by
    rw [normal_eq, Json.field?, lookup_plain_items path unmixed]
  rw [at?_build] at hfield
  obtain ⟨hlookup, hpart⟩ | ⟨items, hlookup, hpart, honeOf⟩ := h.items unmixed
  · rw [itemParts, isMixed, itemParts, hfield, hpart, Json.field?, hlookup]
    exact ⟨rfl, rfl⟩
  · have hvariants : variants? (plain (build (path ++ [.item]) (.obj items))) = none :=
      variants?_eq_none (by rw [lookup_plain (by decide), honeOf])
    rw [itemParts, isMixed, itemParts, hfield, hpart, Json.field?, hlookup, Option.map_some,
      Option.map_some, Option.some_or, normal_eq]
    dsimp only
    rw [hvariants, variants?_eq_none honeOf]
    exact ⟨by rw [← normal_eq]; rfl, rfl⟩

/-- The subschemas of a plain schema are the plain schemas of the subschemas. -/
theorem Valid.parts_normal (h : Valid (build path raw)) (distinct : raw.keysDistinct = true) :
    parts (normal (build path raw)) = plainParts path raw ∧
      isMixed (normal (build path raw)) = isMixed raw := by
  obtain ⟨fields, rfl⟩ := h.exists_fields
  have hitems : itemParts (normal (build path (.obj fields))) =
        (itemParts (.obj fields)).map (plainPart path) ∧
      isMixed (normal (build path (.obj fields))) = isMixed (.obj fields) := by
    cases hmixed : isMixed (.obj fields) with
    | true => exact items_normal_mixed path distinct hmixed
    | false => exact items_normal_unmixed h hmixed
  rw [parts, propertyParts_normal, hitems.1, ← List.map_append]
  exact ⟨rfl, hitems.2⟩

theorem has_of_mem_plainParts {part : Slot × Json} (h : part ∈ plainParts path (.obj fields)) :
    fields.has part.1.keyword = true := by
  obtain ⟨given, hgiven, rfl⟩ := List.mem_map.1 h
  obtain ⟨fields', hfields, hhas⟩ := has_keyword_of_mem_parts hgiven
  obtain rfl := Json.obj.inj hfields
  exact hhas

/-- The plain schema has no keyword but `type` that the schema does not have. -/
theorem has_plain (path : List Slot) (fields : Fields) {key : String} (h : key ≠ "type") :
    (plain (build path (.obj fields))).has key = fields.has key := by
  by_cases hkey : key ∈ Attributes.rewritten
  · simp only [Attributes.rewritten, List.mem_cons, List.not_mem_nil, or_false] at hkey
    obtain rfl | rfl | rfl := hkey
    · exact absurd rfl h
    · rw [Fields.has, lookup_plain_properties]
      split
      · rfl
      · rename_i hnamed
        obtain ⟨field, hfield⟩ := List.exists_mem_of_ne_nil _ hnamed
        exact (has_of_mem_plainParts (Attributes.mem_named_iff.1 hfield)).symm
    · rw [Fields.has]
      cases hmixed : isMixed (.obj fields) with
      | true =>
        obtain ⟨fields', hfields, hhas⟩ := has_items_of_isMixed hmixed
        obtain rfl := Json.obj.inj hfields
        rw [lookup_plain_items_mixed path hmixed, hhas]
        rfl
      | false =>
        rw [lookup_plain_items path hmixed, ← lookup_plainParts]
        cases hitem : (plainParts path (.obj fields)).lookup .item with
        | none => rfl
        | some item => exact (has_of_mem_plainParts (Key.mem_of_lookup hitem)).symm
  · rw [Fields.has, lookup_plain hkey]
    rfl

/-- The kinds that are found for a schema are found again for its plain schema. -/
theorem Valid.ofSection_normal (h : Valid (build path raw)) :
    Typing.ofSection (build path (normal (build path raw))).label =
      Typing.ofSection (build path raw).label := by
  obtain ⟨fields, rfl⟩ := h.exists_fields
  have hraw : (build path (.obj fields)).label.raw = .obj fields := by
    rw [label_build]
    rfl
  obtain ⟨htarget, base, hbase, -⟩ := h.label.typed hraw
  have htype : (plain (build path (.obj fields))).lookup "type" =
      some (Attributes.typeKeyword (build path (.obj fields)).label.typed.target) := by
    rw [plain]
    exact Attributes.lookup_type (Inference.toList_ne_nil hbase)
  refine Typing.ofSection_congr hraw (by rw [label_normal]) (by rw [label_normal, label_build]) ?_ ?_
  · rw [htarget]
    refine Inference.target_eq_of_ofType htarget (Inference.ofType_typeKeyword htype) ?_
    exact Inference.tail_sources_eq (fun key hkey => lookup_plain hkey) fun key hkey =>
      has_plain path fields hkey
  · rw [Choosing.ofFields, Choosing.ofFields, lookup_plain (by decide), lookup_plain (by decide),
      lookup_plain (by decide)]

theorem ownProblems_eq_nil_iff {s : Section} (raw : s.raw = .obj fields) :
    ownProblems s = [] ↔
      ∀ value, fields.lookup "properties" = some value → ∃ properties, value = .obj properties := by
  rw [ownProblems, Section.keyword?, raw, Json.field?]
  cases fields.lookup "properties" with
  | none => simp
  | some value => cases value <;> simp

theorem itemProblems_eq_nil_iff {s : Section} (raw : s.raw = .obj fields) :
    itemProblems s = [] ↔ ∀ value, fields.lookup "items" = some value →
      (∃ items, value = .obj items) ∨ value = .bool true := by
  rw [itemProblems, Section.keyword?, raw, Json.field?]
  cases fields.lookup "items" with
  | none => simp
  | some value =>
    cases value with
    | bool b => cases b <;> simp
    | _ => simp

/-- The plain schema keeps the keywords for subschemas or makes objects of them. -/
theorem lookup_plain_or (path : List Slot) (fields : Fields) {key : String}
    (h : key ∈ ["properties", "items"]) :
    (plain (build path (.obj fields))).lookup key = fields.lookup key ∨
      ∃ value, (plain (build path (.obj fields))).lookup key = some (.obj value) := by
  simp only [List.mem_cons, List.not_mem_nil, or_false] at h
  obtain rfl | rfl := h
  · rw [lookup_plain_properties]
    split
    · exact .inl rfl
    · exact .inr ⟨_, rfl⟩
  · cases hmixed : isMixed (.obj fields) with
    | true => exact .inr ⟨_, lookup_plain_items_mixed path hmixed⟩
    | false =>
      rw [lookup_plain_items path hmixed]
      cases (build path (.obj fields)).at? .item with
      | none => exact .inl rfl
      | some item => exact .inr ⟨plain item, congrArg some (normal_eq item)⟩

/-- What holds of a schema without problems as soon as it holds of its subschemas holds of all schemas
without problems. -/
theorem Valid.induct {P : List Slot → Json → Prop}
    (step : ∀ path raw, Valid (build path raw) → raw.keysDistinct = true →
      (∀ part ∈ parts raw, P (path ++ [part.1]) part.2) → P path raw)
    (h : Valid (build path raw)) (distinct : raw.keysDistinct = true) : P path raw := by
  induction raw using Outline.induct generalizing path with
  | step raw ih =>
    refine step path raw h distinct fun part hpart => ih part hpart ?_ ?_
    · exact (valid_build_iff.1 h).2 part hpart
    · exact keysDistinct_of_mem_parts distinct hpart

/-- A plain schema has no problems either. -/
theorem Valid.normal (h : Valid (build path raw)) (distinct : raw.keysDistinct = true) :
    Valid (build path (normal (build path raw))) := by
  refine Valid.induct (P := fun path raw => Valid (build path (Outline.normal (build path raw))))
    (fun path raw h distinct ih => ?_) h distinct
  have hparts := (h.parts_normal distinct).1
  obtain ⟨fields, rfl⟩ := h.exists_fields
  have hraw : (build path (.obj fields)).label.raw = .obj fields := by
    rw [label_build]
    rfl
  have hplain : (build path (Outline.normal (build path (.obj fields)))).label.raw =
      .obj (plain (build path (.obj fields))) := by
    rw [label_normal]
  refine valid_build_iff.2 ⟨⟨?_, ?_, ?_⟩, ?_⟩
  · refine (ownProblems_eq_nil_iff hplain).2 fun value hvalue => ?_
    rcases lookup_plain_or path fields (.head _) with hsame | ⟨sub, hsub⟩
    · exact (ownProblems_eq_nil_iff hraw).1 h.label.own value (hsame ▸ hvalue)
    · exact ⟨sub, Option.some.inj (hvalue.symm.trans hsub)⟩
  · refine (itemProblems_eq_nil_iff hplain).2 fun value hvalue => ?_
    rcases lookup_plain_or path fields (.tail _ (.head _)) with hsame | ⟨sub, hsub⟩
    · exact (itemProblems_eq_nil_iff hraw).1 h.label.items value (hsame ▸ hvalue)
    · exact .inl ⟨sub, Option.some.inj (hvalue.symm.trans hsub)⟩
  · rw [h.ofSection_normal]
    exact h.label.typing
  · rw [hparts, plainParts, List.forall_mem_map]
    exact ih

/-- What is made of the sections of a schema is made of those of its plain schema, if it does not
depend on what the plain schema rewrites. -/
theorem Valid.map_normal {β : Type} {f : Section → β} (h : Valid (build path raw))
    (distinct : raw.keysDistinct = true)
    (hf : ∀ path raw, Valid (build path raw) → raw.keysDistinct = true →
      f (build path (Outline.normal (build path raw))).label = f (build path raw).label) :
    (build path (Outline.normal (build path raw))).map f = (build path raw).map f := by
  refine Valid.induct (P := fun path raw =>
    (build path (Outline.normal (build path raw))).map f = (build path raw).map f)
    (fun path raw h distinct ih => ?_) h distinct
  refine Tree.ext (by rw [Tree.label_map, Tree.label_map, hf path raw h distinct]) ?_
  rw [Tree.children_map, Tree.children_map, children_build, children_build,
    (h.parts_normal distinct).1, plainParts, List.map_map, List.map_map, List.map_map]
  exact List.map_congr_left fun part hpart => congrArg (part.1, ·) (ih part hpart)

/-- The plain schema of a plain schema is the same. -/
theorem Valid.normal_normal (h : Valid (build path raw)) (distinct : raw.keysDistinct = true) :
    Outline.normal (build path (Outline.normal (build path raw))) =
      Outline.normal (build path raw) := by
  refine Valid.induct (P := fun path raw =>
    Outline.normal (build path (Outline.normal (build path raw))) = Outline.normal (build path raw))
    (fun path raw h distinct ih => ?_) h distinct
  have hchildren : plainParts path (Outline.normal (build path raw)) = plainParts path raw := by
    rw [plainParts, (h.parts_normal distinct).1, plainParts, List.map_map]
    exact List.map_congr_left fun part hpart => congrArg (part.1, ·) (ih part hpart)
  have hkeywords : (build path (Outline.normal (build path raw))).label.typed.keywords =
      (build path raw).label.typed.normalFields (plainParts path raw) := by
    rw [label_normal, plain_build]
    rfl
  have htarget : (build path (Outline.normal (build path raw))).label.typed.target =
      (build path raw).label.typed.target := congrArg Typing.target h.ofSection_normal
  have hmixed : (build path (Outline.normal (build path raw))).label.typed.mixed =
      (build path raw).label.typed.mixed := by
    rw [mixed_build, mixed_build, (h.parts_normal distinct).2]
  rw [normal_eq, plain_build, hchildren,
    Attributes.normalFields_normalFields hkeywords htarget hmixed, normal_eq, plain_build]

end Outline

end FormSchema
