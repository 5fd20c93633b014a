import FormSchema.Proofs.Schema.Normal

/-!
Schemas without references.  To inline the references of such a schema leaves it as it is, and its
plain schema has no references either.
-/

namespace FormSchema

namespace Definitions

variable {source : Source} {fresh : List String} {pointer : String}

/-- A value without references stays as it is. -/
theorem Resolved.inlineValue {root : Bool} {value : Json}
    (h : Resolved source.namespaces root value) (hroot : pointer.isEmpty = root) :
    inlineValue source fresh pointer value = .ok (value, []) := by
  induction h generalizing pointer with
  | scalar harr hobj => exact inlineValue_scalar harr hobj
  | arr _ ih =>
    rw [Definitions.inlineValue, inlineItems_eq fun item hitem => ih item hitem hroot, List.map_id']
    rfl
  | @obj root fields free _ _ ihproperties ihothers =>
    subst hroot
    have hfield (field : String × Json) (hmem : field ∈ fields) :
        inlineField source fresh pointer field = .ok (field.2, []) := by
      rw [inlineField]
      split
      · rfl
      · rename_i hkept
        have hkept := Bool.eq_false_iff.2 hkept
        split
        · rename_i hkey
          split
          · rename_i properties hproperties
            rw [inlineProperties_eq fun property hproperty =>
              ihproperties field hmem hkept hkey properties hproperties property hproperty
                (isEmpty_child pointer property.1), Fields.mapValues_snd, hproperties]
            rfl
          · rfl
        · rename_i hkey
          exact ihothers field hmem hkept hkey (isEmpty_part pointer field.1)
    have hfields := inlineFields_eq hfield
    rw [Fields.mapValues_snd] at hfields
    rw [Definitions.inlineValue]
    split
    · rename_i reference hreference
      cases free _ (Json.mem_of_lookup hreference) rfl
    · rw [hfields]
      rfl

/-- A schema without references and definitions stays as it is. -/
theorem IsInlined.inline {dialect : Dialect} {document : Json} (h : IsInlined dialect document) :
    inline dialect document = .ok (document, []) := by
  cases document with
  | obj fields =>
    have hvalue : inlineValue ⟨fields, dialect.namespaces⟩ (references (.obj fields)).eraseDups ""
        (.obj fields) = .ok (.obj fields, []) := h.resolved.inlineValue rfl
    have herase := foldl_erase_eq_self (h.undefined fields rfl)
    rw [Definitions.inline, hvalue]
    simp only [bind, Except.bind, herase]
    rfl
  | _ => rfl

end Definitions

namespace Outline

open Definitions

variable {dialect : Dialect} {root : Bool} {raw : Json} {part : Slot × Json}

theorem isKept_rewritten (dialect : Dialect) (root : Bool) :
    ∀ key ∈ Attributes.rewritten, isKept dialect.namespaces root key = false := by
  cases dialect <;> cases root <;> decide

theorem resolvedField_of_schema {namespaces : List String} {key : String} {value : Json}
    (href : key ≠ refKey) (hproperties : key ≠ "properties")
    (h : Resolved namespaces (root && key != "items") value) :
    ResolvedField namespaces root (key, value) :=
  ⟨fun hkey => absurd hkey href, fun _ hkey => absurd hkey hproperties, fun _ _ => h⟩

theorem resolvedField_of_items {namespaces : List String} {value : Json}
    (h : Resolved namespaces false value) : ResolvedField namespaces root ("items", value) :=
  resolvedField_of_schema (by decide) (by decide) (by rwa [bne_self_eq_false, Bool.and_false])

theorem resolvedField_of_properties {namespaces : List String} {properties : Fields}
    (h : ∀ property ∈ properties, Resolved namespaces false property.2) :
    ResolvedField namespaces root ("properties", .obj properties) := by
  have href : "properties" ≠ refKey := by decide
  refine ⟨fun hkey => absurd hkey href, ?_, fun _ hkey => absurd rfl hkey⟩
  rintro - - _ ⟨⟩ property hproperty
  exact h property hproperty

theorem resolvedField_of_field? {value : Json} (h : Resolved dialect.namespaces root raw)
    (hvalue : raw.field? key = some value) :
    ResolvedField dialect.namespaces root (key, value) := by
  cases raw with
  | obj fields => exact resolved_obj_iff.1 h _ (Json.mem_of_lookup hvalue)
  | _ => cases hvalue

theorem resolved_variantSchema {items : Fields} {variant : Json}
    (hitems : Resolved dialect.namespaces root (.obj items))
    (h : Resolved dialect.namespaces root variant) :
    Resolved dialect.namespaces root (variantSchema items variant) := by
  cases variant with
  | obj fields =>
    rw [resolved_obj_iff] at hitems h
    refine resolved_obj_iff.2 fun field hfield => ?_
    rcases Fields.mem_overlay hfield with hfield | hfield
    · exact hitems field (List.mem_of_mem_filter hfield)
    · exact h field hfield
  | _ => exact h

/-- There are no references in the subschemas of a schema without references. -/
theorem resolved_of_mem_parts (h : Resolved dialect.namespaces root raw) (hpart : part ∈ parts raw) :
    Resolved dialect.namespaces false part.2 := by
  rcases List.mem_append.1 hpart with hpart | hpart
  · unfold propertyParts at hpart
    split at hpart
    · rename_i properties hproperties
      obtain ⟨field, hfield, rfl⟩ := List.mem_map.1 hpart
      exact (resolvedField_of_field? h hproperties).properties
        (isKept_rewritten dialect root "properties" (by decide)) rfl properties rfl field hfield
    · cases hpart
  · have below {items : Json} (hitems : raw.field? "items" = some items) :
        Resolved dialect.namespaces false items := by
      have := (resolvedField_of_field? h hitems).others
        (isKept_rewritten dialect root "items" (by decide)) (by simp)
      rwa [bne_self_eq_false, Bool.and_false] at this
    unfold itemParts at hpart
    split at hpart
    · rename_i items hitems
      have hitems := below hitems
      split at hpart
      · rename_i variants hvariants
        obtain ⟨i, hi, rfl⟩ := List.mem_mapIdx.1 hpart
        unfold variants? at hvariants
        split at hvariants
        · rename_i all hall
          obtain rfl := Option.some.inj hvariants
          have hall := (resolved_obj_iff.1 hitems _ (Json.mem_of_lookup hall)).others
            (by simp [isKept, dataKeywords]) (by simp)
          rw [List.getElem_map]
          exact resolved_variantSchema hitems (resolved_arr_iff.1 hall _ (List.getElem_mem _))
        · cases hvariants
      · obtain rfl := List.mem_singleton.1 hpart
        exact hitems
    · rename_i hitems
      obtain rfl := List.mem_singleton.1 hpart
      exact below hitems
    · cases hpart

theorem resolved_typeKeyword (namespaces : List String) (root : Bool) (target : KindSet) :
    Resolved namespaces root (Attributes.typeKeyword target) := by
  obtain ⟨only, -, htype⟩ | htype := Attributes.typeKeyword_eq target
  · rw [htype]
    exact .scalar rfl rfl
  · rw [htype]
    refine .arr fun item hitem => ?_
    obtain ⟨kind, -, rfl⟩ := List.mem_map.1 hitem
    exact .scalar rfl rfl

/-- There are no references in the plain schema of a schema without references. -/
theorem resolved_normal (path : List Slot) (h : Resolved dialect.namespaces root raw) :
    Resolved dialect.namespaces root (normal (build path raw)) := by
  induction raw using induct generalizing path root with
  | step raw ih =>
    have children (slot : Slot) (v : Json) (hpart : (slot, v) ∈ plainParts path raw) :
        Resolved dialect.namespaces false v := by
      obtain ⟨part, hmem, heq⟩ := List.mem_map.1 hpart
      obtain ⟨rfl, rfl⟩ := Prod.mk.inj heq
      exact ih part hmem _ (resolved_of_mem_parts h hmem)
    rw [normal_eq, plain_build, resolved_obj_iff]
    intro field hfield
    obtain hfield | rfl | rfl | rfl | ⟨item, hitem, rfl⟩ := Attributes.mem_normalFields hfield
    · rw [label_build] at hfield
      cases raw with
      | obj fields => exact resolved_obj_iff.1 h field hfield
      | bool b => cases b <;> cases hfield
      | _ => cases hfield
    · exact resolvedField_of_schema (by decide) (by decide) (resolved_typeKeyword _ _ _)
    · exact resolvedField_of_properties fun property hproperty =>
        children _ _ (Attributes.mem_named_iff.1 hproperty)
    · refine resolvedField_of_items (resolved_obj_iff.2 (List.forall_mem_singleton.2
        (resolvedField_of_schema (by decide) (by decide) (.arr fun variant hvariant => ?_))))
      obtain ⟨i, hpart⟩ := Attributes.mem_alternatives_iff.1 hvariant
      exact children _ _ hpart
    · exact resolvedField_of_items (children _ _ hitem)

/-- The plain schema of a schema without references and definitions has none either. -/
theorem isInlined_normal (h : IsInlined dialect raw) :
    IsInlined dialect (normal (ofJson raw)) := by
  refine ⟨resolved_normal [] h.resolved, ?_⟩
  have own : ∀ key ∈ Attributes.rewritten, key ∉ dialect.namespaces := by cases dialect <;> decide
  rintro fields hfields field hfield
  rw [normal_eq] at hfields
  obtain rfl := Json.obj.inj hfields
  rw [ofJson, plain_build] at hfield
  obtain hfield | rfl | rfl | rfl | ⟨item, hitem, rfl⟩ := Attributes.mem_normalFields hfield
  · rw [label_build] at hfield
    cases raw with
    | obj fields => exact h.undefined fields rfl field hfield
    | bool b => cases b <;> cases hfield
    | _ => cases hfield
  · exact own "type" (by decide)
  · exact own "properties" (by decide)
  · exact own "items" (by decide)
  · exact own "items" (by decide)

end Outline

end FormSchema
