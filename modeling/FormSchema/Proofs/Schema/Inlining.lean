import FormSchema.Schema.Definitions
import FormSchema.Proofs.Json.Path
import FormSchema.Proofs.Outcome

/-!
Definitions and objects.  Inlining sets keys on top of keys, so that each key of each object still
stands once when it is done, and it follows or drops every reference that it meets.
-/

namespace FormSchema

theorem nodup_eraseDups {α : Type} [BEq α] [LawfulBEq α] (l : List α) : l.eraseDups.Nodup := by
  induction hn : l.length using Nat.strongRecOn generalizing l with
  | ind n ih =>
    cases l with
    | nil => simp
    | cons a l =>
      have hlength := List.length_filter_le (fun b => !b == a) l
      rw [List.length_cons] at hn
      rw [List.eraseDups_cons, List.nodup_cons]
      refine ⟨by simp [List.mem_eraseDups], ih _ (by omega) _ rfl⟩

namespace Fields

/-- The fields with other values, of the same names in the same order. -/
def mapValues (out : String × Json → Json) (fields : Fields) : Fields :=
  fields.map fun field => (field.1, out field)

theorem mapValues_snd (fields : Fields) : mapValues (·.2) fields = fields := List.map_id' fields

theorem keysDistinct_iff {fields : Fields} :
    (Json.obj fields).keysDistinct = true ↔
      (fields.map (·.1)).Nodup ∧ ∀ field ∈ fields, field.2.keysDistinct = true := by
  rw [Json.keysDistinct, Bool.and_eq_true, decide_eq_true_iff, Json.fieldsKeysDistinct_iff]

theorem keysDistinct_of_lookup {fields : Fields} {key : String} {v : Json}
    (h : (Json.obj fields).keysDistinct = true) (hv : fields.lookup key = some v) :
    v.keysDistinct = true :=
  (keysDistinct_iff.1 h).2 _ (Json.mem_of_lookup hv)

theorem mem_set {key : String} {v : Json} {fields : Fields} {field : String × Json}
    (h : field ∈ set key v fields) : field = (key, v) ∨ field ∈ fields := by
  induction fields with
  | nil => exact .inl (List.mem_singleton.1 h)
  | cons head fields ih =>
    obtain ⟨k, w⟩ := head
    rw [set] at h
    split at h
    · rename_i hk
      rcases List.mem_cons.1 h with rfl | h
      · exact .inl (by rw [hk])
      · exact .inr (List.mem_cons_of_mem _ h)
    · rcases List.mem_cons.1 h with rfl | h
      · exact .inr List.mem_cons_self
      · exact (ih h).imp id (List.mem_cons_of_mem _)

/-- What already stands under a key can be set again. -/
theorem set_eq_self {key : String} {v : Json} {fields : Fields} (h : fields.lookup key = some v) :
    set key v fields = fields := by
  induction fields with
  | nil => cases h
  | cons head fields ih =>
    obtain ⟨k, w⟩ := head
    by_cases hk : k = key
    · subst hk
      rw [List.lookup_cons_self] at h
      rw [set, if_pos rfl, Option.some.inj h]
    · rw [List.lookup_cons, beq_false_of_ne fun e => hk e.symm] at h
      rw [set, if_neg hk, ih h]

theorem set_eq_append {key : String} {v : Json} {fields : Fields} (h : key ∉ fields.map (·.1)) :
    set key v fields = fields ++ [(key, v)] := by
  induction fields with
  | nil => rfl
  | cons head fields ih =>
    obtain ⟨k, w⟩ := head
    rw [List.map_cons, List.mem_cons, not_or] at h
    rw [set, if_neg fun e => h.1 e.symm, ih h.2, List.cons_append]

theorem filter_set {p : String → Bool} {key : String} (h : p key = false) (v : Json)
    (fields : Fields) :
    (set key v fields).filter (fun field => p field.1) = fields.filter fun field => p field.1 := by
  induction fields with
  | nil => simp [h]
  | cons head fields ih =>
    obtain ⟨k, w⟩ := head
    rw [set]
    split
    · rename_i hk
      subst hk
      simp [h]
    · rw [List.filter_cons, List.filter_cons, ih]

theorem lookup_filter {p : String → Bool} {key : String} (h : p key = true) (fields : Fields) :
    (fields.filter fun field => p field.1).lookup key = fields.lookup key := by
  induction fields with
  | nil => rfl
  | cons field fields ih =>
    obtain ⟨k, v⟩ := field
    by_cases hk : key = k
    · subst hk
      rw [List.filter_cons, if_pos h, List.lookup_cons_self, List.lookup_cons_self]
    · rw [List.filter_cons, List.lookup_cons, beq_false_of_ne hk]
      split
      · rw [List.lookup_cons, beq_false_of_ne hk, ih]
      · exact ih

theorem mem_overlay {fields layer : Fields} {field : String × Json}
    (h : field ∈ overlay fields layer) : field ∈ fields ∨ field ∈ layer := by
  induction layer generalizing fields with
  | nil => exact .inl h
  | cons head layer ih =>
    rcases ih h with h | h
    · rcases mem_set h with rfl | h
      · exact .inr List.mem_cons_self
      · exact .inl h
    · exact .inr (List.mem_cons_of_mem _ h)

theorem overlay_eq_append {fields layer : Fields} (h : ((fields ++ layer).map (·.1)).Nodup) :
    overlay fields layer = fields ++ layer := by
  induction layer generalizing fields with
  | nil => exact (List.append_nil _).symm
  | cons field layer ih =>
    have hfield : field.1 ∉ fields.map (·.1) := by
      rw [List.map_append, List.map_cons] at h
      exact fun hmem => List.disjoint_of_nodup_append h hmem List.mem_cons_self
    have hset : set field.1 field.2 fields = fields ++ [field] := set_eq_append hfield
    rw [overlay, List.foldl_cons, hset, ← overlay, ih (by simpa using h), List.append_assoc]
    rfl

theorem mem_names_set_iff {key other : String} {v : Json} {fields : Fields} :
    other ∈ (set key v fields).map (·.1) ↔ other = key ∨ other ∈ fields.map (·.1) := by
  induction fields with
  | nil => simp
  | cons head fields ih =>
    obtain ⟨k, w⟩ := head
    by_cases hk : k = key
    · simp [set, hk]
    · rw [set, if_neg hk, List.map_cons, List.mem_cons, ih, List.map_cons, List.mem_cons]
      exact or_left_comm

theorem nodup_names_set {key : String} {v : Json} {fields : Fields}
    (h : (fields.map (·.1)).Nodup) : ((set key v fields).map (·.1)).Nodup := by
  induction fields with
  | nil => simp
  | cons head fields ih =>
    obtain ⟨k, w⟩ := head
    rw [List.map_cons, List.nodup_cons] at h
    by_cases hk : k = key
    · rw [set, if_pos hk, List.map_cons, List.nodup_cons]
      exact h
    · rw [set, if_neg hk, List.map_cons, List.nodup_cons, mem_names_set_iff]
      exact ⟨not_or.2 ⟨hk, h.1⟩, ih h.2⟩

theorem keysDistinct_set {key : String} {v : Json} {fields : Fields}
    (h : (Json.obj fields).keysDistinct = true) (hv : v.keysDistinct = true) :
    (Json.obj (set key v fields)).keysDistinct = true := by
  rw [keysDistinct_iff] at h ⊢
  refine ⟨nodup_names_set h.1, fun field hfield => ?_⟩
  rcases mem_set hfield with rfl | hfield
  · exact hv
  · exact h.2 field hfield

theorem keysDistinct_overlay {fields layer : Fields} (h : (Json.obj fields).keysDistinct = true)
    (hlayer : ∀ field ∈ layer, field.2.keysDistinct = true) :
    (Json.obj (overlay fields layer)).keysDistinct = true := by
  induction layer generalizing fields with
  | nil => exact h
  | cons field layer ih =>
    exact ih (keysDistinct_set h (hlayer field List.mem_cons_self)) fun other hother =>
      hlayer other (List.mem_cons_of_mem _ hother)

theorem keysDistinct_erase {fields : Fields} (key : String)
    (h : (Json.obj fields).keysDistinct = true) :
    (Json.obj (erase fields key)).keysDistinct = true := by
  rw [keysDistinct_iff] at h ⊢
  exact ⟨h.1.sublist (List.filter_sublist.map _), fun field hf => h.2 field (List.mem_of_mem_filter hf)⟩

end Fields

namespace Definitions

variable {source : Source} {fresh : List String} {pointer : String}

theorem keysDistinct_of_found {reference : String} {definition : Json}
    (hs : (Json.obj source.fields).keysDistinct = true)
    (h : source.target reference = .found definition) : definition.keysDistinct = true := by
  rw [Source.target] at h
  split at h
  · simp at h
  · split at h
    · simp at h
    · rename_i home name _ _ entries hentries
      split at h
      · simp at h
      · rename_i found hfound
        obtain rfl := Target.found.inj h
        obtain ⟨section_, hsection, hobj⟩ := Option.bind_eq_some_iff.1 hentries
        have := Fields.keysDistinct_of_lookup hs hsection
        cases section_ with
        | obj fields =>
          obtain rfl := Option.some.inj hobj
          exact Fields.keysDistinct_of_lookup this hfound
        | _ => simp [Json.obj?] at hobj

theorem keysDistinct_definitionFields (pointer : String) {definition : Json}
    (h : definition.keysDistinct = true) :
    (Json.obj (definitionFields pointer definition).1).keysDistinct = true := by
  unfold definitionFields
  split
  · exact h
  · rfl
  · rfl

/-- Fields of the same names whose values are no worse make an object that is no worse. -/
theorem keysDistinct_of_names {fields out : Fields} (h : (Json.obj fields).keysDistinct = true)
    (names : out.map (·.1) = fields.map (·.1)) (values : ∀ field ∈ out, field.2.keysDistinct = true) :
    (Json.obj out).keysDistinct = true := by
  rw [Fields.keysDistinct_iff] at h ⊢
  exact ⟨names ▸ h.1, values⟩

/-- Whether the value of a keyword stays as it is; only the root has definitions. -/
def isKept (namespaces : List String) (root : Bool) (key : String) : Bool :=
  dataKeywords.contains key || (root && namespaces.contains key)

/-- Whether no reference is left in a value, apart from data and from the definitions. -/
inductive Resolved (namespaces : List String) : Bool → Json → Prop where
  | scalar {root : Bool} {value : Json} (arr : value.arr? = none) (obj : value.obj? = none) :
      Resolved namespaces root value
  | arr {root : Bool} {items : List Json} (all : ∀ item ∈ items, Resolved namespaces root item) :
      Resolved namespaces root (.arr items)
  | obj {root : Bool} {fields : Fields}
      (free : ∀ field ∈ fields, field.1 = refKey → field.2.str? = none)
      (properties : ∀ field ∈ fields, isKept namespaces root field.1 = false →
        field.1 = "properties" → ∀ properties, field.2 = .obj properties →
          ∀ property ∈ properties, Resolved namespaces false property.2)
      (others : ∀ field ∈ fields, isKept namespaces root field.1 = false →
        field.1 ≠ "properties" → Resolved namespaces (root && field.1 != "items") field.2) :
      Resolved namespaces root (.obj fields)

/-- Whether no reference is left in a field. -/
structure ResolvedField (namespaces : List String) (root : Bool) (field : String × Json) :
    Prop where
  free : field.1 = refKey → field.2.str? = none
  properties : isKept namespaces root field.1 = false → field.1 = "properties" →
    ∀ properties, field.2 = .obj properties →
      ∀ property ∈ properties, Resolved namespaces false property.2
  others : isKept namespaces root field.1 = false → field.1 ≠ "properties" →
    Resolved namespaces (root && field.1 != "items") field.2

theorem resolved_obj_iff {namespaces : List String} {root : Bool} {fields : Fields} :
    Resolved namespaces root (.obj fields) ↔
      ∀ field ∈ fields, ResolvedField namespaces root field := by
  constructor
  · intro h field hfield
    cases h with
    | scalar _ hobj => cases hobj
    | obj free properties others =>
      exact ⟨free field hfield, properties field hfield, others field hfield⟩
  · intro h
    exact .obj (fun field hfield => (h field hfield).free)
      (fun field hfield => (h field hfield).properties) fun field hfield => (h field hfield).others

theorem resolved_arr_iff {namespaces : List String} {root : Bool} {items : List Json} :
    Resolved namespaces root (.arr items) ↔ ∀ item ∈ items, Resolved namespaces root item := by
  constructor
  · intro h
    cases h with
    | scalar harr => cases harr
    | arr all => exact all
  · exact .arr

/-- What a value has become when its references are inlined. -/
structure Inlined (source : Source) (pointer : String) (value out : Json) : Prop where
  distinct : out.keysDistinct = true
  resolved : Resolved source.namespaces pointer.isEmpty out
  /-- Only a text becomes a text. -/
  text : value.str? = none → out.str? = none

/-- Whether the fields of an object have become others by name, each without a reference. -/
structure InlinedFields (source : Source) (pointer : String) (fields out : Fields) : Prop where
  names : out.map (·.1) = fields.map (·.1)
  distinct : ∀ field ∈ out, field.2.keysDistinct = true
  resolved : ∀ field ∈ out, ResolvedField source.namespaces pointer.isEmpty field

theorem InlinedFields.obj {fields rest out : Fields}
    (h : InlinedFields source pointer rest out) (hrest : (Json.obj rest).keysDistinct = true) :
    Inlined source pointer (.obj fields) (.obj out) :=
  ⟨keysDistinct_of_names hrest h.names h.distinct, resolved_obj_iff.2 h.resolved, fun _ => rfl⟩

/-- The first field and the others make the fields of an object. -/
theorem InlinedFields.cons {key : String} {given value : Json} {fields out : Fields}
    (h : InlinedFields source pointer fields out) (distinct : value.keysDistinct = true)
    (resolved : ResolvedField source.namespaces pointer.isEmpty (key, value)) :
    InlinedFields source pointer ((key, given) :: fields) ((key, value) :: out) :=
  ⟨by rw [List.map_cons, List.map_cons, h.names], List.forall_mem_cons.2 ⟨distinct, h.distinct⟩,
    List.forall_mem_cons.2 ⟨resolved, h.resolved⟩⟩

theorem isEmpty_child (pointer token : String) : (Pointer.child pointer token).isEmpty = false := by
  simp [Pointer.child, Pointer.tokenText]

/-- Only the schemas of properties and of items describe other data than the root. -/
theorem isEmpty_part (pointer key : String) :
    (if key = "items" then Pointer.child pointer "*" else pointer).isEmpty =
      (pointer.isEmpty && key != "items") := by
  by_cases hitems : key = "items" <;> simp [hitems, isEmpty_child]

theorem free_erase (fields : Fields) :
    ∀ field ∈ Fields.erase fields refKey, field.1 = refKey → field.2.str? = none := by
  intro field hfield hkey
  exact absurd hkey (by simpa using (List.mem_filter.1 hfield).2)

theorem free_of_lookup {fields : Fields} (distinct : (Json.obj fields).keysDistinct = true)
    (h : ∀ text, fields.lookup refKey ≠ some (.str text)) :
    ∀ field ∈ fields, field.1 = refKey → field.2.str? = none := by
  rintro ⟨key, v⟩ hfield rfl
  have hlookup := Key.lookup_eq_some_of_mem (Fields.keysDistinct_iff.1 distinct).1 hfield
  cases v with
  | str text => exact absurd hlookup (h text)
  | _ => rfl

/-! What the steps give. -/

section Steps

variable {fields : Fields}

theorem inlineValue_scalar {v : Json} (arr : v.arr? = none) (obj : v.obj? = none) :
    inlineValue source fresh pointer v = .ok (v, []) := by
  cases v with
  | arr items => cases arr
  | obj fields => cases obj
  | _ => simp [inlineValue, pure, Except.pure]

theorem inlineItems_eq {items : List Json} {out : Json → Json}
    (h : ∀ item ∈ items, inlineValue source fresh pointer item = .ok (out item, [])) :
    inlineItems source fresh pointer items = .ok (items.map out, []) := by
  induction items with
  | nil => rw [inlineItems]; rfl
  | cons item items ih =>
    rw [List.forall_mem_cons] at h
    rw [inlineItems, h.1, ih h.2]
    rfl

theorem inlineProperties_eq {properties : Fields} {out : String × Json → Json}
    (h : ∀ property ∈ properties,
      inlineValue source fresh (Pointer.child pointer property.1) property.2 =
        .ok (out property, [])) :
    inlineProperties source fresh pointer properties =
      .ok (Fields.mapValues out properties, []) := by
  induction properties with
  | nil => rw [inlineProperties]; rfl
  | cons property properties ih =>
    rw [List.forall_mem_cons] at h
    rw [inlineProperties, h.1, ih h.2]
    rfl

/-- What becomes of the value of one keyword. -/
def inlineField (source : Source) (fresh : List String) (pointer : String) (field : String × Json) :
    Except Refusal (Json × List Problem) :=
  if isKept source.namespaces pointer.isEmpty field.1 then .ok (field.2, [])
  else if field.1 = "properties" then
    match field.2 with
    | .obj properties =>
      (inlineProperties source fresh pointer properties).map fun out => (.obj out.1, out.2)
    | other => .ok (other, [])
  else
    inlineValue source fresh (if field.1 = "items" then Pointer.child pointer "*" else pointer)
      field.2

theorem inlineFields_cons (field : String × Json) (fields : Fields) :
    inlineFields source fresh pointer (field :: fields) =
      (inlineField source fresh pointer field).bind fun head =>
        (inlineFields source fresh pointer fields).bind fun tail =>
          .ok ((field.1, head.1) :: tail.1, head.2 ++ tail.2) := by
  obtain ⟨key, given⟩ := field
  rw [inlineField]
  conv => lhs; unfold inlineFields
  by_cases hkept : isKept source.namespaces pointer.isEmpty key = true
  · rw [if_pos hkept]
    rw [isKept] at hkept
    simp only [hkept, if_true]
    rfl
  · rw [if_neg hkept]
    rw [isKept, Bool.not_eq_true] at hkept
    by_cases hproperties : key = "properties"
    · subst hproperties
      simp only [hkept, Bool.false_eq_true, if_false, if_true]
      cases given with
      | obj properties =>
        dsimp only
        cases inlineProperties source fresh pointer properties <;> rfl
      | _ => rfl
    · simp only [hkept, Bool.false_eq_true, hproperties, if_false]
      rfl

theorem inlineFields_eq {out : String × Json → Json}
    (h : ∀ field ∈ fields, inlineField source fresh pointer field = .ok (out field, [])) :
    inlineFields source fresh pointer fields = .ok (Fields.mapValues out fields, []) := by
  induction fields with
  | nil => rw [inlineFields]; rfl
  | cons field fields ih =>
    rw [List.forall_mem_cons] at h
    rw [inlineFields_cons, h.1, ih h.2]
    rfl

end Steps

/-- The value of a keyword has no reference if the schemas in it have none. -/
theorem inlined_inlineField {field : String × Json} {out : Json × List Problem}
    (hv : field.2.keysDistinct = true) (free : field.1 = refKey → field.2.str? = none)
    (properties : ∀ properties out, field.2 = .obj properties →
      inlineProperties source fresh pointer properties = .ok out →
        out.1.map (·.1) = properties.map (·.1) ∧ ∀ field ∈ out.1,
          field.2.keysDistinct = true ∧ Resolved source.namespaces false field.2)
    (other : ∀ pointer out, inlineValue source fresh pointer field.2 = .ok out →
      Inlined source pointer field.2 out.1)
    (h : inlineField source fresh pointer field = .ok out) :
    out.1.keysDistinct = true ∧
      ResolvedField source.namespaces pointer.isEmpty (field.1, out.1) := by
  obtain ⟨key, given⟩ := field
  rw [inlineField] at h
  split at h
  · rename_i hkept
    obtain rfl := Except.ok.inj h
    exact ⟨hv, free, fun h => by simp [hkept] at h, fun h => by simp [hkept] at h⟩
  · split at h
    · rename_i hproperties
      obtain rfl : key = "properties" := hproperties
      have hkey : "properties" ≠ refKey := by decide
      cases given with
      | obj given =>
        obtain ⟨inner, hinner, rfl⟩ := map_eq_ok.1 h
        obtain ⟨names, values⟩ := properties given inner rfl hinner
        refine ⟨keysDistinct_of_names hv names fun field hfield => (values field hfield).1,
          fun h => absurd h hkey, ?_, fun _ h => absurd rfl h⟩
        rintro - - _ ⟨⟩ property hproperty
        exact (values property hproperty).2
      | _ =>
        obtain rfl := Except.ok.inj h
        exact ⟨hv, free, fun _ _ => nofun, fun _ h => absurd rfl h⟩
    · rename_i hproperties
      have := other _ out h
      exact ⟨this.distinct, fun h => this.text (free h), fun _ h => absurd h hproperties,
        fun _ _ => isEmpty_part pointer key ▸ this.resolved⟩

mutual

theorem inlined_inlineValue (hs : (Json.obj source.fields).keysDistinct = true)
    {fresh : List String} {pointer : String} {value : Json} {out : Json × List Problem}
    (hv : value.keysDistinct = true) (h : inlineValue source fresh pointer value = .ok out) :
    Inlined source pointer value out.1 := by
  cases hvalue : value with
  | obj fields =>
    rw [hvalue] at hv h
    rw [inlineValue] at h
    have hsize : 2 * Json.sizeFields fields + 1 < 2 * value.size := by
      rw [hvalue, Json.size]
      omega
    have herase : 2 * Json.sizeFields (Fields.erase fields refKey) + 1 < 2 * value.size := by
      have := Json.sizeFields_erase_le refKey fields
      omega
    have siblings := Fields.keysDistinct_erase refKey hv
    split at h
    · rename_i reference _
      simp only at h
      split at h
      · simp [throw, throwThe, MonadExceptOf.throw] at h
      · obtain ⟨inner, hinner, h⟩ := bind_eq_ok.1 h
        obtain rfl := Except.ok.inj h
        exact (inlined_inlineFields hs (Fields.keysDistinct_iff.1 siblings).2 (free_erase fields)
          hinner).obj siblings
      · rename_i definition hfound
        split at h
        · rename_i hfresh
          have hlength : (fresh.erase reference).length < fresh.length := by
            rw [List.length_erase_of_mem hfresh]
            have := List.length_pos_of_mem hfresh
            omega
          obtain ⟨inner, hinner, h⟩ := bind_eq_ok.1 h
          obtain rfl := Except.ok.inj h
          have base := keysDistinct_definitionFields pointer (keysDistinct_of_found hs hfound)
          have whole := Fields.keysDistinct_overlay base (Fields.keysDistinct_iff.1 siblings).2
          have := inlined_inlineValue hs whole hinner
          exact ⟨this.distinct, this.resolved, fun _ => this.text rfl⟩
        · obtain ⟨inner, hinner, h⟩ := bind_eq_ok.1 h
          obtain rfl := Except.ok.inj h
          exact (inlined_inlineFields hs (Fields.keysDistinct_iff.1 siblings).2 (free_erase fields)
            hinner).obj siblings
    · rename_i hreference
      obtain ⟨inner, hinner, h⟩ := bind_eq_ok.1 h
      obtain rfl := Except.ok.inj h
      exact (inlined_inlineFields hs (Fields.keysDistinct_iff.1 hv).2
        (free_of_lookup hv hreference) hinner).obj hv
  | arr items =>
    rw [hvalue] at hv h
    rw [inlineValue] at h
    have hsize : 2 * Json.sizeItems items + 1 < 2 * value.size := by
      rw [hvalue, Json.size]
      omega
    obtain ⟨inner, hinner, h⟩ := bind_eq_ok.1 h
    obtain rfl := Except.ok.inj h
    rw [Json.keysDistinct, Json.itemsKeysDistinct_iff] at hv
    have := inlined_inlineItems hs hv hinner
    refine ⟨?_, .arr fun item hitem => (this item hitem).2, fun _ => rfl⟩
    rw [Json.keysDistinct, Json.itemsKeysDistinct_iff]
    exact fun item hitem => (this item hitem).1
  | _ =>
    rw [hvalue] at hv h
    rw [inlineValue] at h
    · obtain rfl := Except.ok.inj h
      exact ⟨hv, .scalar rfl rfl, id⟩
    all_goals simp
termination_by (fresh.length, 2 * value.size)
decreasing_by
  all_goals
    first
    | exact Prod.Lex.right _ (by assumption)
    | exact Prod.Lex.left _ _ (by assumption)

theorem inlined_inlineItems (hs : (Json.obj source.fields).keysDistinct = true)
    {fresh : List String} {pointer : String} {items : List Json} {out : List Json × List Problem}
    (hv : ∀ item ∈ items, item.keysDistinct = true)
    (h : inlineItems source fresh pointer items = .ok out) :
    ∀ item ∈ out.1,
      item.keysDistinct = true ∧ Resolved source.namespaces pointer.isEmpty item := by
  cases hitems : items with
  | nil =>
    rw [hitems] at h
    unfold inlineItems at h
    obtain rfl := Except.ok.inj h
    simp
  | cons item rest =>
    rw [hitems] at hv h
    unfold inlineItems at h
    have hitem : 2 * item.size < 2 * Json.sizeItems items + 1 := by
      rw [hitems, Json.sizeItems]
      omega
    have hrest : 2 * Json.sizeItems rest + 1 < 2 * Json.sizeItems items + 1 := by
      have := item.size_pos
      rw [hitems, Json.sizeItems]
      omega
    obtain ⟨head, hhead, h⟩ := bind_eq_ok.1 h
    obtain ⟨tail, htail, h⟩ := bind_eq_ok.1 h
    obtain rfl := Except.ok.inj h
    rw [List.forall_mem_cons] at hv ⊢
    have := inlined_inlineValue hs hv.1 hhead
    exact ⟨⟨this.distinct, this.resolved⟩, inlined_inlineItems hs hv.2 htail⟩
termination_by (fresh.length, 2 * Json.sizeItems items + 1)
decreasing_by
  all_goals exact Prod.Lex.right _ (by assumption)

theorem inlined_inlineFields (hs : (Json.obj source.fields).keysDistinct = true)
    {fresh : List String} {pointer : String} {fields : Fields} {out : Fields × List Problem}
    (hv : ∀ field ∈ fields, field.2.keysDistinct = true)
    (free : ∀ field ∈ fields, field.1 = refKey → field.2.str? = none)
    (h : inlineFields source fresh pointer fields = .ok out) :
    InlinedFields source pointer fields out.1 := by
  cases hfields : fields with
  | nil =>
    rw [hfields] at h
    unfold inlineFields at h
    obtain rfl := Except.ok.inj h
    exact ⟨rfl, nofun, nofun⟩
  | cons field rest =>
    rw [hfields] at hv free h
    rw [inlineFields_cons] at h
    rw [List.forall_mem_cons] at hv free
    have hgiven : 2 * field.2.size < 2 * Json.sizeFields fields + 1 := by
      rw [hfields, Json.sizeFields]
      omega
    have hrest : 2 * Json.sizeFields rest + 1 < 2 * Json.sizeFields fields + 1 := by
      have := field.2.size_pos
      rw [hfields, Json.sizeFields]
      omega
    obtain ⟨head, hhead, h⟩ := bind_eq_ok.1 h
    obtain ⟨tail, htail, h⟩ := bind_eq_ok.1 h
    obtain rfl := Except.ok.inj h
    have hfield := inlined_inlineField hv.1 free.1 (fun properties out hobj hinner => by
      have hsize : 2 * Json.sizeFields properties + 1 < 2 * Json.sizeFields fields + 1 := by
        rw [hobj, Json.size] at hgiven
        omega
      rw [hobj] at hv
      exact inlined_inlineProperties hs (Fields.keysDistinct_iff.1 hv.1).2 hinner)
      (fun _ _ hinner => inlined_inlineValue hs hv.1 hinner) hhead
    exact (inlined_inlineFields hs hv.2 free.2 htail).cons hfield.1 hfield.2
termination_by (fresh.length, 2 * Json.sizeFields fields + 1)
decreasing_by
  all_goals exact Prod.Lex.right _ (by assumption)

theorem inlined_inlineProperties (hs : (Json.obj source.fields).keysDistinct = true)
    {fresh : List String} {pointer : String} {properties : Fields} {out : Fields × List Problem}
    (hv : ∀ field ∈ properties, field.2.keysDistinct = true)
    (h : inlineProperties source fresh pointer properties = .ok out) :
    out.1.map (·.1) = properties.map (·.1) ∧
      ∀ field ∈ out.1, field.2.keysDistinct = true ∧ Resolved source.namespaces false field.2 := by
  cases hproperties : properties with
  | nil =>
    rw [hproperties] at h
    unfold inlineProperties at h
    obtain rfl := Except.ok.inj h
    simp
  | cons field rest =>
    obtain ⟨name, value⟩ := field
    rw [hproperties] at hv h
    unfold inlineProperties at h
    have hvalue : 2 * value.size < 2 * Json.sizeFields properties + 1 := by
      rw [hproperties, Json.sizeFields]
      omega
    have hrest : 2 * Json.sizeFields rest + 1 < 2 * Json.sizeFields properties + 1 := by
      have := value.size_pos
      rw [hproperties, Json.sizeFields]
      omega
    rw [List.forall_mem_cons] at hv
    obtain ⟨head, hhead, h⟩ := bind_eq_ok.1 h
    obtain ⟨tail, htail, h⟩ := bind_eq_ok.1 h
    obtain rfl := Except.ok.inj h
    obtain ⟨names, values⟩ := inlined_inlineProperties hs hv.2 htail
    have := inlined_inlineValue hs hv.1 hhead
    have hresolved := this.resolved
    rw [isEmpty_child] at hresolved
    exact ⟨by simp [names], List.forall_mem_cons.2 ⟨⟨this.distinct, hresolved⟩, values⟩⟩
termination_by (fresh.length, 2 * Json.sizeFields properties + 1)
decreasing_by
  all_goals exact Prod.Lex.right _ (by assumption)

end

theorem mem_foldl_erase {namespaces : List String} {fields : Fields} {field : String × Json} :
    field ∈ namespaces.foldl Fields.erase fields ↔ field ∈ fields ∧ field.1 ∉ namespaces := by
  induction namespaces generalizing fields with
  | nil => simp
  | cons name namespaces ih =>
    rw [List.foldl_cons, ih, Fields.erase, List.mem_filter, List.mem_cons, not_or, and_assoc]
    simp

theorem foldl_erase_eq_self {namespaces : List String} {fields : Fields}
    (h : ∀ field ∈ fields, field.1 ∉ namespaces) :
    namespaces.foldl Fields.erase fields = fields := by
  induction namespaces with
  | nil => rfl
  | cons name namespaces ih =>
    have hname : fields.erase name = fields := List.filter_eq_self.2 fun field hfield => by
      simpa using fun e : field.1 = name => h field hfield (e ▸ List.mem_cons_self)
    rw [List.foldl_cons, hname]
    exact ih fun field hfield hmem => h field hfield (List.mem_cons_of_mem _ hmem)

theorem keysDistinct_foldl_erase {namespaces : List String} {fields : Fields}
    (h : (Json.obj fields).keysDistinct = true) :
    (Json.obj (namespaces.foldl Fields.erase fields)).keysDistinct = true := by
  induction namespaces generalizing fields with
  | nil => exact h
  | cons name namespaces ih => exact ih (Fields.keysDistinct_erase name h)

/-- Whether a schema is left as it is when its references are inlined: there are none, and no
definitions. -/
structure IsInlined (dialect : Dialect) (document : Json) : Prop where
  resolved : Resolved dialect.namespaces true document
  undefined : ∀ fields, document = .obj fields → ∀ field ∈ fields, field.1 ∉ dialect.namespaces

variable {dialect : Dialect} {document : Json} {out : Json × List Problem}

theorem inline_eq_ok (hv : document.keysDistinct = true) (h : inline dialect document = .ok out) :
    out.1.keysDistinct = true ∧ (∀ fields, document = .obj fields → IsInlined dialect out.1) := by
  cases document with
  | obj fields =>
    obtain ⟨inner, hinner, h⟩ := bind_eq_ok.1 h
    obtain rfl := Except.ok.inj h
    have hout := inlined_inlineValue hv hv hinner
    obtain ⟨value, problems⟩ := inner
    have hresolved : Resolved dialect.namespaces true value := hout.resolved
    cases value with
    | obj out =>
      refine ⟨keysDistinct_foldl_erase hout.distinct, fun _ _ => ⟨?_, ?_⟩⟩
      · exact resolved_obj_iff.2 fun field hfield =>
          resolved_obj_iff.1 hresolved field (mem_foldl_erase.1 hfield).1
      · rintro _ ⟨⟩ field hfield
        exact (mem_foldl_erase.1 hfield).2
    | _ => exact ⟨hout.distinct, fun _ _ => ⟨hresolved, nofun⟩⟩
  | _ =>
    obtain rfl := Except.ok.inj h
    exact ⟨hv, nofun⟩

/-- No key stands twice in a schema whose references have been inlined. -/
theorem keysDistinct_inline (hv : document.keysDistinct = true)
    (h : inline dialect document = .ok out) : out.1.keysDistinct = true := (inline_eq_ok hv h).1

/-- No reference is left in a schema whose references have been inlined. -/
theorem isInlined_inline {fields : Fields} (hv : (Json.obj fields).keysDistinct = true)
    (h : inline dialect (.obj fields) = .ok out) : IsInlined dialect out.1 :=
  (inline_eq_ok hv h).2 fields rfl

end Definitions

end FormSchema
