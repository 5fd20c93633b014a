import FormSchema.Proofs.Schema.Regular
import FormSchema.Proofs.Schema.Relabel
import FormSchema.Proofs.Schema.Target
import FormSchema.Proofs.Validation.Parts

/-!
What the plain schema of a compiled one says.  It says what the outline says, with the kinds that
have been found as its types, and keeps every keyword but those for types, properties and items.
-/

namespace FormSchema

namespace Attributes

/-- What the keywords of a schema say about the kinds of its values. -/
def core (a : Attributes) : Attributes :=
  { toSection := a.toSection, target := a.target, base := a.base, nullable := a.nullable }

variable {β : Type} {a : Attributes} {children : List (Slot × Json)} {key : String}

/-- The children that hang in slots of properties, with the names of the properties. -/
def named (children : List (Slot × β)) : List (String × β) :=
  children.filterMap fun
    | (.property name, child) => some (name, child)
    | _ => none

theorem filterMap_eq_named {f : Slot × β → Option (String × β)}
    (property : ∀ name child, f (.property name, child) = some (name, child))
    (item : ∀ child, f (.item, child) = none) (variant : ∀ i child, f (.variant i, child) = none)
    (children : List (Slot × β)) : children.filterMap f = named children := by
  refine List.filterMap_congr fun part _ => ?_
  obtain ⟨slot, child⟩ := part
  cases slot with
  | property name => exact property name child
  | item => exact item child
  | variant i => exact variant i child

theorem mem_named_iff {children : List (Slot × β)} {field : String × β} :
    field ∈ named children ↔ (.property field.1, field.2) ∈ children := by
  rw [named, List.mem_filterMap]
  constructor
  · rintro ⟨⟨slot, child⟩, hpart, hsome⟩
    cases slot with
    | property name =>
      obtain rfl := Option.some.inj hsome
      exact hpart
    | _ => cases hsome
  · intro hpart
    exact ⟨_, hpart, rfl⟩

/-- Children that all hang in slots of properties are as many properties. -/
theorem map_named {children : List (Slot × β)}
    (h : ∀ part ∈ children, ∃ name, part.1 = .property name) :
    (named children).map (fun field => (Slot.property field.1, field.2)) = children := by
  induction children with
  | nil => rfl
  | cons part children ih =>
    obtain ⟨slot, child⟩ := part
    rw [List.forall_mem_cons] at h
    obtain ⟨name, rfl⟩ := h.1
    exact congrArg (_ :: ·) (ih h.2)

theorem named_eq_nil {children : List (Slot × β)}
    (h : ∀ part ∈ children, ∀ name, part.1 ≠ .property name) : named children = [] := by
  refine List.eq_nil_iff_forall_not_mem.2 fun field hfield => ?_
  exact h _ (mem_named_iff.1 hfield) _ rfl

theorem named_append (children more : List (Slot × β)) :
    named (children ++ more) = named children ++ named more := List.filterMap_append

/-- The properties of a schema whose slots stand once make an object. -/
theorem keysDistinct_named (nodup : (children.map (·.1)).Nodup)
    (hchildren : ∀ part ∈ children, part.2.keysDistinct = true) :
    (Json.obj (named children)).keysDistinct = true := by
  rw [Fields.keysDistinct_iff]
  constructor
  · induction children with
    | nil => exact List.nodup_nil
    | cons part children ih =>
      obtain ⟨slot, v⟩ := part
      rw [List.map_cons, List.nodup_cons] at nodup
      have rest := ih nodup.2 fun part hpart => hchildren part (List.mem_cons_of_mem _ hpart)
      cases slot with
      | property name =>
        refine List.nodup_cons.2 ⟨fun hmem => nodup.1 ?_, rest⟩
        obtain ⟨field, hfield, rfl⟩ := List.mem_map.1 hmem
        exact List.mem_map.2 ⟨_, mem_named_iff.1 hfield, rfl⟩
      | _ => exact rest
  · intro field hfield
    exact hchildren _ (mem_named_iff.1 hfield)

theorem lookup_named (children : List (Slot × β)) (name : String) :
    (named children).lookup name = children.lookup (.property name) := by
  induction children with
  | nil => rfl
  | cons part children ih =>
    obtain ⟨slot, child⟩ := part
    cases slot with
    | property other =>
      have : (Slot.property name == .property other) = (name == other) := by
        by_cases h : name = other <;> simp [h]
      simp only [named, List.filterMap_cons, List.lookup_cons, this] at ih ⊢
      rw [ih]
    | _ => exact ih

/-- The children that hang in slots of variants. -/
def alternatives (children : List (Slot × β)) : List β :=
  children.filterMap fun
    | (.variant _, child) => some child
    | _ => none

theorem mem_alternatives_iff {children : List (Slot × β)} {child : β} :
    child ∈ alternatives children ↔ ∃ i, (.variant i, child) ∈ children := by
  rw [alternatives, List.mem_filterMap]
  constructor
  · rintro ⟨⟨slot, child⟩, hpart, hsome⟩
    cases slot with
    | variant i =>
      obtain rfl := Option.some.inj hsome
      exact ⟨i, hpart⟩
    | _ => cases hsome
  · rintro ⟨i, hpart⟩
    exact ⟨_, hpart, rfl⟩

/-- Children that hang in the slots of variants, in their order, are as many variants. -/
theorem mapIdx_alternatives {children : List (Slot × β)} {n : Nat}
    (h : children.map (·.1) = (List.range n).map .variant) :
    (alternatives children).mapIdx (fun i child => (Slot.variant i, child)) = children := by
  have hslots (part : Slot × β) (hpart : part ∈ children) : ∃ i, part.1 = .variant i := by
    have hmem := List.mem_map_of_mem (f := (·.1)) hpart
    rw [h] at hmem
    obtain ⟨i, -, hi⟩ := List.mem_map.1 hmem
    exact ⟨i, hi.symm⟩
  have hall : alternatives children = children.map (·.2) := by
    rw [alternatives, ← List.filterMap_eq_map]
    refine List.filterMap_congr fun part hpart => ?_
    obtain ⟨i, hi⟩ := hslots part hpart
    obtain ⟨slot, child⟩ := part
    obtain rfl : slot = .variant i := hi
    rfl
  rw [hall]
  refine List.ext_getElem? fun i => ?_
  have hi : (children[i]?).map (·.1) = ((List.range n)[i]?).map Slot.variant := by
    rw [← List.getElem?_map, h, List.getElem?_map]
  rw [List.getElem?_mapIdx, List.getElem?_map]
  cases hpart : children[i]? with
  | none => rfl
  | some part =>
    rw [hpart] at hi
    obtain ⟨j, hj, hslot⟩ := Option.map_eq_some_iff.1 hi.symm
    obtain ⟨hlen, rfl⟩ := List.getElem?_eq_some_iff.1 hj
    rw [List.getElem_range] at hslot
    exact congrArg some (Prod.ext hslot rfl)

theorem alternatives_append (children more : List (Slot × β)) :
    alternatives (children ++ more) = alternatives children ++ alternatives more :=
  List.filterMap_append

/-- The fields of the plain schema. -/
def normalFields (a : Attributes) (children : List (Slot × Json)) : Fields :=
  a.withItems children (withProperties children (a.withType a.keywords))

theorem normal_eq (a : Attributes) (children : List (Slot × Json)) :
    a.normal children = .obj (a.normalFields children) := rfl

theorem withProperties_eq (children : List (Slot × Json)) (keywords : Fields) :
    withProperties children keywords =
      if named children = [] then keywords else keywords.set "properties" (.obj (named children)) := by
  unfold withProperties
  rw [filterMap_eq_named (fun _ _ => rfl) (fun _ => rfl) fun _ _ => rfl]
  cases named children with
  | nil => rfl
  | cons field fields => rfl

theorem withItems_eq (a : Attributes) (children : List (Slot × Json)) (keywords : Fields) :
    a.withItems children keywords =
      if a.mixed then keywords.set "items" (.obj [("oneOf", .arr (alternatives children))])
      else
        match children.lookup .item with
        | some item => keywords.set "items" item
        | none => keywords := by
  rw [withItems]
  refine if_congr Iff.rfl ?_ rfl
  congr 5
  refine List.filterMap_congr fun part _ => ?_
  obtain ⟨slot, child⟩ := part
  cases slot <;> rfl

/-- A field of the plain schema is a keyword of the schema or one of those that it has of its own. -/
theorem mem_normalFields {field : String × Json} (h : field ∈ a.normalFields children) :
    field ∈ a.keywords ∨ field = ("type", typeKeyword a.target) ∨
      field = ("properties", .obj (named children)) ∨
        field = ("items", .obj [("oneOf", .arr (alternatives children))]) ∨
          ∃ item, (.item, item) ∈ children ∧ field = ("items", item) := by
  have type (h : field ∈ a.withType a.keywords) :
      field ∈ a.keywords ∨ field = ("type", typeKeyword a.target) := by
    rw [withType] at h
    split at h
    · exact .inl h
    · exact (Fields.mem_set h).symm
  have properties (h : field ∈ withProperties children (a.withType a.keywords)) :
      field ∈ a.keywords ∨ field = ("type", typeKeyword a.target) ∨
        field = ("properties", .obj (named children)) := by
    rw [withProperties_eq] at h
    split at h
    · exact (type h).imp id .inl
    · rcases Fields.mem_set h with h | h
      · exact .inr (.inr h)
      · exact (type h).imp id .inl
  rw [normalFields, withItems_eq] at h
  split at h
  · rcases Fields.mem_set h with h | h
    · exact .inr (.inr (.inr (.inl h)))
    · exact (properties h).imp id (Or.imp id .inl)
  · split at h
    · rename_i item hitem
      rcases Fields.mem_set h with h | h
      · exact .inr (.inr (.inr (.inr ⟨item, Key.mem_of_lookup hitem, h⟩)))
      · exact (properties h).imp id (Or.imp id .inl)
    · exact (properties h).imp id (Or.imp id .inl)

theorem keysDistinct_typeKeyword (target : KindSet) : (typeKeyword target).keysDistinct = true := by
  obtain ⟨only, -, htype⟩ | htype := typeKeyword_eq target
  · rw [htype]
    rfl
  · rw [htype, Json.keysDistinct, Json.itemsKeysDistinct_iff]
    intro item hitem
    obtain ⟨kind, -, rfl⟩ := List.mem_map.1 hitem
    rfl

theorem keysDistinct_normalFields (keywords : (Json.obj a.keywords).keysDistinct = true)
    (nodup : (children.map (·.1)).Nodup) (parts : ∀ part ∈ children, part.2.keysDistinct = true) :
    (Json.obj (a.normalFields children)).keysDistinct = true := by
  have type : (Json.obj (a.withType a.keywords)).keysDistinct = true := by
    rw [withType]
    split
    · exact keywords
    · exact Fields.keysDistinct_set keywords (keysDistinct_typeKeyword a.target)
  have properties :
      (Json.obj (withProperties children (a.withType a.keywords))).keysDistinct = true := by
    rw [withProperties_eq]
    split
    · exact type
    · exact Fields.keysDistinct_set type (keysDistinct_named nodup parts)
  rw [normalFields, withItems_eq]
  split
  · refine Fields.keysDistinct_set properties (Fields.keysDistinct_iff.2 ⟨by simp, ?_⟩)
    rw [List.forall_mem_singleton, Json.keysDistinct, Json.itemsKeysDistinct_iff]
    intro variant hvariant
    obtain ⟨i, hpart⟩ := mem_alternatives_iff.1 hvariant
    exact parts _ hpart
  · split
    · rename_i item hitem
      exact Fields.keysDistinct_set properties (parts _ (Key.mem_of_lookup hitem))
    · exact properties

/-- The keywords that the plain schema has of its own. -/
def rewritten : List String := ["type", "properties", "items"]

theorem lookup_withType {keywords : Fields} (h : key ≠ "type") :
    (a.withType keywords).lookup key = keywords.lookup key := by
  rw [withType]
  split
  · rfl
  · exact Fields.lookup_set_ne h _ _

theorem lookup_withProperties {keywords : Fields} (h : key ≠ "properties") :
    (withProperties children keywords).lookup key = keywords.lookup key := by
  rw [withProperties_eq]
  split
  · rfl
  · exact Fields.lookup_set_ne h _ _

theorem lookup_withItems {keywords : Fields} (h : key ≠ "items") :
    (a.withItems children keywords).lookup key = keywords.lookup key := by
  rw [withItems]
  split
  · exact Fields.lookup_set_ne h _ _
  · split
    · exact Fields.lookup_set_ne h _ _
    · rfl

theorem lookup_normalFields (h : key ∉ rewritten) :
    (a.normalFields children).lookup key = a.keywords.lookup key := by
  simp only [rewritten, List.mem_cons, List.not_mem_nil, or_false, not_or] at h
  rw [normalFields, lookup_withItems h.2.2, lookup_withProperties h.2.1, lookup_withType h.1]

theorem lookup_type (h : a.target.toList ≠ []) :
    (a.normalFields children).lookup "type" = some (typeKeyword a.target) := by
  rw [normalFields, lookup_withItems (by decide), lookup_withProperties (by decide), withType,
    if_neg (by simpa using h), Fields.lookup_set_self]

theorem lookup_properties :
    (a.normalFields children).lookup "properties" =
      if named children = [] then a.keywords.lookup "properties"
      else some (.obj (named children)) := by
  rw [normalFields, lookup_withItems (by decide), withProperties_eq]
  split
  · exact lookup_withType (by decide)
  · exact Fields.lookup_set_self _ _ _

theorem lookup_items (unmixed : a.mixed = false) :
    (a.normalFields children).lookup "items" =
      (children.lookup .item).or (a.keywords.lookup "items") := by
  have hrest : (withProperties children (a.withType a.keywords)).lookup "items" =
      a.keywords.lookup "items" := by
    rw [lookup_withProperties (by decide), lookup_withType (by decide)]
  rw [normalFields, withItems, unmixed, if_neg Bool.false_ne_true]
  cases children.lookup .item with
  | none => exact hrest
  | some item => exact Fields.lookup_set_self _ _ _

theorem lookup_items_mixed (mixed : a.mixed = true) :
    (a.normalFields children).lookup "items" =
      some (.obj [("oneOf", .arr (alternatives children))]) := by
  rw [normalFields, withItems_eq, if_pos mixed, Fields.lookup_set_self]

end Attributes

/-- A section with what its keywords say about the kinds of its values. -/
def Section.typed (s : Section) : Attributes where
  toSection := s
  target := (Typing.ofSection s).target
  base := (Typing.ofSection s).base
  nullable := (Typing.ofSection s).nullable

/-- Whether a section is without problems. -/
structure Section.Valid (s : Section) : Prop where
  own : Outline.ownProblems s = []
  items : Outline.itemProblems s = []
  typing : (Typing.ofSection s).problem = none

theorem Section.Valid.exists_fields {s : Section} (h : s.Valid) : ∃ fields, s.raw = .obj fields := by
  have hown := h.own
  rw [Outline.ownProblems, List.append_eq_nil_iff] at hown
  cases hraw : s.raw with
  | obj fields => exact ⟨fields, rfl⟩
  | _ => simp [hraw] at hown

/-- The kinds that are found for a section without problems. -/
theorem Section.Valid.typed {s : Section} (h : s.Valid) {fields : Fields} (hraw : s.raw = .obj fields) :
    Inference.target fields = .ok s.typed.target ∧
      ∃ base, Inference.baseType s.typed.target = .ok (base, s.typed.nullable) ∧
        s.typed.base = some base := by
  have hproblem := h.typing
  have hbase : s.typed.base = (Typing.ofSection s).base := rfl
  have htarget : s.typed.target = (Typing.ofSection s).target := rfl
  have hnullable : s.typed.nullable = (Typing.ofSection s).nullable := rfl
  rw [hbase, htarget, hnullable]
  rw [Typing.ofSection, hraw] at hproblem ⊢
  dsimp only at hproblem ⊢
  cases hfound : Inference.target fields with
  | error e => simp [hfound] at hproblem
  | ok t =>
    simp only [hfound] at hproblem ⊢
    cases hpicked : Inference.baseType t with
    | error e => simp [hpicked] at hproblem
    | ok picked =>
      obtain ⟨base, nullable⟩ := picked
      simp only [hpicked] at hproblem ⊢
      cases hchoosing : Choosing.ofFields fields with
      | error e => simp [hchoosing] at hproblem
      | ok choosing => exact ⟨rfl, base, hpicked, rfl⟩

namespace Outline

/-- Whether no section of an outline has a problem. -/
def Valid (o : Tree Section) : Prop := ∀ s ∈ o.labels, s.Valid

/-- The plain schema of an outline. -/
def normal (o : Tree Section) : Json := o.fold fun s => s.typed.normal

variable {o : Tree Section} {path : List Slot} {raw : Json} {fields : Fields}

/-- What holds of a schema as soon as it holds of its subschemas holds of all schemas. -/
theorem induct {P : Json → Prop} (step : ∀ raw, (∀ part ∈ parts raw, P part.2) → P raw)
    (raw : Json) : P raw :=
  step raw fun part hpart =>
    have := size_parts_lt hpart
    induct step part.2
termination_by raw.size

theorem problems_eq_nil_iff :
    problems o = [] ↔ ∀ s ∈ o.labels, ownProblems s = [] ∧ itemProblems s = [] := by
  induction o using Tree.induct with
  | step o ih =>
    have parts : ∀ parts : List (Slot × Tree Section), (∀ part ∈ parts,
        problems part.2 = [] ↔ ∀ s ∈ part.2.labels, ownProblems s = [] ∧ itemProblems s = []) →
          (childProblems parts = [] ↔ ∀ s ∈ parts.flatMap fun part => part.2.labels,
            ownProblems s = [] ∧ itemProblems s = []) := by
      intro parts ih
      induction parts with
      | nil => simp [childProblems]
      | cons part parts ih' =>
        rw [List.forall_mem_cons] at ih
        rw [childProblems, List.append_eq_nil_iff, ih.1, ih' ih.2, List.flatMap_cons,
          List.forall_mem_append]
    have hchildren := parts o.children ih
    rw [Tree.labels_eq, List.forall_mem_cons, ← hchildren]
    cases o with
    | node s children =>
      rw [problems, List.append_eq_nil_iff, List.append_eq_nil_iff]
      exact and_right_comm

theorem Valid.label (h : Valid o) : o.label.Valid := by
  refine h _ ?_
  rw [Tree.labels_eq]
  exact List.mem_cons_self

theorem Valid.at? (h : Valid o) {slot : Slot} {u : Tree Section} (hu : o.at? slot = some u) :
    Valid u := by
  intro s hs
  refine h s ?_
  rw [Tree.labels_eq]
  exact List.mem_cons_of_mem _ (List.mem_flatMap.2 ⟨_, Key.mem_of_lookup hu, hs⟩)

/-- A schema without problems is an object. -/
theorem Valid.exists_fields (h : Valid (build path raw)) : ∃ fields, raw = .obj fields := by
  have hlabel := h.label
  rw [label_build] at hlabel
  obtain ⟨fields, hraw⟩ := hlabel.exists_fields
  cases raw with
  | obj fields => exact ⟨fields, rfl⟩
  | bool b =>
    cases b with
    | false => cases hraw
    | true =>
      -- Without keywords every kind is left.
      have htarget : Inference.target [] = .ok .universal := rfl
      obtain ⟨hfound, base, hbase, -⟩ := hlabel.typed (rfl : _ = Json.obj [])
      rw [htarget] at hfound
      rw [← Except.ok.inj hfound] at hbase
      cases hbase
  | _ => cases hraw

theorem at?_build (path : List Slot) (raw : Json) (slot : Slot) :
    (build path raw).at? slot = ((parts raw).lookup slot).map (build (path ++ [slot])) := by
  rw [Tree.at?, children_build]
  exact Key.lookup_map_snd (fun slot => build (path ++ [slot])) (parts raw) slot

theorem itemParts_ne_property {part : Slot × Json} (h : part ∈ itemParts raw) (name : String) :
    part.1 ≠ .property name := by
  have hmem := List.mem_map_of_mem (f := (·.1)) h
  intro hname
  rw [hname] at hmem
  rcases slots_itemParts raw with hslots | ⟨hslots, -⟩ | ⟨n, hslots, -⟩
  all_goals simp [hslots] at hmem

theorem lookup_parts_property (fields : Fields) (name : String) :
    (parts (.obj fields)).lookup (.property name) = Validation.property? fields name := by
  have hitems : (itemParts (.obj fields)).lookup (.property name) = none := by
    refine List.lookup_eq_none_iff.2 fun part hpart => ?_
    exact bne_iff_ne.2 (itemParts_ne_property hpart name).symm
  have hfield : (Json.obj fields).field? "properties" = fields.lookup "properties" := rfl
  rw [parts, List.lookup_append, hitems, Option.or_none, propertyParts, hfield,
    Validation.property?]
  cases fields.lookup "properties" with
  | none => rfl
  | some value =>
    cases value with
    | obj properties =>
      exact (Attributes.lookup_named _ _).symm.trans (congrArg _ (by simp [Attributes.named]))
    | _ => rfl

/-- What hangs in the slot of all items where no items are told apart by variants. -/
theorem Valid.items (h : Valid (build path (.obj fields))) (unmixed : isMixed (.obj fields) = false) :
    fields.lookup "items" = none ∧ (parts (.obj fields)).lookup .item = none ∨
      ∃ items, fields.lookup "items" = some (.obj items) ∧
        (parts (.obj fields)).lookup .item = some (.obj items) ∧
          (items.lookup "oneOf").bind Json.arr? = none := by
  have hproperties : (propertyParts (.obj fields)).lookup .item = none := by
    refine List.lookup_eq_none_iff.2 fun part hpart => ?_
    obtain ⟨name, hname⟩ := propertyParts_property hpart
    rw [hname]
    rfl
  have hfield : (Json.obj fields).field? "items" = fields.lookup "items" := rfl
  have hitems := h.label.items
  have hchild {u : Tree Section} (hu : (build path (.obj fields)).at? .item = some u) := h.at? hu
  have hraw : keywords (.obj fields) = .obj fields := rfl
  rw [label_build, itemProblems, Section.keyword?, hraw, hfield] at hitems
  rw [isMixed, hfield] at unmixed
  rw [at?_build] at hchild
  rw [parts, List.lookup_append, hproperties, Option.none_or, itemParts, hfield] at hchild ⊢
  cases hlookup : fields.lookup "items" with
  | none => exact .inl ⟨rfl, rfl⟩
  | some value =>
    simp only [hlookup] at hitems unmixed hchild ⊢
    cases value with
    | obj items =>
      refine .inr ⟨items, rfl, ?_⟩
      simp only [Option.isSome_eq_false_iff, Option.isNone_iff_eq_none] at unmixed
      simp only [unmixed]
      refine ⟨rfl, ?_⟩
      unfold variants? at unmixed
      cases honeOf : items.lookup "oneOf" with
      | none => rfl
      | some value =>
        cases value with
        | arr all => simp [honeOf] at unmixed
        | _ => rfl
    | bool b =>
      cases b with
      | false => simp at hitems
      | true =>
        obtain ⟨fields, hfields⟩ := (hchild rfl).exists_fields
        cases hfields
    | _ => simp at hitems

/-- The fields of the plain schema of an outline. -/
def plain (o : Tree Section) : Fields :=
  o.label.typed.normalFields (o.children.map fun part => (part.1, normal part.2))

theorem normal_eq (o : Tree Section) : normal o = .obj (plain o) := Tree.fold_eq _ o

/-- The plain schema of a part of a schema. -/
def plainPart (path : List Slot) (part : Slot × Json) : Slot × Json :=
  (part.1, normal (build (path ++ [part.1]) part.2))

/-- The subschemas of a plain schema. -/
def plainParts (path : List Slot) (raw : Json) : List (Slot × Json) :=
  (parts raw).map (plainPart path)

theorem plain_build (path : List Slot) (raw : Json) :
    plain (build path raw) = (build path raw).label.typed.normalFields (plainParts path raw) := by
  rw [plain, children_build, List.map_map]
  rfl

/-- No key stands twice in a plain schema. -/
theorem keysDistinct_normal (path : List Slot) {raw : Json} (h : raw.keysDistinct = true) :
    (normal (build path raw)).keysDistinct = true := by
  induction raw using induct generalizing path with
  | step raw ih =>
    rw [normal_eq, plain_build]
    refine Attributes.keysDistinct_normalFields ?_ ?_ ?_
    · rw [label_build]
      cases raw with
      | obj fields => exact h
      | bool b => cases b <;> rfl
      | _ => rfl
    · rw [plainParts, List.map_map]
      exact nodup_slots_parts h
    · rw [plainParts, List.forall_mem_map]
      exact fun part hpart => ih part hpart _ (keysDistinct_of_mem_parts h hpart)

theorem keywords_build (path : List Slot) (fields : Fields) :
    (build path (.obj fields)).label.typed.keywords = fields := by
  rw [label_build]
  rfl

theorem mixed_build (path : List Slot) (raw : Json) :
    (build path raw).label.typed.mixed = isMixed raw := by
  rw [label_build]
  rfl

theorem lookup_plainParts (path : List Slot) (raw : Json) (slot : Slot) :
    (plainParts path raw).lookup slot = ((build path raw).at? slot).map normal := by
  rw [at?_build, Option.map_map]
  exact Key.lookup_map_snd (fun slot part => normal (build (path ++ [slot]) part)) (parts raw) slot

theorem lookup_plain {key : String} (h : key ∉ Attributes.rewritten) :
    (plain (build path (.obj fields))).lookup key = fields.lookup key := by
  rw [plain_build, Attributes.lookup_normalFields h, keywords_build]

theorem lookup_plain_properties (path : List Slot) (fields : Fields) :
    (plain (build path (.obj fields))).lookup "properties" =
      if Attributes.named (plainParts path (.obj fields)) = [] then fields.lookup "properties"
      else some (.obj (Attributes.named (plainParts path (.obj fields)))) := by
  rw [plain_build, Attributes.lookup_properties, keywords_build]

theorem lookup_plain_items (path : List Slot) (unmixed : isMixed (.obj fields) = false) :
    (plain (build path (.obj fields))).lookup "items" =
      (((build path (.obj fields)).at? .item).map normal).or (fields.lookup "items") := by
  rw [plain_build, Attributes.lookup_items (by rw [mixed_build, unmixed]), keywords_build,
    lookup_plainParts]

theorem lookup_plain_items_mixed (path : List Slot) (mixed : isMixed (.obj fields) = true) :
    (plain (build path (.obj fields))).lookup "items" =
      some (.obj [("oneOf", .arr (Attributes.alternatives (plainParts path (.obj fields))))]) := by
  rw [plain_build, Attributes.lookup_items_mixed (by rw [mixed_build, mixed])]

theorem property?_plain (path : List Slot) (fields : Fields) (name : String) :
    Validation.property? (plain (build path (.obj fields))) name =
      ((build path (.obj fields)).at? (.property name)).map normal := by
  have hchild := lookup_plainParts path (.obj fields) (.property name)
  rw [Validation.property?, lookup_plain_properties]
  split
  · -- Without children for properties the keyword has stayed, and declares none.
    rename_i hnamed
    rw [← Attributes.lookup_named, hnamed] at hchild
    rw [at?_build, lookup_parts_property] at hchild ⊢
    change Validation.property? fields name = _
    cases hproperty : Validation.property? fields name with
    | none => rfl
    | some property =>
      rw [hproperty] at hchild
      cases hchild
  · rw [Option.bind_some, Json.obj?, Option.bind_some, Attributes.lookup_named, hchild]

theorem itemRule_plain (h : Valid (build path (.obj fields)))
    (unmixed : isMixed (.obj fields) = false) :
    Validation.itemRule (plain (build path (.obj fields))) =
      .all (((build path (.obj fields)).at? .item).map normal) := by
  rw [Validation.itemRule, lookup_plain_items path unmixed, at?_build]
  obtain ⟨hlookup, hpart⟩ | ⟨items, hlookup, hpart, honeOf⟩ := h.items unmixed
  · rw [hlookup, hpart]
    rfl
  · rw [hpart]
    simp only [Option.map_some, Option.some_or]
    rw [normal_eq, Json.field?, lookup_plain (by decide), honeOf]
    rfl

theorem itemRule_eq (h : Valid (build path (.obj fields))) (unmixed : isMixed (.obj fields) = false) :
    Validation.itemRule fields = .all ((parts (.obj fields)).lookup .item) := by
  rw [Validation.itemRule]
  obtain ⟨hlookup, hpart⟩ | ⟨items, hlookup, hpart, honeOf⟩ := h.items unmixed
  · rw [hlookup, hpart]
    rfl
  · rw [hlookup, hpart]
    dsimp only
    rw [Json.field?, honeOf]
    rfl

end Outline

namespace Derivation

theorem core_derive (data : Option Json) (p : Tree.Place Attributes) :
    (derive data p).1.core = p.label.core := by
  unfold derive
  dsimp only
  split <;> rfl

end Derivation

namespace Compilation

variable {settings : Settings} {cache : Enumeration.Cache} {raw : Json} {data : Option Json}
  {inlined : Json} {offer : String → Option (List Choice)} {derived : Schema} {c : Compiled}

/-- A derived schema speaks of the kinds that are found for its outline. -/
theorem Stages.map_core_derived (h : Stages settings raw data inlined offer derived c) :
    derived.map Attributes.core = (Outline.ofJson inlined).map Section.typed := by
  have htyped : derived.map Attributes.core = ((typings (Outline.ofJson inlined)).map fun typed =>
      typed.2.attributes offer typed.1).map Attributes.core := by
    rw [h.derived_eq, Tree.map_map, Tree.map_extend]
    exact congrArg (Tree.extend · _) (funext fun p => Derivation.core_derive data p)
  rw [htyped, Tree.map_map, typings, Tree.map_map]
  rfl

/-- So does a compiled schema. -/
theorem Stages.map_core (h : Stages settings raw data inlined offer derived c) :
    c.schema.map Attributes.core = (Outline.ofJson inlined).map Section.typed := by
  have hwired : c.schema.map Attributes.core = derived.map Attributes.core := by
    rw [h.schema_eq, Wiring.wire, Tree.map_map, Tree.map_extend]
    rfl
  rw [hwired, h.map_core_derived]

/-- The plain schema of a compiled one is that of its outline. -/
theorem Stages.normal_eq (h : Stages settings raw data inlined offer derived c) :
    c.schema.normal = Outline.normal (Outline.ofJson inlined) := by
  have hcore : c.schema.normal = (c.schema.map Attributes.core).fold Attributes.normal :=
    (Tree.fold_map Attributes.normal Attributes.core c.schema).symm
  rw [hcore, h.map_core, Tree.fold_map]
  rfl

/-- A compilation without problems inlines all references and finds an outline without problems. -/
theorem exists_valid (h : (compile settings cache raw data).1 = .ok c) (valid : c.problems = []) :
    ∃ inlined offer derived, Stages settings raw data inlined offer derived c ∧
      Definitions.inline settings.dialect raw = .ok (inlined, []) ∧
        Outline.Valid (Outline.ofJson inlined) := by
  obtain ⟨inlined, inlining, offer, derived, derivation, hinline, hderive, rfl⟩ := compile_eq_ok h
  simp only [List.append_eq_nil_iff] at valid
  obtain ⟨⟨⟨⟨rfl, houtline⟩, htyping⟩, -⟩, -⟩ := valid
  refine ⟨inlined, offer, derived, ⟨⟨[], hinline⟩, derive_eq_ok hderive, rfl⟩, hinline,
    fun s hs => ?_⟩
  obtain ⟨hown, hitems⟩ := Outline.problems_eq_nil_iff.1 houtline s hs
  refine ⟨hown, hitems, ?_⟩
  rw [typings, Tree.labels_map, List.filterMap_map] at htyping
  exact List.filterMap_eq_nil_iff.1 htyping s hs

end Compilation

end FormSchema
