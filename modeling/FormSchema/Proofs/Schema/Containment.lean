import FormSchema.Proofs.Schema.Inlining
import Mathlib.Logic.Relation

/-!
References between definitions.  A schema mentions the references of the objects among its
subschemas, apart from data, and a definition uses those that its body mentions.  As long as no
definition comes back to itself, the references that can still come up get fewer on the way down.
-/

namespace FormSchema

namespace Fields

variable {fields layer : Fields} {key : String} {v : Json}

theorem not_mem_of_lookup_cons {field : String × Json}
    (h : List.lookup key (field :: layer) = none) : key ≠ field.1 ∧ layer.lookup key = none := by
  rw [List.lookup_cons] at h
  by_cases hkey : key = field.1
  · simp [hkey] at h
  · rw [beq_false_of_ne hkey] at h
    exact ⟨hkey, h⟩

theorem lookup_overlay_of_none (h : layer.lookup key = none) :
    (overlay fields layer).lookup key = fields.lookup key := by
  induction layer generalizing fields with
  | nil => rfl
  | cons field layer ih =>
    obtain ⟨hkey, h⟩ := not_mem_of_lookup_cons h
    rw [overlay, List.foldl_cons, ← overlay, ih h, lookup_set_ne hkey]

theorem erase_set_of_ne {other : String} (h : other ≠ key) :
    erase (set other v fields) key = set other v (erase fields key) := by
  induction fields with
  | nil => simp [erase, h]
  | cons head fields ih =>
    obtain ⟨k, w⟩ := head
    by_cases hk : k = other
    · subst hk
      rw [set, if_pos rfl, erase_cons, if_neg h, erase_cons, if_neg h, set, if_pos rfl]
    · rw [set, if_neg hk, erase_cons, erase_cons, ih]
      split
      · rfl
      · rw [set, if_neg hk]

theorem erase_overlay (h : layer.lookup key = none) :
    erase (overlay fields layer) key = overlay (erase fields key) layer := by
  induction layer generalizing fields with
  | nil => rfl
  | cons field layer ih =>
    obtain ⟨hkey, h⟩ := not_mem_of_lookup_cons h
    rw [overlay, List.foldl_cons, ← overlay, ih h, erase_set_of_ne hkey.symm]
    rfl

end Fields

namespace Definitions

/-- The reference of an object that has one. -/
def reference? (fields : Fields) : Option String := (fields.lookup refKey).bind Json.str?

/-- The keywords beside the reference. -/
def siblings (fields : Fields) : Fields := Fields.erase fields refKey

/-- The schemas in the value of a keyword: the properties of an object, none of data, else the value
itself. -/
def subschemas (field : String × Json) : List Json :=
  if dataKeywords.contains field.1 then []
  else if field.1 = "properties" then
    match field.2 with
    | .obj properties => properties.map (·.2)
    | _ => []
  else [field.2]

/-- The objects among the schemas in a schema, the schema included. -/
inductive Contains : Json → Fields → Prop where
  | self (fields : Fields) : Contains (.obj fields) fields
  | item {items : List Json} {item : Json} {whole : Fields} (mem : item ∈ items)
      (below : Contains item whole) : Contains (.arr items) whole
  | keyword {fields : Fields} {field : String × Json} {part : Json} {whole : Fields}
      (mem : field ∈ fields) (part_mem : part ∈ subschemas field) (below : Contains part whole) :
      Contains (.obj fields) whole

/-- Whether a text is the reference of one of the objects in a schema. -/
def Mentions (v : Json) (text : String) : Prop :=
  ∃ whole, Contains v whole ∧ reference? whole = some text

variable {fields body layer whole : Fields} {v part : Json} {text : String}

theorem reference?_eq_some_iff :
    reference? fields = some text ↔ fields.lookup refKey = some (.str text) := by
  rw [reference?, Option.bind_eq_some_iff]
  constructor
  · rintro ⟨given, hgiven, htext⟩
    cases given with
    | str s => rw [hgiven, Option.some.inj htext]
    | _ => cases htext
  · exact fun h => ⟨_, h, rfl⟩

theorem lookup_siblings (fields : Fields) : (siblings fields).lookup refKey = none := by
  rw [List.lookup_eq_none_iff]
  intro field hfield
  have hne : field.1 ≠ refKey := by simpa using (List.mem_filter.1 hfield).2
  simpa using hne.symm

theorem reference?_siblings (fields : Fields) : reference? (siblings fields) = none := by
  rw [reference?, lookup_siblings]
  rfl

theorem contains_obj_iff : Contains (.obj fields) whole ↔
    whole = fields ∨ ∃ field ∈ fields, ∃ part ∈ subschemas field, Contains part whole := by
  constructor
  · intro h
    cases h with
    | self => exact .inl rfl
    | keyword mem part_mem below => exact .inr ⟨_, mem, _, part_mem, below⟩
  · rintro (rfl | ⟨field, mem, part, part_mem, below⟩)
    · exact .self whole
    · exact .keyword mem part_mem below

theorem contains_siblings (h : Contains (.obj (siblings fields)) whole) :
    whole = siblings fields ∨ Contains (.obj fields) whole := by
  refine (contains_obj_iff.1 h).imp_right ?_
  rintro ⟨field, mem, part, part_mem, below⟩
  exact .keyword (List.mem_of_mem_filter mem) part_mem below

theorem reference?_overlay (h : layer.lookup refKey = none) :
    reference? (Fields.overlay body layer) = reference? body := by
  rw [reference?, Fields.lookup_overlay_of_none h, ← reference?]

theorem siblings_overlay (h : layer.lookup refKey = none) :
    siblings (Fields.overlay body layer) = Fields.overlay (siblings body) layer :=
  Fields.erase_overlay h

theorem contains_overlay (h : Contains (.obj (Fields.overlay body layer)) whole) :
    whole = Fields.overlay body layer ∨ Contains (.obj body) whole ∨
      Contains (.obj layer) whole := by
  refine (contains_obj_iff.1 h).imp_right ?_
  rintro ⟨field, mem, part, part_mem, below⟩
  exact (Fields.mem_overlay mem).imp (.keyword · part_mem below) (.keyword · part_mem below)

section References

theorem references_subset_items {items : List Json} (h : v ∈ items) :
    references v ⊆ itemReferences items := by
  induction items with
  | nil => cases h
  | cons item items ih =>
    rw [itemReferences]
    rcases List.mem_cons.1 h with rfl | h
    · exact List.subset_append_left _ _
    · exact List.subset_append_of_subset_right _ (ih h)

theorem references_subset_fields {field : String × Json} (h : field ∈ fields) :
    references field.2 ⊆ fieldReferences fields := by
  induction fields with
  | nil => cases h
  | cons head fields ih =>
    obtain ⟨key, given⟩ := head
    have tail (h : field ∈ fields) :
        references field.2 ⊆ fieldReferences ((key, given) :: fields) := by
      have := ih h
      cases given with
      | str s =>
        rw [fieldReferences]
        split
        · exact List.subset_cons_of_subset _ this
        · exact this
      | _ => exact List.subset_append_of_subset_right _ this
    rcases List.mem_cons.1 h with rfl | h
    · cases given with
      | str s => exact List.nil_subset _
      | _ => exact List.subset_append_left _ _
    · exact tail h

theorem mem_references_of_reference? (h : reference? fields = some text) :
    text ∈ references (.obj fields) := by
  rw [reference?_eq_some_iff] at h
  rw [references]
  induction fields with
  | nil => cases h
  | cons head fields ih =>
    obtain ⟨key, given⟩ := head
    by_cases hkey : refKey = key
    · subst hkey
      rw [List.lookup_cons_self] at h
      obtain rfl := Option.some.inj h
      rw [fieldReferences, if_pos rfl]
      exact List.mem_cons_self
    · rw [List.lookup_cons, beq_false_of_ne hkey] at h
      have := ih h
      cases given with
      | str s =>
        rw [fieldReferences, if_neg fun e => hkey e.symm]
        exact this
      | _ => exact List.mem_append_right _ this

theorem references_subset_of_mem_subschemas {field : String × Json} (h : part ∈ subschemas field) :
    references part ⊆ references field.2 := by
  rw [subschemas] at h
  split at h
  · cases h
  · split at h
    · obtain ⟨key, given⟩ := field
      cases given with
      | obj properties =>
        obtain ⟨property, hproperty, rfl⟩ := List.mem_map.1 h
        exact references_subset_fields hproperty
      | _ => cases h
    · exact List.mem_singleton.1 h ▸ List.Subset.refl _

theorem references_subset_of_contains (h : Contains v whole) :
    references (.obj whole) ⊆ references v := by
  induction h with
  | self => exact List.Subset.refl _
  | item mem _ ih => exact List.Subset.trans ih (references_subset_items mem)
  | keyword mem part_mem _ ih =>
    have hfield := references_subset_of_mem_subschemas part_mem
    exact List.Subset.trans ih (List.Subset.trans hfield (references_subset_fields mem))

/-- What a schema mentions is among all the texts that are given for references. -/
theorem mem_references_of_mentions (h : Mentions v text) : text ∈ references v := by
  obtain ⟨whole, hcontains, htext⟩ := h
  exact references_subset_of_contains hcontains (mem_references_of_reference? htext)

end References

/-! The graph of definitions. -/

variable {source : Source} {a b : String × String} {given fresh : List String}

/-- The body of a definition, given by section and name. -/
def Source.body? (source : Source) (name : String × String) : Option Fields :=
  if source.namespaces.contains name.1 then
    ((source.fields.lookup name.1).bind Json.obj?).bind fun entries =>
      (entries.lookup name.2).bind Json.obj?
  else none

/-- Whether a schema mentions a definition. -/
def Source.Refers (source : Source) (v : Json) (name : String × String) : Prop :=
  ∃ text, Mentions v text ∧ split? source.namespaces text = some name

/-- Whether the body of one definition mentions another one. -/
def Source.Uses (source : Source) (a b : String × String) : Prop :=
  ∃ body, source.body? a = some body ∧ source.Refers (.obj body) b

/-- Whether the body of one definition is itself an object with a reference to another one. -/
def Source.Forwards (source : Source) (a b : String × String) : Prop :=
  ∃ body text, source.body? a = some body ∧ reference? body = some text ∧
    split? source.namespaces text = some b

/-- Whether, at each reference in a schema, no keyword beside it leads back to where the reference
leads. -/
def Source.Apart (source : Source) (v : Json) : Prop :=
  ∀ whole text name sibling, Contains v whole → reference? whole = some text →
    split? source.namespaces text = some name → source.Refers (.obj (siblings whole)) sibling →
      ∀ last, Relation.ReflTransGen source.Forwards name last →
        ¬ Relation.ReflTransGen source.Uses sibling last

theorem Source.exists_of_body? (h : source.body? a = some body) :
    a.1 ∈ source.namespaces ∧ ∃ entries, source.fields.lookup a.1 = some (.obj entries) ∧
      entries.lookup a.2 = some (.obj body) := by
  rw [body?, Option.ite_none_right_eq_some] at h
  obtain ⟨hhome, h⟩ := h
  refine ⟨by simpa using hhome, ?_⟩
  obtain ⟨entries, hentries, h⟩ := Option.bind_eq_some_iff.1 h
  obtain ⟨held, hheld, hobj⟩ := Option.bind_eq_some_iff.1 hentries
  obtain ⟨definition, hdefinition, hbody⟩ := Option.bind_eq_some_iff.1 h
  cases held with
  | obj fields =>
    obtain rfl := Option.some.inj hobj
    cases definition with
    | obj fields =>
      obtain rfl := Option.some.inj hbody
      exact ⟨_, hheld, hdefinition⟩
    | _ => cases hbody
  | _ => cases hobj

theorem Source.target_eq (hsplit : split? source.namespaces text = some a)
    (h : source.body? a = some body) : source.target text = .found (.obj body) := by
  obtain ⟨-, entries, hentries, hbody⟩ := exists_of_body? h
  obtain ⟨home, name⟩ := a
  rw [target, hsplit]
  simp only [hentries, Option.bind_some, Json.obj?, hbody]

theorem Source.keysDistinct_body (distinct : (Json.obj source.fields).keysDistinct = true)
    (h : source.body? a = some body) : (Json.obj body).keysDistinct = true := by
  obtain ⟨-, entries, hentries, hbody⟩ := exists_of_body? h
  exact Fields.keysDistinct_of_lookup (Fields.keysDistinct_of_lookup distinct hentries) hbody

theorem Source.references_subset_of_body? (h : source.body? a = some body) :
    references (.obj body) ⊆ references (.obj source.fields) := by
  obtain ⟨-, entries, hentries, hbody⟩ := exists_of_body? h
  exact List.Subset.trans (references_subset_fields (Json.mem_of_lookup hbody))
    (references_subset_fields (Json.mem_of_lookup hentries))

theorem Source.Forwards.uses (h : source.Forwards a b) : source.Uses a b := by
  obtain ⟨body, text, hbody, htext, hsplit⟩ := h
  exact ⟨body, hbody, text, ⟨body, .self body, htext⟩, hsplit⟩

theorem mentions_overlay (hlayer : layer.lookup refKey = none)
    (h : Mentions (.obj (Fields.overlay body layer)) text) :
    Mentions (.obj body) text ∨ Mentions (.obj layer) text := by
  obtain ⟨whole, hcontains, htext⟩ := h
  rcases contains_overlay hcontains with rfl | hcontains | hcontains
  · rw [reference?_overlay hlayer] at htext
    exact .inl ⟨body, .self body, htext⟩
  · exact .inl ⟨whole, hcontains, htext⟩
  · exact .inr ⟨whole, hcontains, htext⟩

/-- The schemas of a document: the whole, and the bodies of its definitions. -/
def Source.IsSchema (source : Source) (v : Json) : Prop :=
  v = .obj source.fields ∨ ∃ name body, source.body? name = some body ∧ v = .obj body

/-- Whether each reference leads to a definition that is an object. -/
def Source.Closed (source : Source) : Prop :=
  ∀ v, source.IsSchema v → ∀ text, Mentions v text →
    ∃ name body, split? source.namespaces text = some name ∧ source.body? name = some body

/-- Whether no definition comes back to itself. -/
def Source.Acyclic (source : Source) : Prop := ∀ name, ¬ Relation.TransGen source.Uses name name

/-- What is needed of a schema: its references are among some texts and lead to definitions, and
nothing beside them leads back. -/
structure Source.Fit (source : Source) (given : List String) (v : Json) : Prop where
  mem : ∀ text, Mentions v text → text ∈ given
  known : ∀ text, Mentions v text →
    ∃ name body, split? source.namespaces text = some name ∧ source.body? name = some body
  apart : source.Apart v

/-- What is needed of the definitions: the same of each, and none comes back to itself. -/
structure Source.Proper (source : Source) (given : List String) : Prop where
  distinct : (Json.obj source.fields).keysDistinct = true
  acyclic : source.Acyclic
  body : ∀ name body, source.body? name = some body → source.Fit given (.obj body)

/-- Whether all references that can come up on the way down can still be followed. -/
structure Source.Ready (source : Source) (given fresh : List String) (v : Json) : Prop
    extends source.Fit given v where
  fresh : ∀ a b, source.Refers v a → Relation.ReflTransGen source.Uses a b →
    ∀ text ∈ given, split? source.namespaces text = some b → text ∈ fresh

namespace Source

theorem Refers.mono {w : Json} (h : source.Refers w a)
    (sub : ∀ text, Mentions w text → Mentions v text) : source.Refers v a := by
  obtain ⟨text, hmentions, hsplit⟩ := h
  exact ⟨text, sub text hmentions, hsplit⟩

theorem Refers.overlay (h : source.Refers (.obj (Fields.overlay body (siblings fields))) a) :
    source.Refers (.obj body) a ∨ source.Refers (.obj (siblings fields)) a := by
  obtain ⟨text, hmentions, hsplit⟩ := h
  exact (mentions_overlay (lookup_siblings fields) hmentions).imp (⟨text, ·, hsplit⟩)
    (⟨text, ·, hsplit⟩)

/-- A part of a schema is as ready as the schema. -/
theorem Ready.mono {w : Json} (h : source.Ready given fresh v)
    (sub : ∀ whole text, Contains w whole → reference? whole = some text → Contains v whole) :
    source.Ready given fresh w := by
  have mentions (text : String) (hw : Mentions w text) : Mentions v text := by
    obtain ⟨whole, hcontains, htext⟩ := hw
    exact ⟨whole, sub whole text hcontains htext, htext⟩
  exact {
    mem := fun text hw => h.mem text (mentions text hw)
    known := fun text hw => h.known text (mentions text hw)
    apart := fun whole text name sibling hcontains htext =>
      h.apart whole text name sibling (sub whole text hcontains htext) htext
    fresh := fun a b hrefers => h.fresh a b (hrefers.mono mentions) }

theorem Ready.siblings (h : source.Ready given fresh (.obj fields)) :
    source.Ready given fresh (.obj (siblings fields)) := by
  refine h.mono fun whole text hcontains htext => ?_
  rcases contains_siblings hcontains with rfl | hcontains
  · rw [reference?_siblings] at htext
    cases htext
  · exact hcontains

/-- A reference that comes up next can be followed. -/
theorem Ready.mem_fresh (h : source.Ready given fresh (.obj fields))
    (htext : reference? fields = some text) : text ∈ fresh := by
  have hmentions : Mentions (.obj fields) text := ⟨fields, .self fields, htext⟩
  obtain ⟨name, -, hsplit, -⟩ := h.known text hmentions
  exact h.fresh name name ⟨text, hmentions, hsplit⟩ .refl text (h.mem text hmentions) hsplit

section Following

variable (proper : source.Proper given) (h : source.Ready given fresh (.obj fields))
  (htext : reference? fields = some text) (hsplit : split? source.namespaces text = some a)
  (hbody : source.body? a = some body)

include proper h htext hsplit hbody

/-- What the body of a definition leads to can still be followed when the reference to the
definition is being followed. -/
theorem Ready.fresh_body {b c : String × String} (hrefers : source.Refers (.obj body) b)
    (hreach : Relation.ReflTransGen source.Uses b c) {other : String} (hother : other ∈ given)
    (hc : split? source.namespaces other = some c) : other ∈ fresh.erase text := by
  have huses : source.Uses a b := ⟨body, hbody, hrefers⟩
  have hne : other ≠ text := by
    rintro rfl
    obtain rfl := Option.some.inj (hsplit.symm.trans hc)
    exact proper.acyclic a (.head' huses hreach)
  refine (List.mem_erase_of_ne hne).2 (h.fresh a c ?_ (.head huses hreach) other hother hc)
  exact ⟨text, ⟨fields, .self fields, htext⟩, hsplit⟩

theorem Ready.definition : source.Ready given (fresh.erase text) (.obj body) where
  toFit := proper.body a body hbody
  fresh _ _ hrefers hreach _ hother hc :=
    h.fresh_body proper htext hsplit hbody hrefers hreach hother hc

/-- The body of a definition with the keywords beside the reference on top is ready when the
reference is being followed, since none of these keywords leads back. -/
theorem Ready.merged : source.Ready given (fresh.erase text)
    (.obj (Fields.overlay body (Definitions.siblings fields))) where
  mem other hother := by
    rcases mentions_overlay (lookup_siblings fields) hother with hother | hother
    · exact (proper.body a body hbody).mem other hother
    · exact h.siblings.mem other hother
  known other hother := by
    rcases mentions_overlay (lookup_siblings fields) hother with hother | hother
    · exact (proper.body a body hbody).known other hother
    · exact h.siblings.known other hother
  fresh b c hrefers hreach other hother hc := by
    rcases hrefers.overlay with hrefers | hrefers
    · exact h.fresh_body proper htext hsplit hbody hrefers hreach hother hc
    · have hne : other ≠ text := by
        rintro rfl
        obtain rfl := Option.some.inj (hsplit.symm.trans hc)
        exact h.apart fields other a b (.self fields) htext hsplit hrefers a .refl hreach
      exact (List.mem_erase_of_ne hne).2 (h.siblings.fresh b c hrefers hreach other hother hc)
  apart whole other name sibling hcontains hother hname hrefers last hlast := by
    rcases contains_overlay hcontains with rfl | hcontains | hcontains
    · rw [reference?_overlay (lookup_siblings fields)] at hother
      rw [siblings_overlay (lookup_siblings fields)] at hrefers
      rcases hrefers.overlay with hrefers | hrefers
      · exact (proper.body a body hbody).apart body other name sibling (.self body) hother hname
          hrefers last hlast
      · have hforwards : source.Forwards a name := ⟨body, other, hbody, hother, hname⟩
        exact h.apart fields text a sibling (.self fields) htext hsplit hrefers last
          (.head hforwards hlast)
    · exact (proper.body a body hbody).apart whole other name sibling hcontains hother hname hrefers
        last hlast
    · exact h.siblings.apart whole other name sibling hcontains hother hname hrefers last hlast

end Following

end Source

end Definitions

end FormSchema
