import FormSchema.Proofs.Document.Variants

/-!
Which schema describes which node.  The schema of a node follows from the root schema step by step
down the document, and linking gives every node the schema that follows for it, whatever the nodes
have been linked to before.  It complains once of every node whose kind does not fit its schema, in
the order of the document, and links nothing below.
-/

namespace FormSchema

/-- Whether a value of a kind can be one of a schema: there is no base type, or the kind satisfies
it, or the kind is null and null is admitted. -/
def Attributes.Accepts (a : Attributes) (kind : Kind) : Prop :=
  a.base = none ∨ (∃ base, a.base = some base ∧ kind.satisfies base = true) ∨
    (kind = .null ∧ a.nullable = true)

theorem Attributes.compatible_iff {a : Attributes} {kind : Kind} :
    a.compatible kind = true ↔ a.Accepts kind := by
  rw [compatible, Accepts]
  cases a.base <;> simp

theorem Place.down_inj {p q : Place} {part part' : Key × Node} :
    p.down part = q.down part' ↔ p = q ∧ part = part' := by
  obtain ⟨n, above⟩ := p
  obtain ⟨m, above'⟩ := q
  obtain ⟨key, child⟩ := part
  obtain ⟨key', child'⟩ := part'
  simp only [down, Place.mk.injEq, List.cons.injEq, Prod.mk.injEq]
  tauto

namespace Document

/-- Whether a variant can be that of an item: its `case` is null or true there. -/
def Suits (d : Document) (userData : Json) (item : Place) (variant : Schema) : Prop :=
  (d.evaluateAs userData variant.label item .case).isNull = true ∨
    (d.evaluateAs userData variant.label item .case).truthy = true

/-- The schema that follows for a place: the root schema for the root, and below a place whose kind
fits its schema the declaration of a property, the schema of all items, or the first variant that an
item suits. -/
inductive Described (d : Document) (c : Compiled) : Place → Schema → Prop
  | root : Described d c d.rootPlace c.schema
  | property {p : Place} {u s : Schema} {name : String} {child : Node} (above : Described d c p u)
      (fits : u.label.Accepts p.node.kind) (step : p.node.get? (.name name) = some child)
      (declared : u.at? (.property name) = some s) : Described d c (p.down (.name name, child)) s
  | item {p : Place} {u s : Schema} {i : Nat} {child : Node} (above : Described d c p u)
      (fits : u.label.Accepts p.node.kind) (step : p.node.get? (.index i) = some child)
      (homogeneous : u.label.mixed = false) (declared : u.at? .item = some s) :
      Described d c (p.down (.index i, child)) s
  | variant {p : Place} {u s : Schema} {i : Nat} {child : Node} {before after : List Schema}
      (above : Described d c p u) (fits : u.label.Accepts p.node.kind)
      (step : p.node.get? (.index i) = some child) (mixed : u.label.mixed = true)
      (variants : u.variants = before ++ s :: after)
      (passed : ∀ v ∈ before, ¬d.Suits c.userData (p.down (.index i, child)) v)
      (suits : d.Suits c.userData (p.down (.index i, child)) s) :
      Described d c (p.down (.index i, child)) s

/-- What is wrong with the schemas of some places, one complaint for each place whose kind does not
fit. -/
inductive Blamed (d : Document) (c : Compiled) : List Place → List LinkError → Prop
  | nil : Blamed d c [] []
  | wrong {p : Place} {s : Schema} {places : List Place} {errors : List LinkError}
      (described : Described d c p s) (misfit : ¬s.label.Accepts p.node.kind)
      (others : Blamed d c places errors) :
      Blamed d c (p :: places) (⟨p.pointer, .wrongKind s.label.target p.node.kind⟩ :: errors)
  | right {p : Place} {places : List Place} {errors : List LinkError}
      (fits : ∀ s, Described d c p s → s.label.Accepts p.node.kind)
      (others : Blamed d c places errors) : Blamed d c (p :: places) errors

variable {d d' : Document} {c : Compiled} {p q : Place} {s t : Schema}

/-! ## One step down -/

theorem head?_matching {userData : Json} {variants : List Schema} :
    (Linking.matching ⟨d, userData⟩ variants p).head? = some s ↔
      ∃ before after, variants = before ++ s :: after ∧ (∀ v ∈ before, ¬d.Suits userData p v) ∧
        d.Suits userData p s := by
  simp only [Linking.matching, List.head?_filter, List.find?_eq_some_iff_append, Suits,
    Bool.or_eq_true, Bool.not_eq_true', Bool.not_eq_true, Bool.or_eq_false_iff, not_or]
  constructor
  · rintro ⟨hs, before, after, rfl, hbefore⟩
    exact ⟨before, after, rfl, hbefore, hs⟩
  · rintro ⟨before, after, rfl, hbefore, hs⟩
    exact ⟨hs, before, after, rfl, hbefore⟩

theorem Described.eq_of_above (h : d.Described c p s) (habove : p.above = []) : s = c.schema := by
  cases h with
  | root => rfl
  | _ => cases habove

theorem childSchema?_index {l : Linking} {u : Schema} {i : Nat} {child : Node} :
    l.childSchema? u (p.down (.index i, child)) =
      if u.label.mixed then (l.matching u.variants (p.down (.index i, child))).head?
      else u.at? .item := rfl

/-- What follows for a child is what linking gives it. -/
theorem described_down_iff {part : Key × Node} :
    d.Described c (p.down part) s ↔
      ∃ u, d.Described c p u ∧ u.label.Accepts p.node.kind ∧ p.node.get? part.1 = some part.2 ∧
        Linking.childSchema? ⟨d, c.userData⟩ u (p.down part) = some s := by
  constructor
  · intro h
    generalize hq : p.down part = q at h
    cases h with
    | root => cases congrArg Place.above hq
    | property above fits step declared =>
      obtain ⟨rfl, rfl⟩ := Place.down_inj.1 hq
      exact ⟨_, above, fits, step, declared⟩
    | item above fits step homogeneous declared =>
      obtain ⟨rfl, rfl⟩ := Place.down_inj.1 hq
      refine ⟨_, above, fits, step, ?_⟩
      rw [childSchema?_index, if_neg (by simp [homogeneous]), declared]
    | variant above fits step mixed variants passed suits =>
      obtain ⟨rfl, rfl⟩ := Place.down_inj.1 hq
      refine ⟨_, above, fits, step, ?_⟩
      rw [childSchema?_index, if_pos mixed]
      exact head?_matching.2 ⟨_, _, variants, passed, suits⟩
  · rintro ⟨u, above, fits, step, h⟩
    obtain ⟨key, child⟩ := part
    cases key with
    | name name => exact .property above fits step h
    | index i =>
      rw [childSchema?_index] at h
      split at h
      · rename_i mixed
        obtain ⟨before, after, variants, passed, suits⟩ := head?_matching.1 h
        exact .variant above fits step mixed variants passed suits
      · rename_i mixed
        exact .item above fits step (by simpa using mixed) h

/-- No more than one schema follows for a place. -/
theorem Described.unique (h : d.Described c p s) (h' : d.Described c p t) : s = t := by
  obtain ⟨n, above⟩ := p
  induction above generalizing n s t with
  | nil => rw [h.eq_of_above rfl, h'.eq_of_above rfl]
  | cons step above ih =>
    obtain ⟨key, parent⟩ := step
    have hdown {s : Schema} (h : d.Described c ⟨n, (key, parent) :: above⟩ s) :
        d.Described c (Place.down ⟨parent, above⟩ (key, n)) s := h
    obtain ⟨u, hu, -, -, hs⟩ := described_down_iff.1 (hdown h)
    obtain ⟨u', hu', -, -, ht⟩ := described_down_iff.1 (hdown h')
    obtain rfl := ih parent hu hu'
    exact Option.some.inj (hs.symm.trans ht)

/-- Below a place whose kind does not fit its schema, nothing follows. -/
theorem Described.not_below (h : d.Described c p s) (misfit : ¬s.label.Accepts p.node.kind)
    (covers : p.Covers q) (hne : q ≠ p) : ¬d.Described c q t := by
  intro ht
  induction covers generalizing t with
  | refl => exact hne rfl
  | @down q key child covers step ih =>
    obtain ⟨u, hu, fits, -, -⟩ := described_down_iff.1 ht
    by_cases hq : q = p
    · subst hq
      exact misfit (h.unique hu ▸ fits)
    · exact ih hq hu

/-! ## All steps -/

/-- What linking gives the children of a place is what follows for them. -/
theorem below?_eq_some_iff {schema : Option Schema} {part : Key × Node}
    (hschema : ∀ s, schema = some s ↔ d.Described c p s)
    (step : p.node.get? part.1 = some part.2) (s : Schema) :
    Linking.below? ⟨d, c.userData⟩ schema p.node (p.down part) = some s ↔
      d.Described c (p.down part) s := by
  rw [described_down_iff, Linking.below?, Option.bind_eq_some_iff]
  refine exists_congr fun u => ?_
  rw [hschema, ← Attributes.compatible_iff]
  split
  · simp [*]
  · simp [*]

/-- Whether a place of a linked document is that of another one, with the schema that follows
there. -/
structure Stands (d : Document) (c : Compiled) (p p' : Place) : Prop where
  path : p'.path = p.path
  id : p'.id = p.id
  value : p'.value = p.value
  schema : ∀ s, p'.node.schema? = some s ↔ d.Described c p s

theorem forall₂_flatMap {α β γ δ : Type} {R : α → β → Prop} {f : γ → List α} {g : δ → List β}
    {k : γ → δ} {l : List γ} (h : ∀ x ∈ l, List.Forall₂ R (f x) (g (k x))) :
    List.Forall₂ R (l.flatMap f) ((l.map k).flatMap g) := by
  induction l with
  | nil => exact .nil
  | cons x l ih =>
    obtain ⟨hx, hl⟩ := List.forall_mem_cons.1 h
    exact List.rel_append hx (ih hl)

/-- The places of a linked subtree stand for those of the subtree. -/
theorem forall₂_subtree_link {schema : Option Schema} {above' : List (Key × Node)}
    (distinct : p.node.value.keysDistinct = true)
    (hschema : ∀ s, schema = some s ↔ d.Described c p s)
    (habove : above'.map (·.1) = p.above.map (·.1)) :
    List.Forall₂ (d.Stands c) p.subtree
      (Place.subtree ⟨Linking.link ⟨d, c.userData⟩ schema p.above p.node, above'⟩) := by
  obtain ⟨n, above⟩ := p
  induction n using Node.induct generalizing schema above above' with
  | step n ih =>
    rw [Json.keysDistinct_iff, Node.children_value, List.map_map, List.forall_mem_map] at distinct
    rw [Place.subtree_eq, Place.subtree_eq]
    refine .cons ⟨?_, ?_, ?_, ?_⟩ ?_
    · simp [Place.path, habove]
    · exact Linking.id_link
    · exact Linking.value_link
    · simpa using hschema
    · simp only [Linking.children_link]
      refine forall₂_flatMap fun part hpart => ?_
      have step : n.get? part.1 = some part.2 := Key.lookup_eq_some_of_mem distinct.1 hpart
      refine ih part hpart ((part.1, n) :: above) (distinct.2 part hpart) ?_ ?_
      · exact below?_eq_some_iff (p := ⟨n, above⟩) hschema step
      · simp [habove]

/-- The complaints about a linked document are those about the schemas that follow. -/
theorem blamed_filterMap {places places' : List Place}
    (h : List.Forall₂ (d.Stands c) places places') :
    d.Blamed c places (places'.filterMap Place.mismatch?) := by
  induction h with
  | nil => exact .nil
  | @cons p p' places places' stands _ ih =>
    have hkind : p'.node.kind = p.node.kind := by
      rw [Node.kind_eq, Node.kind_eq]
      exact congrArg Kind.ofJson stands.value
    have hpointer : p'.pointer = p.pointer := by
      rw [Place.pointer, Place.pointer, Place.tokens_eq, Place.tokens_eq, stands.path]
    rw [List.filterMap_cons, Place.mismatch?, hkind, hpointer]
    cases hschema : p'.node.schema? with
    | none => exact .right (fun s hs => by cases hschema ▸ (stands.schema s).2 hs) ih
    | some s =>
      have described := (stands.schema s).1 hschema
      dsimp only
      by_cases hfits : s.label.compatible p.node.kind = true
      · rw [if_pos hfits]
        exact .right (fun t ht => described.unique ht ▸ Attributes.compatible_iff.1 hfits) ih
      · rw [if_neg hfits]
        exact .wrong described (fun h => hfits (Attributes.compatible_iff.2 h)) ih

end Document

/-! ## Links that were there before -/

namespace Node

mutual

/-- A node without links. -/
def bare : Node → Node
  | leaf tag value => leaf { tag with schema := none } value
  | list tag items => list { tag with schema := none } (bareItems items)
  | record tag fields => record { tag with schema := none } (bareFields fields)

def bareItems : List Node → List Node
  | [] => []
  | item :: items => item.bare :: bareItems items

def bareFields : List (String × Node) → List (String × Node)
  | [] => []
  | (key, item) :: fields => (key, item.bare) :: bareFields fields

end

theorem bareItems_eq (items : List Node) : bareItems items = items.map bare := by
  induction items with
  | nil => rfl
  | cons item items ih => rw [bareItems, ih, List.map_cons]

theorem bareFields_eq (fields : List (String × Node)) :
    bareFields fields = fields.map fun field => (field.1, field.2.bare) := by
  induction fields with
  | nil => rfl
  | cons field fields ih => rw [bareFields, ih, List.map_cons]

theorem children_bare (n : Node) :
    n.bare.children = n.children.map fun part => (part.1, part.2.bare) := by
  cases n with
  | leaf tag v => rfl
  | list tag items => rw [bare, bareItems_eq, children_list, children_list, Key.ofItems_map]
  | record tag fields =>
    rw [bare, bareFields_eq, children_record, children_record, Key.ofFields, Key.ofFields,
      List.map_map, List.map_map]
    rfl

theorem tag_bare (n : Node) : n.bare.tag = { n.tag with schema := none } := by cases n <;> rfl

mutual

theorem value_bare (n : Node) : n.bare.value = n.value := by
  match n with
  | leaf tag v => rfl
  | list tag items => rw [bare, value, value, valueItems_bare items]
  | record tag fields => rw [bare, value, value, valueFields_bare fields]

theorem valueItems_bare (items : List Node) : valueItems (bareItems items) = valueItems items := by
  match items with
  | [] => rfl
  | item :: items => rw [bareItems, valueItems, valueItems, value_bare item, valueItems_bare items]

theorem valueFields_bare (fields : List (String × Node)) :
    valueFields (bareFields fields) = valueFields fields := by
  match fields with
  | [] => rfl
  | (key, item) :: fields =>
    rw [bareFields, valueFields, valueFields, value_bare item, valueFields_bare fields]

end

theorem kind_bare (n : Node) : n.bare.kind = n.kind := by
  rw [kind_eq, value_bare, ← kind_eq]

theorem get?_bare (n : Node) (key : Key) : n.bare.get? key = (n.get? key).map bare := by
  rw [get?, children_bare]
  exact Key.lookup_map_snd (fun _ => bare) n.children key

/-- A node is its tag, its value and its children. -/
theorem ext_children {n m : Node} (htag : n.tag = m.tag) (hvalue : n.value = m.value)
    (hchildren : n.children = m.children) : n = m := by
  cases n with
  | leaf tag v =>
    cases m with
    | leaf tag' v' =>
      obtain rfl : tag = tag' := htag
      cases v <;> cases v' <;> cases hvalue <;> rfl
    | _ => cases v <;> cases hvalue
  | list tag items =>
    cases m with
    | leaf tag' v' => cases v' <;> cases hvalue
    | list tag' items' =>
      obtain rfl : tag = tag' := htag
      rw [children_list, children_list] at hchildren
      rw [← Key.map_snd_ofItems 0 items, hchildren, Key.map_snd_ofItems]
    | record tag' fields' => cases hvalue
  | record tag fields =>
    cases m with
    | leaf tag' v' => cases v' <;> cases hvalue
    | list tag' items' => cases hvalue
    | record tag' fields' =>
      obtain rfl : tag = tag' := htag
      rw [children_record, children_record] at hchildren
      rw [List.map_injective_iff.2 (fun a b h => by simpa [Prod.ext_iff] using h) hchildren]

end Node

/-- A place without links. -/
def Place.bare (p : Place) : Place :=
  ⟨p.node.bare, p.above.map fun step => (step.1, step.2.bare)⟩

/-- A document without links. -/
def Document.bare (d : Document) : Document := { d with root := d.root.bare }

theorem Place.path_bare (p : Place) : p.bare.path = p.path := by
  rw [path, path, bare, List.map_map]
  rfl

namespace Document

variable {d d' : Document} {c : Compiled} {p : Place}

theorem Has.bare (h : d.Has p) : d.bare.Has p.bare := by
  induction h with
  | refl => exact .root _
  | @down p key child _ step ih =>
    refine ih.down ?_
    rw [Place.bare, Node.get?_bare, step]
    rfl

/-- What linking gives a child does not depend on links. -/
theorem below?_bare (schema : Option Schema) (userData : Json) {part : Key × Node}
    (h : d.Has (p.down part)) :
    Linking.below? ⟨d.bare, userData⟩ schema p.node.bare (p.down part).bare =
      Linking.below? ⟨d, userData⟩ schema p.node (p.down part) := by
  obtain ⟨key, child⟩ := part
  rw [Linking.below?, Linking.below?, Node.kind_bare]
  refine congrArg _ (funext fun u => ?_)
  cases key with
  | name name => rfl
  | index i =>
    have hvalue : d.bare.value = d.value := Node.value_bare d.root
    have hmatching := Linking.matching_congr hvalue h.bare h (Place.path_bare _) userData u.variants
    rw [childSchema?_index, ← hmatching]
    rfl

theorem link_bare {schema : Option Schema} {userData : Json}
    (distinct : p.node.value.keysDistinct = true) (hp : d.Has p) :
    Linking.link ⟨d.bare, userData⟩ schema p.bare.above p.bare.node =
      Linking.link ⟨d, userData⟩ schema p.above p.node := by
  obtain ⟨n, above⟩ := p
  induction n using Node.induct generalizing schema above with
  | step n ih =>
    rw [Json.keysDistinct_iff, Node.children_value, List.map_map, List.forall_mem_map] at distinct
    refine Node.ext_children ?_ ?_ ?_
    · rw [Linking.tag_link, Linking.tag_link, Place.bare, Node.tag_bare]
    · rw [Linking.value_link, Linking.value_link, Place.bare, Node.value_bare]
    · rw [Linking.children_link, Linking.children_link, Place.bare, Node.children_bare,
        List.map_map]
      refine List.map_congr_left fun part hpart => Prod.ext rfl ?_
      have step : n.get? part.1 = some part.2 := Key.lookup_eq_some_of_mem distinct.1 hpart
      have hdown : d.Has (Place.down ⟨n, above⟩ part) := hp.down step
      have hbelow := below?_bare schema userData hdown
      calc Linking.link ⟨d.bare, userData⟩
            (Linking.below? ⟨d.bare, userData⟩ schema n.bare (Place.down ⟨n, above⟩ part).bare)
            (Place.down ⟨n, above⟩ part).bare.above (Place.down ⟨n, above⟩ part).bare.node
        _ = Linking.link ⟨d.bare, userData⟩
            (Linking.below? ⟨d, userData⟩ schema n (Place.down ⟨n, above⟩ part))
            (Place.down ⟨n, above⟩ part).bare.above (Place.down ⟨n, above⟩ part).bare.node :=
          congrArg (Linking.link _ · _ _) hbelow
        _ = _ := ih part hpart _ (distinct.2 part hpart) hdown

/-- Links that were there before have no influence on linking. -/
theorem link_eq_of_bare (distinct : d.value.keysDistinct = true) (h : d'.bare = d.bare) :
    d'.link c = d.link c := by
  have hlink (d : Document) (distinct : d.value.keysDistinct = true) :
      d.bare.link c = d.link c := by
    have hroot : Linking.link ⟨d.bare, c.userData⟩ (some c.schema) [] d.bare.root =
        Linking.link ⟨d, c.userData⟩ (some c.schema) [] d.root :=
      link_bare (p := d.rootPlace) distinct (.root d)
    rw [Document.link, Document.link, hroot]
    rfl
  have hvalue : d'.value = d.value := by
    have := congrArg Document.value h
    rwa [value, bare, Node.value_bare, value, bare, Node.value_bare] at this
  rw [← hlink d' (hvalue ▸ distinct), h, hlink d distinct]

/-- Linking a document.  Its nodes stay in their places, and each has the schema that follows for it.
There is one complaint for each node that has a schema and not the kind for it, and no schema follows
below such a node.  Nothing depends on the links that there were before. -/
theorem described_iff_link (distinct : d.value.keysDistinct = true) (c : Compiled) :
    List.Forall₂ (d.Stands c) d.places (d.link c).1.places ∧
      d.Blamed c d.places (d.link c).2 ∧
      (∀ p s, d.Described c p s → ¬s.label.Accepts p.node.kind →
        ∀ q, p.Covers q → q ≠ p → ∀ t, ¬d.Described c q t) ∧
      ∀ d' : Document, d'.bare = d.bare → d'.link c = d.link c := by
  have stands : List.Forall₂ (d.Stands c) d.places (d.link c).1.places := by
    have root (s : Schema) : some c.schema = some s ↔ d.Described c d.rootPlace s := by
      constructor
      · rintro ⟨⟩
        exact .root
      · intro h
        rw [h.eq_of_above rfl]
    exact forall₂_subtree_link distinct root rfl
  exact ⟨stands, blamed_filterMap stands,
    fun _ _ h misfit _ covers hne _ => h.not_below misfit covers hne,
    fun _ => link_eq_of_bare distinct⟩

/-- The first of the two items suits the variant of all strings, and so does the second, which is
none. -/
theorem described_iff_link_items :
    (ofJson (.arr [.str "x", .null])).value.keysDistinct = true ∧
      ((ofJson (.arr [.str "x", .null])).link SecondItem.compiled).2.map LinkError.pointer = ["/1"] ∧
      (ofJson (.arr [.str "x", .null])).Blamed SecondItem.compiled
        (ofJson (.arr [.str "x", .null])).places
        ((ofJson (.arr [.str "x", .null])).link SecondItem.compiled).2 :=
  ⟨rfl, by decide +kernel, (described_iff_link rfl SecondItem.compiled).2.1⟩

end Document

end FormSchema
