import FormSchema.Proofs.Store.Calls

/-!
Linking a store.  One walk writes links and notes mistakes as it goes; what it writes are the links
that the document gets, by number, and what it notes are the complaints about that document, in the
same order.
-/

namespace FormSchema

open Document (Has)

variable {c : Compiled} {s : Store} {d : Document} {p : Place} {n : Node}

/-- Whether a number, or none, stands for a schema, or for none. -/
inductive Compiled.Names (c : Compiled) : Option Nat → Option Schema → Prop where
  | unlinked : c.Names none none
  | linked {x : Numbered} (h : c.Numbers x) : c.Names (some x.number) (some x.schema)

/-! ## Nodes that are linked -/

namespace Linking

variable {l : Linking} {schema : Option Schema} {above : List (Key × Node)}

theorem parts_link (l : Linking) (schema : Option Schema) (above : List (Key × Node)) (n : Node) :
    (link l schema above n).parts = n.children.map fun part =>
      link l (l.below? schema n ⟨part.2, (part.1, n) :: above⟩) ((part.1, n) :: above) part.2 := by
  rw [← Node.map_snd_children, children_link, List.map_map]
  rfl

@[simp] theorem content_link : (link l schema above n).content = n.content := by
  have hids : (link l schema above n).parts.map Node.id = n.parts.map Node.id := by
    rw [parts_link, ← Node.map_snd_children, List.map_map, List.map_map]
    exact List.map_congr_left fun part _ => id_link
  have fields (parent : Node) (above : List (Key × Node)) (fields : List (String × Node)) :
      (linkFields l schema parent above fields).map (fun field => (field.1, field.2.id)) =
        fields.map fun field => (field.1, field.2.id) := by
    induction fields with
    | nil => rfl
    | cons field fields ih =>
      obtain ⟨key, item⟩ := field
      rw [linkFields, List.map_cons, List.map_cons, ih, id_link]
  cases n with
  | leaf tag v => rfl
  | list tag items => exact congrArg Content.array hids
  | record tag items => exact congrArg Content.object (fields _ above items)

/-- Linking changes no entry. -/
theorem entries_link (parent : Option Nat) :
    (link l schema above n).entries parent = n.entries parent := by
  induction n using Node.induct generalizing schema above parent with
  | step n ih =>
    rw [Node.entries_eq, Node.entries_eq, content_link, id_link, parts_link, List.flatMap_map,
      ← Node.flatMap_children, List.flatMap_def, List.flatMap_def]
    exact congrArg (fun l => _ :: List.flatten l) (List.map_congr_left fun part hpart =>
      ih part hpart _)

@[simp] theorem ids_link : (link l schema above n).ids = n.ids := by
  rw [← Node.map_fst_entries none, entries_link, Node.map_fst_entries]

theorem map_id_subtree_link (above' : List (Key × Node)) :
    (Place.subtree ⟨link l schema above n, above'⟩).map Place.id = n.ids :=
  (Node.map_id_below above' _).trans ids_link

/-- The place of a part of a linked node, linked by what is below for it. -/
def part (l : Linking) (schema : Option Schema) (p : Place) (above : List (Key × Node))
    (part : Key × Node) : Place :=
  ⟨link l (l.below? schema p.node (p.down part)) ((part.1, p.node) :: p.above) part.2,
    (part.1, link l schema p.above p.node) :: above⟩

theorem subtree_link (l : Linking) (schema : Option Schema) (p : Place)
    (above : List (Key × Node)) :
    Place.subtree ⟨link l schema p.above p.node, above⟩ =
      ⟨link l schema p.above p.node, above⟩ ::
        p.node.children.flatMap fun part => (l.part schema p above part).subtree := by
  rw [Place.subtree_eq, children_link, List.flatMap_map]
  rfl

theorem map_id_subtree_part (l : Linking) (schema : Option Schema) (p : Place)
    (above : List (Key × Node)) :
    ((p.node.children.flatMap fun part => (l.part schema p above part).subtree).map Place.id) =
      p.node.children.flatMap fun part => part.2.ids := by
  rw [List.map_flatMap]
  exact List.flatMap_congr fun part _ => map_id_subtree_link _

/-- What is below an unlinked node is unlinked. -/
theorem schema?_of_mem_subtree_link {above' : List (Key × Node)} {q : Place}
    (h : q ∈ Place.subtree ⟨link l none above n, above'⟩) : q.node.schema? = none := by
  induction n using Node.induct generalizing above above' with
  | step n ih =>
    rw [Place.subtree_eq, children_link, List.flatMap_map] at h
    rcases List.mem_cons.1 h with rfl | h
    · exact schema?_link
    · obtain ⟨part, hpart, h⟩ := List.mem_flatMap.1 h
      exact ih part hpart h

end Linking

namespace Store

/-! ## The walk -/

/-- The variants that match a node are, by number, those that match it in the document. -/
theorem Holds.map_schema_matching (h : s.Holds d) (hp : d.Has p) (c : Compiled)
    (variants : List Numbered) :
    (s.matching c variants p.id).map Numbered.schema =
      Linking.matching ⟨d, c.userData⟩ (variants.map Numbered.schema) p := by
  rw [matching, Linking.matching, List.filter_map]
  refine congrArg (List.map Numbered.schema) (List.filter_congr fun variant _ => ?_)
  dsimp only [Function.comp]
  rw [h.evaluateAs_eq hp]
  rfl

/-- What it comes to, to walk through places that had no links. -/
structure Marks (c : Compiled) (out out' : Linked) (places : List Place) : Prop where
  slots : out'.1.slots = out.1.slots
  beside : ∀ i, i ∉ places.map Place.id → out'.1.links i = out.1.links i
  names : ∀ q ∈ places, c.Names (out'.1.links q.id) q.node.schema?
  errors : out'.2 = out.2 ++ places.filterMap Place.mismatch?

namespace Marks

variable {out out' out'' : Linked} {places places' : List Place}

theorem append (h : Marks c out out' places) (h' : Marks c out' out'' places')
    (apart : (places.map Place.id).Disjoint (places'.map Place.id)) :
    Marks c out out'' (places ++ places') where
  slots := h'.slots.trans h.slots
  beside i hi := by
    rw [List.map_append, List.mem_append, not_or] at hi
    rw [h'.beside i hi.2, h.beside i hi.1]
  names q hq := by
    rcases List.mem_append.1 hq with hq | hq
    · rw [h'.beside q.id (apart (List.mem_map_of_mem hq))]
      exact h.names q hq
    · exact h'.names q hq
  errors := by rw [h'.errors, h.errors, List.filterMap_append, List.append_assoc]

/-- Where there is no schema, there is nothing to do. -/
theorem unlinked (hschema : ∀ q ∈ places, q.node.schema? = none)
    (hlinks : ∀ q ∈ places, out.1.links q.id = none) : Marks c out out places where
  slots := rfl
  beside _ _ := rfl
  names q hq := by
    rw [hlinks q hq, hschema q hq]
    exact .unlinked
  errors := by
    have hnone : places.filterMap Place.mismatch? = [] :=
      List.filterMap_eq_nil_iff.2 fun q hq => by rw [Place.mismatch?, hschema q hq]
    rw [hnone, List.append_nil]

/-- To walk through parts one after the other is to walk through all that is in them. -/
theorem foldl {α : Type} {f : Linked → α → Linked} {g : α → List Place} {l : List α}
    (nodup : ((l.flatMap g).map Place.id).Nodup)
    (hlinks : ∀ q ∈ l.flatMap g, out.1.links q.id = none)
    (hf : ∀ x ∈ l, ∀ out' : Linked, out'.1.slots = out.1.slots →
      (∀ q ∈ g x, out'.1.links q.id = none) → Marks c out' (f out' x) (g x)) :
    Marks c out (l.foldl f out) (l.flatMap g) := by
  induction l generalizing out with
  | nil => exact unlinked (fun q hq => absurd hq List.not_mem_nil) hlinks
  | cons x l ih =>
    rw [List.flatMap_cons, List.map_append, List.nodup_append'] at nodup
    rw [List.flatMap_cons] at hlinks ⊢
    have hfirst := hf x List.mem_cons_self out rfl fun q hq => hlinks q (List.mem_append_left _ hq)
    refine hfirst.append (ih nodup.2.1 (fun q hq => ?_) fun y hy out' hslots => ?_) nodup.2.2
    · rw [hfirst.beside q.id fun hmem => nodup.2.2 hmem (List.mem_map_of_mem hq)]
      exact hlinks q (List.mem_append_right _ hq)
    · exact hf y (List.mem_cons_of_mem _ hy) out' (hslots.trans hfirst.slots)

end Marks

/-- What the walk does at a single place. -/
theorem marks_setLink (l : Linking) {x : Numbered} (hx : c.Numbers x) (p : Place) (out : Linked)
    {above : List (Key × Node)} (habove : above.map (·.1) = p.above.map (·.1)) :
    Marks c out (out.1.setLink p.id (some x.number), out.2 ++
        if x.label.compatible p.node.kind then []
        else [⟨p.pointer, .wrongKind x.label.target p.node.kind⟩])
      [⟨Linking.link l (some x.schema) p.above p.node, above⟩] where
  slots := rfl
  beside i hi := by
    have hne : i ≠ p.id := by simpa [Place.id] using hi
    rw [links_setLink, if_neg hne]
  names q hq := by
    obtain rfl := List.mem_singleton.1 hq
    have hid : Place.id ⟨Linking.link l (some x.schema) p.above p.node, above⟩ = p.id :=
      Linking.id_link
    rw [hid, links_setLink, if_pos rfl, Linking.schema?_link]
    exact .linked hx
  errors := by
    have hpointer :
        Place.pointer ⟨Linking.link l (some x.schema) p.above p.node, above⟩ = p.pointer := by
      rw [Place.pointer, Place.pointer, Place.tokens_eq, Place.tokens_eq, Place.path, Place.path,
        habove]
    rw [List.filterMap_cons, Place.mismatch?, Linking.schema?_link, Linking.kind_link, hpointer]
    dsimp only [Numbered.label]
    split <;> simp [*]

/-- The identities in the parts of a linked node are those below it. -/
theorem Holds.mem_ids_of_mem_part (h : s.Holds d) (hp : d.Has p) {l : Linking}
    {schema : Option Schema} {above : List (Key × Node)} {q : Place}
    (hq : q ∈ p.node.children.flatMap fun part => (l.part schema p above part).subtree) :
    q.id ≠ p.id ∧ q.id ∈ p.node.ids := by
  have hmem := List.mem_map_of_mem (f := Place.id) hq
  rw [Linking.map_id_subtree_part] at hmem
  have hhere := (h.nodup_ids hp).1
  rw [← Node.flatMap_children] at hhere
  refine ⟨fun heq => hhere (heq ▸ hmem), ?_⟩
  rw [Node.ids_eq]
  exact List.mem_cons_of_mem _ hmem

/-- After the step at a place, its parts can follow. -/
theorem Holds.marks_append (h : s.Holds d) (hp : d.Has p) {l : Linking} {schema : Option Schema}
    {above : List (Key × Node)} {out out' out'' : Linked}
    (htop : Marks c out out' [⟨Linking.link l schema p.above p.node, above⟩])
    (hparts : Marks c out' out''
      (p.node.children.flatMap fun part => (l.part schema p above part).subtree)) :
    Marks c out out'' (Place.subtree ⟨Linking.link l schema p.above p.node, above⟩) := by
  rw [Linking.subtree_link]
  refine htop.append hparts ?_
  rw [List.map_singleton, List.singleton_disjoint, Place.id, Linking.id_link]
  intro hmem
  obtain ⟨q, hq, hid⟩ := List.mem_map.1 hmem
  exact (h.mem_ids_of_mem_part hp hq).1 hid

/-- Whether a walk can start at a place: it goes far enough to get through all that is below, and
none of that has a link yet. -/
structure Ready (c : Compiled) (s : Store) (d : Document) (fuel : Nat) (p : Place) (x : Numbered)
    (out : Linked) (above : List (Key × Node)) : Prop where
  has : d.Has p
  enough : p.node.ids.length ≤ fuel
  numbers : c.Numbers x
  slots : out.1.slots = s.slots
  links : ∀ i ∈ p.node.ids, out.1.links i = none
  above_eq : above.map (·.1) = p.above.map (·.1)

/-- Whether the walk from any place that has at most so many nodes gives the links of the linked node
and notes its mistakes. -/
def Walks (c : Compiled) (s : Store) (d : Document) (fuel : Nat) : Prop :=
  ∀ (p : Place) (x : Numbered) (out : Linked) (above : List (Key × Node)),
    Ready c s d fuel p x out above → Marks c out (linkWithin c fuel x p.id out) (Place.subtree
      ⟨Linking.link ⟨d, c.userData⟩ (some x.schema) p.above p.node, above⟩)

theorem foldl_items {α : Type} (f : α → Nat → α) (a : α) (tag : Tag) (items : List Node) :
    (items.map Node.id).foldl f a =
      (Node.list tag items).children.foldl (fun a part => f a part.2.id) a := by
  have hitems := Key.map_snd_ofItems 0 items
  rw [Node.children_list]
  generalize Key.ofItems 0 items = parts at hitems ⊢
  subst hitems
  rw [List.foldl_map, List.foldl_map]

theorem foldl_fields {α : Type} (f : α → String × Nat → α) (a : α) (tag : Tag)
    (fields : List (String × Node)) :
    (fields.map fun field => (field.1, field.2.id)).foldl f a =
      (Node.record tag fields).children.foldl (fun a part => f a (part.1.token, part.2.id)) a := by
  rw [Node.children_record, Key.ofFields, List.foldl_map, List.foldl_map]
  rfl

namespace Walks

variable {fuel : Nat} {x : Numbered} {out : Linked} {above above' : List (Key × Node)} {tag : Tag}

/-- The walk from a part down, with the schema that is below for it, if there is one. -/
theorem part (h : Walks c s d fuel) (sound : d.Sound)
    (ready : Ready c s d (fuel + 1) p x out above) {part : Key × Node}
    (hpart : part ∈ p.node.children) {y? : Option Numbered} (hy : y?.map Numbered.schema =
      Linking.below? ⟨d, c.userData⟩ (some x.schema) p.node (p.down part))
    (hnumbers : ∀ y ∈ y?, c.Numbers y) {out' : Linked} (hslots : out'.1.slots = s.slots)
    (hlinks : ∀ i ∈ part.2.ids, out'.1.links i = none) :
    Marks c out' (y?.elim out' fun y => linkWithin c fuel y part.2.id out')
      (Linking.part ⟨d, c.userData⟩ (some x.schema) p above part).subtree := by
  rw [Linking.part, ← hy]
  cases y? with
  | none =>
    refine .unlinked (fun q hq => Linking.schema?_of_mem_subtree_link hq) fun q hq => ?_
    have hmem := List.mem_map_of_mem (f := Place.id) hq
    rw [Option.map_none, Linking.map_id_subtree_link] at hmem
    exact hlinks _ hmem
  | some y =>
    have hget : p.node.get? part.1 = some part.2 :=
      Key.lookup_eq_some_of_mem (sound.distinct.keys ready.has.at?_path) hpart
    have hlt : part.2.ids.length < p.node.ids.length := Node.length_ids_lt hget
    exact h (p.down part) y out' _ {
      has := ready.has.trans (.step hget)
      enough := Nat.le_of_lt_succ (Nat.lt_of_lt_of_le hlt ready.enough)
      numbers := hnumbers y rfl
      slots := hslots
      links := hlinks
      above_eq := congrArg (part.1 :: ·) ready.above_eq }

/-- The walk from a place whose kind fits: it is the walk from one part after the other. -/
theorem parts (h : Walks c s d fuel) (holds : s.Holds d)
    (ready : Ready c s d (fuel + 1) p x out above)
    (hcompatible : x.label.compatible p.node.kind = true) {f : Linked → Key × Node → Linked}
    (hf : ∀ part ∈ p.node.children, ∀ out' : Linked, out'.1.slots = s.slots →
      ∃ y? : Option Numbered, y?.map Numbered.schema =
          Linking.childSchema? ⟨d, c.userData⟩ x.schema (p.down part) ∧
        (∀ y ∈ y?, c.Numbers y) ∧
          f out' part = y?.elim out' fun y => linkWithin c fuel y part.2.id out') :
    Marks c out (p.node.children.foldl f (out.1.setLink p.id (some x.number), out.2))
      (Place.subtree ⟨Linking.link ⟨d, c.userData⟩ (some x.schema) p.above p.node, above⟩) := by
  have htop := marks_setLink ⟨d, c.userData⟩ ready.numbers p out ready.above_eq
  rw [if_pos hcompatible, List.append_nil] at htop
  refine holds.marks_append ready.has htop
    (.foldl ?_ (fun q hq => ?_) fun part hpart out' hslots hlinks => ?_)
  · rw [Linking.map_id_subtree_part, Node.flatMap_children]
    exact (holds.nodup_ids ready.has).2
  · obtain ⟨hne, hmem⟩ := holds.mem_ids_of_mem_part ready.has hq
    rw [links_setLink, if_neg hne]
    exact ready.links _ hmem
  · obtain ⟨y?, hy, hnumbers, heq⟩ := hf part hpart out' (hslots.trans ready.slots)
    have hbelow : Linking.below? ⟨d, c.userData⟩ (some x.schema) p.node (p.down part) =
        Linking.childSchema? ⟨d, c.userData⟩ x.schema (p.down part) := if_pos hcompatible
    rw [heq]
    refine h.part holds.sound ready hpart (hy.trans hbelow.symm) hnumbers
      (hslots.trans ready.slots) fun i hi => ?_
    rw [← Linking.map_id_subtree_link] at hi
    obtain ⟨q, hq, rfl⟩ := List.mem_map.1 hi
    exact hlinks q hq

/-- The walk from an object whose kind fits goes through its fields. -/
theorem record {fields : List (String × Node)} (h : Walks c s d fuel) (holds : s.Holds d)
    (ready : Ready c s d (fuel + 1) ⟨.record tag fields, above'⟩ x out above)
    (hcompatible : x.label.compatible (Node.record tag fields).kind = true) :
    Marks c out (linkWithin c (fuel + 1) x tag.id out) (Place.subtree
      ⟨Linking.link ⟨d, c.userData⟩ (some x.schema) above' (.record tag fields), above⟩) := by
  have hcontent : out.1.content? tag.id = some (Node.record tag fields).content :=
    (holds.of_slots ready.slots).content?_eq ready.has
  rw [linkWithin, hcontent]
  dsimp only
  rw [Node.kind_content, if_pos hcompatible]
  simp only [Node.content]
  rw [foldl_fields _ _ tag]
  refine h.parts holds ready hcompatible fun part hpart out' _ =>
    ⟨x.at? (.property part.1.token), ?_, fun y hy => ready.numbers.at? hy, ?_⟩
  · have hchild := Key.lookup_eq_some_of_mem (holds.sound.distinct.keys ready.has.at?_path) hpart
    obtain ⟨key, child⟩ := part
    cases key with
    | index i =>
      rw [← Node.get?, Node.get?_record_index] at hchild
      cases hchild
    | name name => exact x.map_schema_at? _
  · cases x.at? (.property part.1.token) <;> rfl

/-- What schema an item has: that of all items, or of the first variant that matches it. -/
theorem childSchema?_item {items : List Node} (sound : d.Sound)
    (hp : d.Has ⟨.list tag items, above'⟩) (l : Linking) {part : Key × Node}
    (hpart : part ∈ (Node.list tag items).children) :
    l.childSchema? x.schema (Place.down ⟨.list tag items, above'⟩ part) =
      if x.label.mixed then
        (l.matching x.schema.variants (Place.down ⟨.list tag items, above'⟩ part)).head?
      else x.schema.at? .item := by
  have hchild := Key.lookup_eq_some_of_mem (sound.distinct.keys hp.at?_path) hpart
  obtain ⟨key, child⟩ := part
  cases key with
  | index i => rfl
  | name name =>
    rw [← Node.get?, Node.get?_list_name] at hchild
    cases hchild

/-- The walk from an array whose kind fits goes through its items, with a variant for each of them or
with the schema of all items, if there is one. -/
theorem list {items : List Node} (h : Walks c s d fuel) (holds : s.Holds d)
    (ready : Ready c s d (fuel + 1) ⟨.list tag items, above'⟩ x out above)
    (hcompatible : x.label.compatible (Node.list tag items).kind = true) :
    Marks c out (linkWithin c (fuel + 1) x tag.id out) (Place.subtree
      ⟨Linking.link ⟨d, c.userData⟩ (some x.schema) above' (.list tag items), above⟩) := by
  have hcontent : out.1.content? tag.id = some (Node.list tag items).content :=
    (holds.of_slots ready.slots).content?_eq ready.has
  have hitem {part : Key × Node} (hpart : part ∈ (Node.list tag items).children) :=
    childSchema?_item (x := x) holds.sound ready.has ⟨d, c.userData⟩ hpart
  rw [linkWithin, hcontent]
  dsimp only
  rw [Node.kind_content, if_pos hcompatible]
  simp only [Node.content]
  split
  · rename_i hmixed
    rw [foldl_items _ _ tag]
    refine h.parts holds ready hcompatible fun part hpart out' hslots =>
      ⟨(out'.1.matching c x.variants part.2.id).head?, ?_, fun y hy => ?_, ?_⟩
    · have hdown : d.Has (Place.down ⟨.list tag items, above'⟩ part) := ready.has.trans
        (.step (Key.lookup_eq_some_of_mem (holds.sound.distinct.keys ready.has.at?_path) hpart))
      have hmatching := (holds.of_slots hslots).map_schema_matching hdown c x.variants
      rw [hitem hpart, if_pos hmixed, ← x.map_schema_variants, ← hmatching, List.head?_map]
      rfl
    · exact ready.numbers.variant (List.mem_of_mem_filter (List.mem_of_head? hy))
    · rw [linkItem]
      cases (out'.1.matching c x.variants part.2.id).head? <;> rfl
  · rename_i hmixed
    have hparts {f : Linked → Key × Node → Linked} (hf : ∀ out' part,
        f out' part = (x.at? .item).elim out' fun y => linkWithin c fuel y part.2.id out') :=
      h.parts (f := f) holds ready hcompatible fun part hpart out' _ => ⟨x.at? .item,
        by rw [hitem hpart, if_neg hmixed, x.map_schema_at?], fun y hy => ready.numbers.at? hy,
        hf out' part⟩
    cases hat : x.at? .item with
    | none =>
      rw [hat] at hparts
      have hnone := hparts (f := fun out _ => out) fun _ _ => rfl
      rwa [List.foldl_fixed] at hnone
    | some y =>
      rw [hat] at hparts
      simp only
      rw [foldl_items _ _ tag]
      exact hparts fun _ _ => rfl

end Walks

/-- Nothing below a node of the wrong kind is linked. -/
theorem Holds.marks_misfit (h : s.Holds d) {fuel : Nat} {x : Numbered} {out : Linked}
    {above : List (Key × Node)} (ready : Ready c s d fuel p x out above)
    (hcompatible : ¬ x.label.compatible p.node.kind = true) :
    Marks c out (out.1.setLink p.id (some x.number),
        out.2 ++ [⟨p.pointer, .wrongKind x.label.target p.node.kind⟩])
      (Place.subtree ⟨Linking.link ⟨d, c.userData⟩ (some x.schema) p.above p.node, above⟩) := by
  have htop := marks_setLink ⟨d, c.userData⟩ ready.numbers p out ready.above_eq
  rw [if_neg hcompatible] at htop
  have hbelow (part : Key × Node) :
      Linking.below? ⟨d, c.userData⟩ (some x.schema) p.node (p.down part) = none :=
    if_neg hcompatible
  refine h.marks_append ready.has htop (.unlinked (fun q hq => ?_) fun q hq => ?_)
  · obtain ⟨part, -, hq⟩ := List.mem_flatMap.1 hq
    rw [Linking.part, hbelow] at hq
    exact Linking.schema?_of_mem_subtree_link hq
  · obtain ⟨hne, hmem⟩ := h.mem_ids_of_mem_part ready.has hq
    rw [links_setLink, if_neg hne]
    exact ready.links _ hmem

/-- The walk from a place down gives the links of the linked node, and notes its mistakes. -/
theorem Holds.walks (h : s.Holds d) (fuel : Nat) : Walks c s d fuel := by
  induction fuel with
  | zero =>
    intro p x out above ready
    have := p.node.length_ids_pos
    have := ready.enough
    omega
  | succ fuel ih =>
    intro p x out above ready
    have hcontent : out.1.content? p.id = some p.node.content :=
      (h.of_slots ready.slots).content?_eq ready.has
    have hset : (out.1.setLink p.id (some x.number)).Holds d := h.of_slots ready.slots
    by_cases hcompatible : x.label.compatible p.node.kind = true
    · obtain ⟨n, above'⟩ := p
      cases n with
      | leaf tag v =>
        rw [linkWithin, hcontent]
        dsimp only
        rw [Node.kind_content, if_pos hcompatible]
        exact ih.parts h ready hcompatible (f := fun out _ => out) fun part hpart => by cases hpart
      | record tag fields => exact ih.record h ready hcompatible
      | list tag items => exact ih.list h ready hcompatible
    · rw [linkWithin, hcontent]
      dsimp only
      rw [Node.kind_content, if_neg hcompatible, hset.pointer_eq ready.has]
      exact h.marks_misfit ready hcompatible

end Store

end FormSchema
