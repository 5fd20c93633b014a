import FormSchema.Proofs.Document.Identity
import FormSchema.Store.Basic

/-!
What a store has to hold for a document: an entry for each node, with the identities of its parent and
of its children.  Another node at a place changes one stretch of the entries, as long as it has the
same identity.
-/

namespace FormSchema

namespace Node

variable {n m child : Node} {key : Key} {parent : Option Nat}

/-- The children without their keys. -/
def parts : Node → List Node
  | leaf _ _ => []
  | list _ items => items
  | record _ fields => fields.map (·.2)

theorem map_snd_children (n : Node) : n.children.map (·.2) = n.parts := by
  cases n with
  | leaf tag v => rfl
  | list tag items => rw [children_list, Key.map_snd_ofItems, parts]
  | record tag fields =>
    rw [children_record, Key.ofFields, List.map_map]
    rfl

theorem flatMap_children {α : Type} (n : Node) (f : Node → List α) :
    (n.children.flatMap fun part => f part.2) = n.parts.flatMap f := by
  rw [← map_snd_children, List.flatMap_map]

theorem mem_parts_of_get? (h : n.get? key = some child) : child ∈ n.parts := by
  rw [← map_snd_children]
  exact List.mem_map_of_mem (Key.mem_of_lookup h)

/-- What holds of a node as soon as it holds of its parts holds of all nodes. -/
theorem parts_induct {P : Node → Prop} (step : ∀ n, (∀ m ∈ n.parts, P m) → P n) (n : Node) : P n := by
  induction n using Node.induct with
  | step n ih =>
    refine step n fun m hm => ?_
    rw [← map_snd_children] at hm
    obtain ⟨part, hpart, rfl⟩ := List.mem_map.1 hm
    exact ih part hpart

theorem ids_eq_parts (n : Node) : n.ids = n.id :: n.parts.flatMap ids := by
  rw [ids_eq, flatMap_children]

/-- The content of the entry of a node. -/
def content : Node → Content
  | leaf _ value => .scalar value
  | list _ items => .array (items.map id)
  | record _ fields => .object (fields.map fun field => (field.1, field.2.id))

@[simp] theorem children_content (n : Node) : n.content.children = n.parts.map id := by
  cases n <;> simp [content, Content.children, parts, Function.comp_def]

@[simp] theorem kind_content (n : Node) : n.content.kind = n.kind := by
  cases n <;> rfl

mutual

/-- The entries of a node and of all below it, each before those below it. -/
def entries (parent : Option Nat) : Node → List (Nat × Entry)
  | .leaf tag value => [(tag.id, ⟨.scalar value, parent⟩)]
  | .list tag items =>
    (tag.id, ⟨.array (items.map id), parent⟩) :: entriesItems (some tag.id) items
  | .record tag fields =>
    (tag.id, ⟨.object (fields.map fun field => (field.1, field.2.id)), parent⟩) ::
      entriesFields (some tag.id) fields

def entriesItems (parent : Option Nat) : List Node → List (Nat × Entry)
  | [] => []
  | item :: items => entries parent item ++ entriesItems parent items

def entriesFields (parent : Option Nat) : List (String × Node) → List (Nat × Entry)
  | [] => []
  | (_, item) :: fields => entries parent item ++ entriesFields parent fields

end

theorem entries_eq (parent : Option Nat) (n : Node) :
    n.entries parent = (n.id, ⟨n.content, parent⟩) :: n.parts.flatMap (entries (some n.id)) := by
  have items (parent : Option Nat) (items : List Node) :
      entriesItems parent items = items.flatMap (entries parent) := by
    induction items with
    | nil => rfl
    | cons item items ih => rw [entriesItems, ih, List.flatMap_cons]
  have fields (parent : Option Nat) (fields : List (String × Node)) :
      entriesFields parent fields = (fields.map (·.2)).flatMap (entries parent) := by
    induction fields with
    | nil => rfl
    | cons field fields ih =>
      obtain ⟨key, item⟩ := field
      rw [entriesFields, ih, List.map_cons, List.flatMap_cons]
  cases n with
  | leaf tag v => rfl
  | list tag items' =>
    rw [entries, items]
    rfl
  | record tag fields' =>
    rw [entries, fields]
    rfl

theorem map_fst_entries (parent : Option Nat) (n : Node) : (n.entries parent).map (·.1) = n.ids := by
  induction n using parts_induct generalizing parent with
  | step n ih =>
    rw [entries_eq, ids_eq_parts, List.map_cons, List.map_flatMap, List.flatMap_def, List.flatMap_def]
    exact congrArg (fun l => n.id :: List.flatten l) (List.map_congr_left fun m hm => ih m hm _)

theorem mem_ids_of_mem_entries {x : Nat × Entry} (h : x ∈ n.entries parent) : x.1 ∈ n.ids :=
  map_fst_entries parent n ▸ List.mem_map_of_mem h

theorem exists_entry_of_mem_ids {id : Nat} (h : id ∈ n.ids) (parent : Option Nat) :
    ∃ e, (id, e) ∈ n.entries parent := by
  rw [← map_fst_entries parent] at h
  obtain ⟨x, hx, rfl⟩ := List.mem_map.1 h
  exact ⟨x.2, hx⟩

/-! ## A child at a key -/

theorem exists_items_eq {items : List Node} {i : Nat} (h : items[i]? = some child) :
    ∃ left right, items = left ++ child :: right ∧ (∀ m, items.set i m = left ++ m :: right) ∧
      items.eraseIdx i = left ++ right := by
  obtain ⟨hlt, rfl⟩ := List.getElem?_eq_some_iff.1 h
  refine ⟨items.take i, items.drop (i + 1), by simp, fun m => ?_, List.eraseIdx_eq_take_drop_succ ..⟩
  exact List.set_eq_take_append_cons_drop.trans (if_pos hlt)

theorem exists_fields_eq {fields : List (String × Node)} {s : String}
    (h : fields.lookup s = some child) :
    ∃ left right, fields = left ++ (s, child) :: right ∧
      (∀ m, putField s m fields = left ++ (s, m) :: right) ∧
        (fields.eraseP fun field => field.1 == s) = left ++ right := by
  induction fields with
  | nil => cases h
  | cons field fields ih =>
    obtain ⟨t, x⟩ := field
    by_cases ht : t = s
    · subst ht
      obtain rfl : x = child := by simpa using h
      exact ⟨[], fields, rfl, fun m => by simp [putField], by simp⟩
    · rw [List.lookup_cons, beq_false_of_ne fun e => ht e.symm] at h
      obtain ⟨left, right, hfields, hput, herase⟩ := ih h
      refine ⟨(t, x) :: left, right, by simp [hfields], fun m => ?_, ?_⟩
      · simp [putField, ht, hput]
      · simp [ht, herase]

/-- Another child at a key, or none, leaves the parts on both sides of it. -/
theorem exists_parts_eq (h : n.get? key = some child) :
    ∃ left right, n.parts = left ++ child :: right ∧
      (∀ m, (n.put key m).parts = left ++ m :: right) ∧ (n.drop key).parts = left ++ right := by
  cases n with
  | leaf tag v => cases h
  | list tag items =>
    cases key with
    | name s => simp [get?_list_name] at h
    | index i =>
      rw [get?_list] at h
      exact exists_items_eq h
  | record tag fields =>
    cases key with
    | index i => simp [get?_record_index] at h
    | name s =>
      rw [get?_record] at h
      obtain ⟨left, right, hfields, hput, herase⟩ := exists_fields_eq h
      refine ⟨left.map (·.2), right.map (·.2), ?_, fun m => ?_, ?_⟩
      · simp [parts, hfields]
      · simp [parts, put, hput]
      · simp [parts, drop, herase]

/-- The parts are the child at a key and those that are left without it. -/
theorem perm_parts_drop (h : n.get? key = some child) :
    n.parts.Perm (child :: (n.drop key).parts) := by
  obtain ⟨left, right, hparts, -, hdrop⟩ := exists_parts_eq h
  rw [hparts, hdrop]
  exact List.perm_middle

theorem id_put (n : Node) (key : Key) (m : Node) : (n.put key m).id = n.id :=
  congrArg (fun skin : Skin => skin.tag.id) (skin_put n key m)

theorem content_put (h : n.get? key = some child) (hid : m.id = child.id) :
    (n.put key m).content = n.content := by
  cases n with
  | leaf tag v => cases h
  | list tag items =>
    cases key with
    | name s => rfl
    | index i =>
      rw [get?_list] at h
      obtain ⟨left, right, hitems, hset, -⟩ := exists_items_eq h
      rw [put, hset]
      simp [content, hitems, hid]
  | record tag fields =>
    cases key with
    | index i => rfl
    | name s =>
      rw [get?_record] at h
      obtain ⟨left, right, hfields, hput, -⟩ := exists_fields_eq h
      rw [put, hput]
      simp [content, hfields, hid]

theorem filter_ne_of_nodup {α : Type} (f : α → Nat) {left right : List α} {x : α}
    (h : ((left ++ x :: right).map f).Nodup) :
    (left ++ x :: right).filter (fun y => f y != f x) = left ++ right := by
  rw [List.map_append, List.map_cons, List.nodup_middle, List.nodup_cons, ← List.map_append] at h
  have keep {l : List α} (hl : ∀ y ∈ l, y ∈ left ++ right) : l.filter (fun y => f y != f x) = l :=
    List.filter_eq_self.2 fun y hy => bne_iff_ne.2 fun heq =>
      h.1 (heq ▸ List.mem_map_of_mem (hl y hy))
  rw [List.filter_append, List.filter_cons_of_neg (by simp),
    keep fun _ => List.mem_append_left _, keep fun _ => List.mem_append_right _]

/-- To take a child away is to take its identity out of the content. -/
theorem content_drop (h : n.get? key = some child) (nodup : (n.parts.map id).Nodup) :
    (n.drop key).content = n.content.without child.id := by
  cases n with
  | leaf tag v => cases h
  | list tag items =>
    cases key with
    | name s => simp [get?_list_name] at h
    | index i =>
      rw [get?_list] at h
      obtain ⟨left, right, rfl, -, herase⟩ := exists_items_eq h
      simp only [parts, List.map_append, List.map_cons] at nodup
      rw [drop, herase, content, content, Content.without, List.map_append, List.map_append,
        List.map_cons]
      refine congrArg Content.array (filter_ne_of_nodup (fun i : Nat => i) ?_).symm
      simpa [Function.comp_def] using nodup
  | record tag fields =>
    cases key with
    | index i => simp [get?_record_index] at h
    | name s =>
      rw [get?_record] at h
      obtain ⟨left, right, rfl, -, herase⟩ := exists_fields_eq h
      simp only [parts, List.map_append, List.map_cons, List.map_map] at nodup
      rw [drop, herase, content, content, Content.without, List.map_append, List.map_append,
        List.map_cons]
      refine congrArg Content.object (filter_ne_of_nodup (x := (s, child.id)) (·.2) ?_).symm
      simpa [Function.comp_def] using nodup

end Node

namespace Place

/-- The entry of the node at a place. -/
def entry (p : Place) : Entry := ⟨p.node.content, p.parent?.map id⟩

theorem ids_eq (p : Place) : p.node.ids = p.id :: p.node.parts.flatMap Node.ids :=
  Node.ids_eq_parts _

/-- The entries of a subtree. -/
def entries (p : Place) : List (Nat × Entry) := p.node.entries (p.parent?.map id)

theorem map_entry_subtree (p : Place) : p.subtree.map (fun q => (q.id, q.entry)) = p.entries := by
  obtain ⟨n, above⟩ := p
  induction n using Node.induct generalizing above with
  | step n ih =>
    rw [subtree_eq, entries, Node.entries_eq, ← Node.flatMap_children, List.map_cons,
      List.map_flatMap, List.flatMap_def, List.flatMap_def]
    exact congrArg (fun l => _ :: List.flatten l) (List.map_congr_left fun part hpart => ih part hpart _)

end Place

namespace Document

open Node (content_put exists_parts_eq)

variable {d : Document} {p : Place} {m : Node} {id : Nat} {e : Entry}

/-- The entries of all nodes. -/
def entries (d : Document) : List (Nat × Entry) := d.root.entries none

theorem map_entry_places (d : Document) : d.places.map (fun p => (p.id, p.entry)) = d.entries :=
  d.rootPlace.map_entry_subtree

theorem mem_entries_iff (h : d.Sound) :
    (id, e) ∈ d.entries ↔ ∃ p, d.Has p ∧ p.id = id ∧ p.entry = e := by
  rw [← map_entry_places, List.mem_map]
  simp only [Prod.mk.injEq, h.mem_places_iff]

/-- A node stands for one stretch of the entries, and another node for another one there. -/
theorem exists_entries_setAt (h : d.Has p) :
    ∃ rest, d.entries.Perm (p.entries ++ rest) ∧ ∀ m : Node, m.id = p.id →
      (d.setAt p m).entries.Perm (m.entries (p.parent?.map Place.id) ++ rest) := by
  obtain ⟨n, above⟩ := p
  induction above generalizing n with
  | nil =>
    refine ⟨[], ?_, fun m _ => ?_⟩
    · rw [List.append_nil, entries, ← h.above_nil]
      exact .refl _
    · rw [List.append_nil]
      exact .refl _
  | cons step above ih =>
    obtain ⟨key, parent⟩ := step
    obtain ⟨hparent, hget⟩ := h.above_cons
    obtain ⟨rest, hold, hnew⟩ := ih parent hparent
    obtain ⟨left, right, hparts, hput, -⟩ := exists_parts_eq hget
    have around (m : Node) : (left ++ m :: right).flatMap (Node.entries (some parent.id)) =
        left.flatMap (Node.entries (some parent.id)) ++
          (m.entries (some parent.id) ++ right.flatMap (Node.entries (some parent.id))) := by
      simp
    generalize left.flatMap (Node.entries (some parent.id)) = before at around
    generalize right.flatMap (Node.entries (some parent.id)) = after at around
    refine ⟨(parent.id, Place.entry ⟨parent, above⟩) :: before ++ (after ++ rest), ?_, fun m hm => ?_⟩
    · rw [Place.entries, Node.entries_eq, hparts, around, List.cons_append, List.append_assoc,
        List.append_assoc, ← List.cons_append] at hold
      exact hold.trans (List.perm_append_comm_assoc ..)
    · have hentries := hnew (parent.put key m) (Node.id_put ..)
      rw [Node.entries_eq, hput, Node.id_put, content_put hget hm, around, List.cons_append,
        List.append_assoc, List.append_assoc, ← List.cons_append] at hentries
      exact hentries.trans (List.perm_append_comm_assoc ..)

theorem nodup_map_fst_entries (h : d.Sound) : (d.entries.map (·.1)).Nodup := by
  rw [entries, Node.map_fst_entries]
  exact h.nodup_ids

/-- The entries of a document with another node at a place are those of this node and those of all
nodes that are not below the place. -/
theorem mem_entries_setAt (h : d.Sound) (hp : d.Has p) (hm : m.id = p.id) :
    (id, e) ∈ (d.setAt p m).entries ↔
      (id, e) ∈ m.entries (p.parent?.map Place.id) ∨ (id, e) ∈ d.entries ∧ id ∉ p.node.ids := by
  obtain ⟨rest, hold, hnew⟩ := exists_entries_setAt hp
  have nodup := (hold.map (·.1)).nodup_iff.1 (nodup_map_fst_entries h)
  rw [List.map_append, List.nodup_append, Place.entries, Node.map_fst_entries] at nodup
  rw [(hnew m hm).mem_iff, hold.mem_iff, List.mem_append, List.mem_append]
  refine or_congr_right ⟨fun hrest => ⟨.inr hrest, fun hid => ?_⟩, ?_⟩
  · exact nodup.2.2 id hid id (List.mem_map_of_mem hrest) rfl
  · rintro ⟨hid | hrest, hnot⟩
    · exact absurd (Node.mem_ids_of_mem_entries hid) hnot
    · exact hrest

end Document

end FormSchema
