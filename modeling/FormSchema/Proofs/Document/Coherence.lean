import FormSchema.Document.Edit
import FormSchema.Proofs.Document.Relabel
import FormSchema.Proofs.Document.Replace
import FormSchema.Proofs.Schema.Observation

/-!
Links agree with the schema.  A node that has a schema hangs below one that has one as well, and the
two schemas stand to each other as the two nodes do: the path to a linked node fits the path to its
schema.
-/

namespace FormSchema

/-- Whether a slot is one for parts at a key. -/
def Slot.Fits : Slot → Key → Prop
  | .property name, .name s => name = s
  | .item, .index _ => True
  | .variant _, .index _ => True
  | _, _ => False

namespace Schema.Orderly

variable {u : Schema} {slot : Slot} {key : Key}

/-- Beside a property, a schema has slots for names alone. -/
theorem of_property (h : Orderly u) {name : String} (hname : .property name ∈ u.slots)
    (hslot : slot ∈ u.slots) (hfits : slot.Fits key) :
    ∃ s, key = .name s ∧ slot = .property s := by
  have hholder := (h.base _ hname).symm.trans (h.base _ hslot)
  cases slot with
  | property name' =>
    cases key with
    | name s => exact ⟨s, rfl, congrArg Slot.property hfits⟩
    | index i => exact hfits.elim
  | _ => cases hholder

/-- Beside the slot of all items, a schema has no other slot. -/
theorem of_item (h : Orderly u) (hitem : .item ∈ u.slots) (hslot : slot ∈ u.slots)
    (hfits : slot.Fits key) : ∃ i, key = .index i ∧ slot = .item := by
  have hholder := (h.base _ hitem).symm.trans (h.base _ hslot)
  cases slot with
  | property name => cases hholder
  | item =>
    cases key with
    | name s => exact hfits.elim
    | index i => exact ⟨i, rfl, rfl⟩
  | variant j =>
    have hmixed := h.variant j hslot
    rw [h.item hitem] at hmixed
    cases hmixed

/-- Beside a variant, a schema has slots of variants alone. -/
theorem of_variant (h : Orderly u) {j : Nat} (hvariant : .variant j ∈ u.slots)
    (hslot : slot ∈ u.slots) (hfits : slot.Fits key) :
    ∃ i j, key = .index i ∧ slot = .variant j := by
  have hholder := (h.base _ hvariant).symm.trans (h.base _ hslot)
  cases slot with
  | property name => cases hholder
  | item =>
    have hmixed := h.variant j hvariant
    rw [h.item hslot] at hmixed
    cases hmixed
  | variant j' =>
    cases key with
    | name s => exact hfits.elim
    | index i => exact ⟨i, j', rfl, rfl⟩

end Schema.Orderly

/-- Whether a node can have a child of a schema at a key. -/
def Node.Admits (parent : Node) (key : Key) (schema : Option Schema) : Prop :=
  ∀ s, schema = some s →
    ∃ u, parent.schema? = some u ∧ u.label.compatible parent.kind = true ∧
      ∃ slot : Slot, slot.Fits key ∧ (slot, s) ∈ u.children

/-- Whether the links below a node agree with each other. -/
def Node.Coherent (n : Node) : Prop := n.Throughout Node.Admits

theorem Node.admits_none (parent : Node) (key : Key) : parent.Admits key none := nofun

theorem Node.Admits.congr {parent parent' : Node} {key : Key} {schema : Option Schema}
    (h : parent.Admits key schema) (htag : parent.tag = parent'.tag)
    (hkind : parent.kind = parent'.kind) : parent'.Admits key schema := by
  intro s hs
  obtain ⟨u, hu, hcompatible, hslot⟩ := h s hs
  exact ⟨u, by rwa [Node.schema?, ← htag], hkind ▸ hcompatible, hslot⟩

namespace Linking

variable {l : Linking}

theorem mem_matching {variants : List Schema} {place : Place} {s : Schema}
    (h : s ∈ l.matching variants place) : s ∈ variants := List.mem_of_mem_filter h

theorem mem_variants_iff {u s : Schema} : s ∈ u.variants ↔ ∃ i, (Slot.variant i, s) ∈ u.children := by
  rw [Tree.variants, List.mem_filterMap]
  constructor
  · rintro ⟨⟨slot, child⟩, hpart, h⟩
    cases slot with
    | variant i =>
      obtain rfl := Option.some.inj h
      exact ⟨i, hpart⟩
    | _ => cases h
  · rintro ⟨i, h⟩
    exact ⟨_, h, rfl⟩

/-- The schema of a child hangs in a slot that fits the child. -/
theorem exists_slot_of_childSchema? {u s : Schema} {p : Place} {part : Key × Node}
    (h : l.childSchema? u (p.down part) = some s) :
    ∃ slot : Slot, slot.Fits part.1 ∧ (slot, s) ∈ u.children := by
  obtain ⟨key, child⟩ := part
  rw [childSchema?, show (p.down (key, child)).key? = some key from rfl] at h
  cases key with
  | name name => exact ⟨.property name, rfl, Key.mem_of_lookup h⟩
  | index i =>
    dsimp only at h
    split at h
    · obtain ⟨j, hj⟩ := mem_variants_iff.1 (mem_matching (List.mem_of_head? h))
      exact ⟨.variant j, trivial, hj⟩
    · exact ⟨.item, trivial, Key.mem_of_lookup h⟩

/-- A linked subtree is coherent, whatever schema it starts with. -/
theorem coherent_link (l : Linking) (schema : Option Schema) (p : Place) :
    (link l schema p.above p.node).Coherent := by
  intro path key parent child hparent hchild s hs
  obtain ⟨q, schema', hq, -, rfl⟩ := exists_of_at?_link hparent
  rw [get?_link] at hchild
  obtain ⟨m, hm, rfl⟩ := Option.map_eq_some_iff.1 hchild
  rw [schema?_link, below?, Option.bind_eq_some_iff] at hs
  obtain ⟨u, rfl, hs⟩ := hs
  split at hs
  · rename_i hcompatible
    exact ⟨u, schema?_link, by rwa [kind_link], exists_slot_of_childSchema? hs⟩
  · cases hs

end Linking

namespace Document

variable {d : Document} {p : Place} {m : Node}

theorem coherent_setAt (h : d.root.Coherent) (hp : d.Has p) (hm : m.Coherent)
    (top : ∀ key parent above, p.above = (key, parent) :: above → parent.Admits key m.schema?) :
    (d.setAt p m).root.Coherent :=
  throughout_setAt (fun htag hkind h => h.congr htag hkind) (beside_of_throughout h p.path) hp hm top

/-- A new node under the schema of the one that it stands for. -/
theorem coherent_setAt_same (h : d.root.Coherent) (hp : d.Has p) (hm : m.Coherent)
    (hschema : m.schema? = p.node.schema?) : (d.setAt p m).root.Coherent :=
  coherent_setAt h hp hm fun _ _ _ habove =>
    hschema ▸ hp.of_beside (beside_of_throughout h p.path) habove

/-- Whether all links of a document agree with the schema of its root. -/
structure Coherent (schema : Schema) (d : Document) : Prop where
  root : d.root.schema? = some schema
  node : d.root.Coherent

theorem root_setAt_of_above {n parent : Node} {key : Key} {above : List (Key × Node)}
    (hp : d.Has ⟨n, (key, parent) :: above⟩) (m : Node) :
    (d.setAt ⟨n, (key, parent) :: above⟩ m).root.tag = d.root.tag := by
  have hskin := skin_setAt (q := []) hp m (by simp)
  rw [Node.at?_nil, Node.at?_nil] at hskin
  exact congrArg Node.Skin.tag (Option.some.inj hskin)

theorem Coherent.setAt {schema : Schema} (h : d.Coherent schema) (hp : d.Has p) (hm : m.Coherent)
    (top : ∀ key parent above, p.above = (key, parent) :: above → parent.Admits key m.schema?)
    (root : p.above = [] → m.schema? = some schema) : (d.setAt p m).Coherent schema where
  root := by
    obtain ⟨n, above⟩ := p
    cases above with
    | nil => exact root rfl
    | cons step above =>
      rw [Node.schema?, root_setAt_of_above hp]
      exact h.root
  node := coherent_setAt h.node hp hm top

theorem Coherent.setAt_same {schema : Schema} (h : d.Coherent schema) (hp : d.Has p)
    (hm : m.Coherent) (hschema : m.schema? = p.node.schema?) : (d.setAt p m).Coherent schema where
  root := by
    obtain ⟨n, above⟩ := p
    cases above with
    | nil =>
      rw [show ((d.setAt ⟨n, []⟩ m).root) = m from rfl, hschema, hp.above_nil]
      exact h.root
    | cons step above =>
      rw [Node.schema?, root_setAt_of_above hp]
      exact h.root
  node := coherent_setAt_same h.node hp hm hschema

/-- The path to a linked node fits the path to its schema. -/
theorem Coherent.exists_path {schema : Schema} (shaped : Schema.Shaped schema)
    (h : d.Coherent schema) (hp : d.Has p) {u : Schema} (hu : p.node.schema? = some u) :
    ∃ path, schema.sub? path = some u ∧ List.Forall₂ Slot.Fits path p.path := by
  obtain ⟨n, above⟩ := p
  induction above generalizing n u with
  | nil =>
    rw [hp.above_nil, h.root] at hu
    exact ⟨[], hu, .nil⟩
  | cons step above ih =>
    obtain ⟨key, parent⟩ := step
    obtain ⟨hparent, hget⟩ := hp.above_cons
    obtain ⟨v, hv, -, slot, hfits, hmem⟩ := h.node hparent.at?_path hget u hu
    obtain ⟨path, hpath, hall⟩ := ih parent hparent hv
    refine ⟨path ++ [slot], ?_, ?_⟩
    · rw [Tree.sub?_concat, hpath]
      exact Key.lookup_eq_some_of_mem (shaped.formed hpath).nodup hmem
    · rw [Place.path_mk_cons]
      exact List.rel_append hall (.cons hfits .nil)

end Document

end FormSchema
