import FormSchema.Proofs.Document.Addressing
import FormSchema.Proofs.Store.Entries
import FormSchema.Store.Evaluation

/-!
What it means that a store holds a document: each slot has the entry of the node with its number, or
nothing if there is no such node.  Then whatever can be asked of the store is what the document
answers, and the bounds on its walks are never reached.
-/

namespace FormSchema

namespace Store

/-- Whether a store holds a document. -/
structure Holds (s : Store) (d : Document) : Prop where
  sound : d.Sound
  root : d.root.id = 0
  length : s.slots.length = d.next
  entry {id : Nat} {e : Entry} : s.slot? id = some e ↔ (id, e) ∈ d.entries

/-- Whether entries are in a store. -/
def Carries (s : Store) (entries : List (Nat × Entry)) : Prop :=
  ∀ id e, (id, e) ∈ entries → s.slot? id = some e

variable {s : Store} {n : Node} {parent : Option Nat} {entries : List (Nat × Entry)}

theorem Carries.mono {more : List (Nat × Entry)} (h : s.Carries entries) (hsub : more ⊆ entries) :
    s.Carries more := fun id e he => h id e (hsub he)

theorem Carries.slot?_eq (h : s.Carries (n.entries parent)) :
    s.slot? n.id = some ⟨n.content, parent⟩ := by
  refine h _ _ ?_
  rw [Node.entries_eq]
  exact List.mem_cons_self

theorem Carries.content?_eq (h : s.Carries (n.entries parent)) :
    s.content? n.id = some n.content := by
  rw [content?, h.slot?_eq]
  rfl

theorem Carries.children_eq (h : s.Carries (n.entries parent)) :
    s.children n.id = n.parts.map Node.id := by
  rw [children, h.content?_eq, Option.map_some, Node.children_content]
  rfl

theorem Carries.part (h : s.Carries (n.entries parent)) {m : Node} (hm : m ∈ n.parts) :
    s.Carries (m.entries (some n.id)) := by
  refine h.mono fun x hx => ?_
  rw [Node.entries_eq]
  exact List.mem_cons_of_mem _ (List.mem_flatMap.2 ⟨m, hm, hx⟩)

theorem length_ids_part_le {m : Node} (hm : m ∈ n.parts) : m.ids.length < n.ids.length := by
  rw [Node.ids_eq_parts n, List.length_cons, List.length_flatMap]
  exact Nat.lt_succ_of_le (List.le_sum_of_mem (List.mem_map_of_mem hm))

/-- The value of a node is read off its entries, if the walk may be as long as there are nodes. -/
theorem valueWithin_eq {fuel : Nat} (h : s.Carries (n.entries parent)) (hfuel : n.ids.length ≤ fuel) :
    s.valueWithin fuel n.id = some n.value := by
  induction n using Node.parts_induct generalizing parent fuel with
  | step n ih =>
    cases fuel with
    | zero =>
      have := n.length_ids_pos
      omega
    | succ fuel =>
      have part {m : Node} (hm : m ∈ n.parts) : s.valueWithin fuel m.id = some m.value := by
        have := length_ids_part_le hm
        exact ih m hm (h.part hm) (by omega)
      rw [valueWithin, h.content?_eq, Option.map_some]
      cases n with
      | leaf tag v => rfl
      | list tag items =>
        rw [Node.value, Node.valueItems_eq]
        refine congrArg (fun items => some (Json.arr items)) ?_
        rw [List.filterMap_map, ← List.filterMap_eq_map]
        exact List.filterMap_congr fun m hm => part hm
      | record tag fields =>
        rw [Node.value, Node.valueFields_eq]
        refine congrArg (fun fields => some (Json.obj fields)) ?_
        rw [List.filterMap_map, ← List.filterMap_eq_map]
        refine List.filterMap_congr fun field hfield => ?_
        exact congrArg (Option.map (field.1, ·)) (part (List.mem_map_of_mem hfield))

end Store

namespace Node

variable {n child : Node} {key : Key}

theorem keyOf?_content (h : n.get? key = some child) (nodup : (n.parts.map id).Nodup) :
    n.content.keyOf? child.id = some key := by
  cases n with
  | leaf tag v => cases h
  | list tag items =>
    cases key with
    | name s => simp [get?_list_name] at h
    | index i =>
      rw [get?_list] at h
      obtain ⟨hlt, rfl⟩ := List.getElem?_eq_some_iff.1 h
      have hfind : (items.map id).idxOf? items[i].id = some i := by
        rw [List.idxOf?, List.findIdx?_eq_some_iff_getElem]
        have hlt' : i < (items.map id).length := by simpa using hlt
        refine ⟨hlt', by simp, fun j hj heq => ?_⟩
        have hid := (beq_iff_eq.1 heq).trans (List.getElem_map id (h := hlt')).symm
        exact Nat.ne_of_lt hj (nodup.getElem_inj_iff.1 hid)
      rw [content, Content.keyOf?, hfind]
      rfl
  | record tag fields =>
    cases key with
    | index i => simp [get?_record_index] at h
    | name s =>
      rw [get?_record] at h
      obtain ⟨left, right, rfl, -, -⟩ := exists_fields_eq h
      have hleft : ∀ field ∈ left, field.2.id ≠ child.id := by
        intro field hfield hid
        simp only [parts, List.map_append, List.map_cons, List.nodup_append] at nodup
        refine nodup.2.2 field.2.id ?_ child.id List.mem_cons_self hid
        exact List.mem_map_of_mem (List.mem_map_of_mem hfield)
      rw [content, Content.keyOf?, List.find?_map, List.find?_append, List.find?_eq_none.2 ?_]
      · simp
      · simpa using hleft

/-- A token names the identity of the child that it names. -/
theorem child?_content (n : Node) (token : String) :
    n.content.child? token = (n.child? token).map fun part => part.2.id := by
  cases n with
  | leaf tag v => rfl
  | list tag items =>
    simp only [content, Content.child?, child?]
    cases Number.index? token.toList with
    | none => rfl
    | some i => cases h : items[i]? <;> simp [h]
  | record tag fields =>
    simp only [content, Content.child?, child?, Option.map_map]
    exact Key.lookup_map_snd (fun _ => id) fields token

end Node

namespace Document

variable {d : Document} {p : Place}

theorem Sound.nodup_parts (h : d.Sound) (hp : d.Has p) : (p.node.parts.map Node.id).Nodup := by
  have nodup := (h.distinct.at? hp.at?_path).nodup_ids
  rw [Node.ids_eq_parts, List.nodup_cons] at nodup
  have hsub : (p.node.parts.map Node.id).Sublist (p.node.parts.flatMap Node.ids) := by
    generalize p.node.parts = parts
    induction parts with
    | nil => exact .slnil
    | cons m parts ih =>
      rw [List.map_cons, List.flatMap_cons, Node.ids_eq_parts, List.cons_append]
      exact (ih.trans (List.sublist_append_right _ _)).cons_cons _
  exact hsub.nodup nodup.2

theorem Has.length_ids_le (hp : d.Has p) : p.node.ids.length ≤ d.root.ids.length := by
  induction hp with
  | refl => exact Nat.le_refl _
  | down _ step ih => exact Nat.le_trans (Nat.le_of_lt (Node.length_ids_lt step)) ih

theorem Has.entries_subset (hp : d.Has p) : p.entries ⊆ d.entries := by
  obtain ⟨rest, hold, -⟩ := exists_entries_setAt hp
  exact fun x hx => hold.mem_iff.2 (List.mem_append_left _ hx)

end Document

namespace Store

open Document (Has)

variable {s : Store} {d : Document} {p : Place}

/-- Whether an identity is that of a node in a store. -/
def Live (s : Store) (id : Nat) : Prop := (s.slot? id).isSome = true

instance (s : Store) (id : Nat) : Decidable (s.Live id) :=
  inferInstanceAs (Decidable ((s.slot? id).isSome = true))

namespace Holds

theorem carries (h : s.Holds d) (hp : d.Has p) : s.Carries p.entries :=
  fun _ _ he => h.entry.2 (hp.entries_subset he)

theorem live_iff (h : s.Holds d) {id : Nat} : s.Live id ↔ d.Live id := by
  rw [Live, Option.isSome_iff_exists, h.sound.live_iff]
  constructor
  · rintro ⟨e, he⟩
    obtain ⟨p, hp, hid, -⟩ := (Document.mem_entries_iff h.sound).1 (h.entry.1 he)
    exact ⟨p, hp, hid⟩
  · rintro ⟨p, hp, rfl⟩
    exact ⟨p.entry, h.entry.2 ((Document.mem_entries_iff h.sound).2 ⟨p, hp, rfl, rfl⟩)⟩

theorem exists_place (h : s.Holds d) {id : Nat} (hid : s.Live id) : ∃ p, d.Has p ∧ p.id = id :=
  h.sound.live_iff.1 (h.live_iff.1 hid)

theorem fuel (h : s.Holds d) (hp : d.Has p) : p.node.ids.length ≤ s.slots.length := by
  rw [h.length]
  exact Nat.le_trans hp.length_ids_le h.sound.length_ids_le

section

variable (h : s.Holds d) (hp : d.Has p)

include h hp

theorem slot?_eq : s.slot? p.id = some p.entry := (h.carries hp).slot?_eq

theorem content?_eq : s.content? p.id = some p.node.content := (h.carries hp).content?_eq

theorem children_eq : s.children p.id = p.node.parts.map Node.id := (h.carries hp).children_eq

theorem kind?_eq : s.kind? p.id = some p.node.kind := by
  rw [kind?, h.content?_eq hp, Option.map_some, Node.kind_content]

theorem parent?_eq : s.parent? p.id = p.parent?.map Place.id := by
  rw [parent?, h.slot?_eq hp]
  rfl

theorem value?_eq : s.value? p.id = some p.value := valueWithin_eq (h.carries hp) (h.fuel hp)

theorem key?_eq : s.key? p.id = p.key? := by
  rw [key?, h.parent?_eq hp]
  obtain ⟨n, above⟩ := p
  cases above with
  | nil => rfl
  | cons step above =>
    obtain ⟨key, parent⟩ := step
    obtain ⟨hparent, hget⟩ := hp.above_cons
    have hcontent := h.content?_eq hparent
    exact (congrArg (fun content => content.bind (Content.keyOf? n.id)) hcontent).trans
      (Node.keyOf?_content hget (h.sound.nodup_parts hparent))

theorem child?_eq (token : String) : s.child? p.id token = (p.child? token).map Place.id := by
  rw [child?, h.content?_eq hp, Option.bind_some, Node.child?_content, Place.child?, Option.map_map]
  rfl

theorem ancestors_eq : s.ancestors p.id = p.ancestors.map Place.id := by
  have within (fuel : Nat) (hfuel : p.above.length ≤ fuel) :
      s.ancestorsWithin fuel p.id = p.ancestors.map Place.id := by
    obtain ⟨n, above⟩ := p
    induction fuel generalizing n above with
    | zero =>
      obtain rfl := List.length_eq_zero_iff.1 (Nat.le_zero.1 hfuel)
      rfl
    | succ fuel ih =>
      rw [ancestorsWithin, h.parent?_eq hp]
      cases above with
      | nil => rfl
      | cons step above =>
        have hparent := ih step.2 above hp.above_cons.1 (Nat.le_of_succ_le_succ hfuel)
        exact congrArg (step.2.id :: ·) hparent
  apply within
  have hlength := (Node.lt_length_ids_of_at? hp.at?_path).1
  have := h.sound.length_ids_le
  rw [h.length]
  rw [Place.path, List.length_reverse, List.length_map] at hlength
  omega

theorem path_eq : s.path p.id = p.path := by
  have hkeys : (p.id :: p.ancestors.map Place.id).filterMap s.key? = p.above.map (·.1) := by
    obtain ⟨n, above⟩ := p
    induction above generalizing n with
    | nil =>
      rw [Place.ancestors, Place.ofAbove, List.map_nil, List.filterMap_cons, h.key?_eq hp]
      rfl
    | cons step above ih =>
      rw [List.filterMap_cons, h.key?_eq hp]
      exact congrArg (step.1 :: ·) (ih step.2 hp.above_cons.1)
  rw [path, h.ancestors_eq hp, hkeys]
  rfl

theorem tokens_eq : s.tokens p.id = p.tokens := by rw [tokens, h.path_eq hp, Place.tokens_eq]

theorem pointer_eq : s.pointer p.id = p.pointer := by rw [pointer, h.tokens_eq hp, Place.pointer]

end

/-- Pointers lead through a store as they lead through the document. -/
theorem projection (h : s.Holds d) :
    Pointer.Projection d.navigation s.navigation d.Has Place.id where
  root_valid := .root d
  root := h.root
  ancestors_valid _ ha := ha.ofAbove
  ancestors _ hp := (h.ancestors_eq hp).symm
  child_valid _ token q hp hq := d.projection.child_valid _ token q hp hq
  child _ token hp := (h.child?_eq hp token).symm

theorem resolve_eq (h : s.Holds d) (hp : d.Has p) (pointer : String) :
    s.resolve p.id pointer = (d.resolve p pointer).map (Option.map Place.id) :=
  (h.projection.resolveText hp pointer).symm

theorem byPointer?_eq (h : s.Holds d) (pointer : String) :
    s.byPointer? pointer = (d.byPointer? pointer).map Place.id := by
  have hroot : d.rootPlace.id = 0 := h.root
  rw [byPointer?, ← hroot, h.resolve_eq (.root d), Document.byPointer?]
  cases d.resolve d.rootPlace pointer <;> rfl

theorem value_eq (h : s.Holds d) : s.value = d.value := by
  have hroot : d.rootPlace.id = 0 := h.root
  rw [value, ← hroot, h.value?_eq (.root d)]
  rfl

theorem deref_eq (h : s.Holds d) (hp : d.Has p) (pointer : String) :
    s.deref p.id pointer = d.deref p pointer := by
  rw [deref, h.resolve_eq hp, Document.deref]
  cases hfound : d.resolve p pointer with
  | error e => rfl
  | ok found =>
    cases found with
    | none => rfl
    | some q => exact congrArg Except.ok (h.value?_eq (Document.resolve_has hp hfound))

theorem scope_eq (h : s.Holds d) {container : Option Place} (hc : ∀ q ∈ container, d.Has q)
    (userData : Json) (schema : Attributes) (key value : Json) :
    s.scope userData schema (container.map Place.id) key value =
      d.scope userData schema container key value := by
  cases container with
  | none =>
    have hroot : d.rootPlace.id = 0 := h.root
    have hderef : s.deref 0 = d.deref d.rootPlace := hroot ▸ funext (h.deref_eq (.root d))
    rw [scope, Document.scope, Option.map_none, Option.getD_none, Option.getD_none, hderef]
    rfl
  | some q =>
    have hq : d.Has q := hc q rfl
    have hderef : s.deref q.id = d.deref q := funext (h.deref_eq hq)
    rw [scope, Document.scope, Option.map_some, Option.getD_some, Option.getD_some, hderef,
      Option.bind_some, h.value?_eq hq]
    rfl

/-- An expression sees the same of a store and of the document. -/
theorem evaluateAs_eq (h : s.Holds d) (hp : d.Has p) (userData : Json) (schema : Attributes)
    (keyword : Keyword) :
    s.evaluateAs userData schema p.id keyword = d.evaluateAs userData schema p keyword := by
  have hparent : ∀ q ∈ p.parent?, d.Has q := fun q hq => hp.ofAbove q (List.mem_of_head? hq)
  rw [evaluateAs, Document.evaluateAs, h.parent?_eq hp, h.key?_eq hp, h.value?_eq hp,
    h.scope_eq hparent]
  rfl

theorem evaluateAt_eq (h : s.Holds d) (hp : d.Has p) (userData : Json) (schema : Attributes)
    (key : String) (keyword : Keyword) :
    s.evaluateAt userData schema p.id key keyword = d.evaluateAt userData schema p key keyword := by
  have hvalue : (s.child? p.id key).bind s.value? = (p.child? key).map Place.value := by
    rw [h.child?_eq hp]
    cases hchild : p.child? key with
    | none => rfl
    | some q => exact h.value?_eq (d.projection.child_valid p key q hp hchild)
  have hscope := h.scope_eq (show ∀ q ∈ some p, d.Has q from fun q hq => Option.some.inj hq ▸ hp)
    userData schema (.str key)
  rw [Option.map_some] at hscope
  rw [evaluateAt, Document.evaluateAt, hvalue, hscope]

end Holds

end Store

end FormSchema
