import FormSchema.Proofs.Store.Slots
import FormSchema.Store.Edit

/-!
What changes do to slots.  The slots after a change are those of the document with another node at a
place, whatever becomes of the links.
-/

namespace FormSchema.Store

open Document (Has Graft)

variable {s s' : Store} {d : Document} {p : Place} {m n : Node} {next i : Nat} {e : Entry}

theorem Carries.mem_of_mem_ids {parent : Option Nat} (h : s.Carries (n.entries parent))
    (hid : i ∈ n.ids) (he : s.slot? i = some e) : (i, e) ∈ n.entries parent := by
  obtain ⟨e', he'⟩ := Node.exists_entry_of_mem_ids hid parent
  obtain rfl := Option.some.inj (he.symm.trans (h i e' he'))
  exact he'

/-- A store holds a document with another node at a place, if it has the entries of this node and
those of all nodes that have not been below the place. -/
theorem Holds.graft (h : s.Holds d) (g : d.Graft p m next) (hlength : s'.slots.length = next)
    (hentry : ∀ i e, s'.slot? i = some e ↔
      (i, e) ∈ m.entries (p.parent?.map Place.id) ∨ s.slot? i = some e ∧ i ∉ p.node.ids) :
    s'.Holds (d.graft p m next) where
  sound := g.sound h.sound
  root := g.root_id.trans h.root
  length := hlength
  entry {i e} := by
    rw [hentry, h.entry]
    exact (Document.mem_entries_setAt h.sound g.has g.id).symm

/-- The same with the entry of the place itself told apart: the parts of the new node have theirs, and
nodes that have not been below the place keep theirs. -/
theorem Holds.graft_parts (h : s.Holds d) (g : d.Graft p m next) (hlength : s'.slots.length = next)
    (hself : s'.slot? p.id = some ⟨m.content, p.parent?.map Place.id⟩)
    (hothers : ∀ i e, i ≠ p.id → (s'.slot? i = some e ↔
      (i, e) ∈ m.parts.flatMap (Node.entries (some p.id)) ∨
        s.slot? i = some e ∧ i ∉ p.node.parts.flatMap Node.ids)) :
    s'.Holds (d.graft p m next) := by
  refine h.graft g hlength fun i e => ?_
  rw [Node.entries_eq, g.id, List.mem_cons, p.ids_eq, List.mem_cons]
  by_cases hi : i = p.id
  · subst hi
    have nodup := g.distinct.nodup_ids
    rw [Node.ids_eq_parts, g.id, List.nodup_cons] at nodup
    rw [hself, Option.some.injEq]
    constructor
    · rintro rfl
      exact .inl (.inl rfl)
    · rintro ((heq | hmem) | ⟨-, hnot⟩)
      · exact (Prod.mk.inj heq).2.symm
      · obtain ⟨part, hpart, hmem⟩ := List.mem_flatMap.1 hmem
        have hid := List.mem_flatMap.2 ⟨part, hpart, Node.mem_ids_of_mem_entries hmem⟩
        exact absurd hid nodup.1
      · exact absurd (.inl rfl) hnot
  · rw [hothers i e hi]
    simp [hi]

/-- A fresh node and its parts get the identities from `next` on. -/
theorem map_fst_entries_ofJson (next : Nat) (v : Json) (parent : Option Nat) :
    ((Node.ofJson ⟨next, none⟩ (next + 1) v).entries parent).map (·.1) = List.range' next v.size := by
  have := v.size_pos
  rw [Node.map_fst_entries, Node.ids_ofJson, ← List.range'_succ, show v.size - 1 + 1 = v.size by omega]

theorem length_ofJson (v : Json) : (ofJson v).slots.length = v.size := by
  rw [ofJson, alloc_eq, length_append, length_entries_ofJson]
  exact Nat.zero_add _

theorem slot?_ofJson (v : Json) (i : Nat) (e : Entry) :
    (ofJson v).slot? i = some e ↔ (i, e) ∈ (Document.ofJson v).entries := by
  rw [ofJson, alloc_eq, slot?_append]
  · have hnone : slot? ⟨[], fun _ => none⟩ i = none := rfl
    rw [hnone]
    exact or_iff_right nofun
  · rw [length_entries_ofJson]
    exact map_fst_entries_ofJson 0 v none

/-- A new store holds the document of its value. -/
theorem holds_ofJson {v : Json} (hv : v.keysDistinct = true) : (ofJson v).Holds (.ofJson v) where
  sound := Document.sound_ofJson hv
  root := Node.id_ofJson _ _ _
  length := length_ofJson v
  entry := slot?_ofJson v _ _

/-- The parts of a fresh node get the identities from `next` on. -/
theorem map_fst_parts_ofJson (tag : Tag) (next : Nat) (v : Json) (parent : Option Nat) :
    ((Node.ofJson tag next v).parts.flatMap (Node.entries parent)).map (·.1) =
      List.range' next (v.size - 1) := by
  have hids := Node.ids_ofJson tag next v
  rw [Node.ids_eq_parts, Node.id_ofJson] at hids
  rw [← (List.cons.inj hids).2, List.map_flatMap]
  simp only [Node.map_fst_entries]

theorem length_parts_ofJson (tag : Tag) (next : Nat) (v : Json) (parent : Option Nat) :
    ((Node.ofJson tag next v).parts.flatMap (Node.entries parent)).length = v.size - 1 := by
  have := congrArg List.length (map_fst_parts_ofJson tag next v parent)
  rwa [List.length_map, List.length_range'] at this

/-- The entries below a place are those of the identities below it. -/
theorem Holds.mem_parts_iff (h : s.Holds d) (hp : d.Has p) (hi : i ≠ p.id) :
    (i, e) ∈ p.node.parts.flatMap (Node.entries (some p.id)) ↔
      s.slot? i = some e ∧ i ∈ p.node.parts.flatMap Node.ids := by
  have hcarries := h.carries hp
  have hmem : (i, e) ∈ p.entries ↔ (i, e) ∈ p.node.parts.flatMap (Node.entries (some p.id)) := by
    rw [Place.entries, Node.entries_eq, List.mem_cons]
    exact or_iff_right fun heq => hi (Prod.mk.inj heq).1
  have hids : i ∈ p.node.ids ↔ i ∈ p.node.parts.flatMap Node.ids := by
    rw [p.ids_eq, List.mem_cons, or_iff_right hi]
  rw [← hmem, ← hids]
  exact ⟨fun he => ⟨hcarries i e he, Node.mem_ids_of_mem_entries he⟩,
    fun he => hcarries.mem_of_mem_ids he.2 he.1⟩

/-! ## Another value -/

section Replace

variable {v : Json} (h : s.Holds d) (hp : d.Has p)

include h hp

theorem Holds.nodup_ids : p.id ∉ p.node.parts.flatMap Node.ids ∧
    (p.node.parts.flatMap Node.ids).Nodup := by
  have nodup := (h.sound.distinct.at? hp.at?_path).nodup_ids
  rwa [p.ids_eq, List.nodup_cons] at nodup

/-- The parts of a node have been released before it gets another value. -/
theorem Holds.cleared_parts :
    Cleared s ((s.children p.id).foldl release s) (p.node.parts.flatMap Node.ids) := by
  have nodup := (h.nodup_ids hp).2
  rw [h.children_eq hp]
  refine cleared_foldl (fun m hm => (h.carries hp).part hm) nodup fun s' hs' m hm hcarries => ?_
  have := length_ids_part_le hm
  have := h.fuel hp
  exact cleared_releaseWithin hcarries ((List.nodup_flatMap.1 nodup).1 m hm) (by omega)

theorem Holds.replace_eq (v : Json) :
    s.replace p.id v = (((s.children p.id).foldl release s).append
      ((Node.ofJson p.node.tag d.next v).parts.flatMap (Node.entries (some p.id)))).update p.id
        fun _ => (Node.ofJson p.node.tag d.next v).content := by
  have hcontent := stores v ((s.children p.id).foldl release s) p.node.tag
  rw [(h.cleared_parts hp).length, h.length] at hcontent
  exact congrArg (fun out : Content × Store => out.2.update p.id fun _ => out.1) hcontent

theorem Holds.replace (hv : v.keysDistinct = true) : (s.replace p.id v).Holds (d.fresh p v) := by
  have hcleared := h.cleared_parts hp
  have hfresh : ((Node.ofJson p.node.tag d.next v).parts.flatMap
      (Node.entries (some p.id))).map (·.1) =
        List.range' ((s.children p.id).foldl release s).slots.length
          ((Node.ofJson p.node.tag d.next v).parts.flatMap (Node.entries (some p.id))).length := by
    rw [map_fst_parts_ofJson, length_parts_ofJson, hcleared.length, h.length]
  refine h.graft_parts (Document.graft_fresh h.sound hp hv) ?_ ?_ fun i e hi => ?_
  · rw [h.replace_eq hp, length_update, length_append, hcleared.length, h.length,
      length_parts_ofJson]
  · have hkept : ((s.children p.id).foldl release s).slot? p.id = some p.entry := by
      rw [hcleared.entry, if_neg (h.nodup_ids hp).1, h.slot?_eq hp]
    rw [h.replace_eq hp, slot?_update, if_pos rfl, (slot?_append hfresh _ _).2 (.inl hkept)]
    rfl
  · rw [h.replace_eq hp, slot?_update, if_neg hi, slot?_append hfresh, hcleared.entry]
    by_cases hgone : i ∈ p.node.parts.flatMap Node.ids <;> simp [hgone, or_comm]

end Replace

/-! ## One item more -/

section Extend

variable {tag : Tag} {items : List Node} (h : s.Holds d) (hp : d.Has p)
  (hnode : p.node = .list tag items)

include h

theorem Holds.extend_eq (array : Nat) (v : Json) :
    s.extend array v = (d.next, (s.append ((Node.ofJson ⟨d.next, none⟩ (d.next + 1) v).entries
      (some array))).update array (Content.append d.next)) := by
  rw [extend, alloc_eq, h.length]

include hp hnode

theorem Holds.extend {v : Json} (hv : v.keysDistinct = true) :
    (s.extend p.id v).2.Holds (d.grown p tag items v) := by
  have hparts : p.node.parts = items := by
    rw [hnode]
    rfl
  have hnew := Node.id_ofJson ⟨d.next, none⟩ (d.next + 1) v
  have hfresh : ((Node.ofJson ⟨d.next, none⟩ (d.next + 1) v).entries (some p.id)).map (·.1) =
      List.range' s.slots.length
        ((Node.ofJson ⟨d.next, none⟩ (d.next + 1) v).entries (some p.id)).length := by
    rw [h.length, length_entries_ofJson, map_fst_entries_ofJson]
  refine h.graft_parts (Document.graft_grown h.sound hp hnode hv) ?_ ?_ fun i e hi => ?_
  · rw [h.extend_eq, length_update, length_append, h.length, length_entries_ofJson]
  · have hkept : s.slot? p.id = some ⟨.array (items.map Node.id), p.parent?.map Place.id⟩ := by
      rw [h.slot?_eq hp, Place.entry, hnode]
      rfl
    rw [h.extend_eq, slot?_update, if_pos rfl, (slot?_append hfresh _ _).2 (.inl hkept)]
    simp [Content.append, Node.content, hnew]
  · have hadded : (Node.list tag (items ++ [Node.ofJson ⟨d.next, none⟩ (d.next + 1) v])).parts =
        p.node.parts ++ [Node.ofJson ⟨d.next, none⟩ (d.next + 1) v] := by
      rw [hparts]
      rfl
    rw [h.extend_eq, slot?_update, if_neg hi, slot?_append hfresh, hadded, List.flatMap_append,
      List.flatMap_singleton, List.mem_append, h.mem_parts_iff hp hi]
    by_cases hgone : i ∈ p.node.parts.flatMap Node.ids <;> simp [hgone, or_comm]

end Extend

/-! ## One child less -/

section Drop

variable {key : Key} {parent : Node} {above : List (Key × Node)} (h : s.Holds d)
  (hp : d.Has ⟨n, (key, parent) :: above⟩)

include h hp

theorem Holds.cleared_drop :
    Cleared (s.update parent.id (Content.without n.id)) (s.drop parent.id n.id) n.ids := by
  obtain ⟨hparent, hget⟩ := hp.above_cons
  have hn := Node.mem_parts_of_get? hget
  have nodup := h.nodup_ids hparent
  have hcarries : (s.update parent.id (Content.without n.id)).Carries
      (n.entries (some parent.id)) := by
    intro i e he
    have hi : i ≠ parent.id := by
      rintro rfl
      exact nodup.1 (List.mem_flatMap.2 ⟨n, hn, Node.mem_ids_of_mem_entries he⟩)
    rw [slot?_update, if_neg hi]
    exact h.carries hp i e he
  refine cleared_releaseWithin hcarries ((List.nodup_flatMap.1 nodup.2).1 n hn) ?_
  rw [length_update]
  exact h.fuel hp

theorem Holds.drop : (s.drop parent.id n.id).Holds (d.setAt ⟨parent, above⟩ (parent.drop key)) := by
  obtain ⟨hparent, hget⟩ := hp.above_cons
  have hcleared := h.cleared_drop hp
  have nodup : parent.id ∉ parent.parts.flatMap Node.ids ∧
    (parent.parts.flatMap Node.ids).Nodup := h.nodup_ids hparent
  have hself : (s.drop parent.id n.id).slot? parent.id =
      some ⟨(parent.drop key).content, (Place.parent? ⟨parent, above⟩).map Place.id⟩ := by
    have hgone : parent.id ∉ n.ids := fun hid =>
      nodup.1 (List.mem_flatMap.2 ⟨n, Node.mem_parts_of_get? hget, hid⟩)
    have hentry : s.slot? parent.id = some ⟨parent.content, _⟩ := h.slot?_eq hparent
    rw [hcleared.entry, if_neg hgone, slot?_update, if_pos rfl, hentry,
      Node.content_drop hget (h.sound.nodup_parts hparent)]
    rfl
  have hpart {α : Type} (f : Node → List α) (x : α) :
      x ∈ parent.parts.flatMap f ↔ x ∈ f n ∨ x ∈ (parent.drop key).parts.flatMap f := by
    rw [((Node.perm_parts_drop hget).flatMap_right f).mem_iff, List.flatMap_cons, List.mem_append]
  have hapart : n.ids.Disjoint ((parent.drop key).parts.flatMap Node.ids) := by
    rw [((Node.perm_parts_drop hget).flatMap_right Node.ids).nodup_iff, List.flatMap_cons,
      List.nodup_append'] at nodup
    exact nodup.2.2.2
  have hothers (i : Nat) (e : Entry) (hi : i ≠ parent.id) :
      (s.drop parent.id n.id).slot? i = some e ↔
        (i, e) ∈ (parent.drop key).parts.flatMap (Node.entries (some parent.id)) ∨
          s.slot? i = some e ∧ i ∉ parent.parts.flatMap Node.ids := by
    have hmem : (i, e) ∈ parent.parts.flatMap (Node.entries (some parent.id)) ↔
      s.slot? i = some e ∧ i ∈ parent.parts.flatMap Node.ids := h.mem_parts_iff hparent hi
    rw [hpart, hpart] at hmem
    rw [hcleared.entry, slot?_update, if_neg hi, hpart]
    by_cases hgone : i ∈ n.ids
    · have hbeside : (i, e) ∉ (parent.drop key).parts.flatMap (Node.entries (some parent.id)) := by
        intro hbeside
        obtain ⟨m, hm, he⟩ := List.mem_flatMap.1 hbeside
        exact hapart hgone (List.mem_flatMap.2 ⟨m, hm, Node.mem_ids_of_mem_entries he⟩)
      simp [hgone, hbeside]
    · have hnot : (i, e) ∉ n.entries (some parent.id) := fun he =>
        hgone (Node.mem_ids_of_mem_entries he)
      rw [or_iff_right hnot, or_iff_right hgone] at hmem
      rw [if_neg hgone, hmem, or_iff_right hgone, ← and_or_left, and_iff_left (Classical.em _)]
  refine h.graft_parts (Document.graft_drop h.sound hparent key) ?_ hself hothers
  rw [hcleared.length, length_update, h.length]

end Drop

end FormSchema.Store
