import FormSchema.Proofs.Store.Holds

/-!
What is written into slots.  A value is appended as the entries of a fresh node; a node that is
released leaves all slots of its parts, and no others.
-/

namespace FormSchema.Store

variable {s s' s'' : Store} {n : Node} {parent : Option Nat} {id : Nat}

/-! ## Single slots -/

theorem lt_of_live (h : s.Live id) : id < s.slots.length := by
  by_contra hlt
  rw [Live, slot?, List.getElem?_eq_none (Nat.le_of_not_lt hlt)] at h
  cases h

@[simp] theorem length_update (s : Store) (id : Nat) (f : Content → Content) :
    (s.update id f).slots.length = s.slots.length := List.length_modify ..

@[simp] theorem links_update (s : Store) (id : Nat) (f : Content → Content) :
    (s.update id f).links = s.links := rfl

theorem slot?_update (s : Store) (id : Nat) (f : Content → Content) (i : Nat) :
    (s.update id f).slot? i =
      if i = id then (s.slot? i).map fun e => { e with content := f e.content } else s.slot? i := by
  rw [slot?, update, List.getElem?_modify, slot?]
  by_cases h : i = id
  · subst h
    cases h : s.slots[i]? with
    | none => simp
    | some e => cases e <;> simp
  · simp [h, Ne.symm h]

@[simp] theorem slots_setLink (s : Store) (id : Nat) (number : Option Nat) :
    (s.setLink id number).slots = s.slots := rfl

@[simp] theorem links_setLink (s : Store) (id : Nat) (number : Option Nat) (i : Nat) :
    (s.setLink id number).links i = if i = id then number else s.links i := rfl

/-! ## New nodes -/

/-- The store with more slots. -/
def append (s : Store) (entries : List (Nat × Entry)) : Store :=
  { s with slots := s.slots ++ entries.map fun x => some x.2 }

@[simp] theorem append_nil (s : Store) : s.append [] = s := by
  simp [append]

theorem append_append (s : Store) (a b : List (Nat × Entry)) :
    (s.append a).append b = s.append (a ++ b) := by
  simp [append]

@[simp] theorem length_append (s : Store) (entries : List (Nat × Entry)) :
    (s.append entries).slots.length = s.slots.length + entries.length := by
  simp [append]

@[simp] theorem links_append (s : Store) (entries : List (Nat × Entry)) :
    (s.append entries).links = s.links := rfl

theorem modify_length_append {α : Type} (left : List α) (x : α) (right : List α) (f : α → α) :
    (left ++ x :: right).modify left.length f = left ++ f x :: right := by
  induction left with
  | nil => rfl
  | cons y left ih => simp [ih]

/-- A slot that has been kept open gets its content. -/
theorem fill_eq (s : Store) (content content' : Content) (entries : List (Nat × Entry)) :
    ((s.grow ⟨content, parent⟩).append entries).update s.slots.length (fun _ => content') =
      s.append ((s.slots.length, ⟨content', parent⟩) :: entries) := by
  simp only [update, append, grow, List.append_assoc, List.singleton_append, List.map_cons,
    modify_length_append, Option.map_some]

theorem length_entries_ofJson (tag : Tag) (next : Nat) (v : Json) (parent : Option Nat) :
    ((Node.ofJson tag next v).entries parent).length = v.size := by
  have hlength := congrArg List.length (Node.map_fst_entries parent (Node.ofJson tag next v))
  have := v.size_pos
  rw [List.length_map, Node.ids_ofJson, List.length_cons, List.length_range'] at hlength
  omega

/-- What it is to store a value: its content speaks of new slots, and these have its parts. -/
def Stores (v : Json) : Prop :=
  ∀ (s : Store) (tag : Tag), s.contentOf tag.id v =
    ((Node.ofJson tag s.slots.length v).content,
      s.append ((Node.ofJson tag s.slots.length v).parts.flatMap (Node.entries (some tag.id))))

theorem Stores.alloc_eq {v : Json} (h : Stores v) (s : Store) (parent : Option Nat) :
    s.alloc parent v = (s.slots.length,
      s.append ((Node.ofJson ⟨s.slots.length, none⟩ (s.slots.length + 1) v).entries parent)) := by
  have hcontent := h (s.grow ⟨.scalar .null, parent⟩) ⟨s.slots.length, none⟩
  have hlength : (s.grow ⟨.scalar .null, parent⟩).slots.length = s.slots.length + 1 := by
    simp [grow]
  rw [hlength] at hcontent
  rw [alloc, hcontent]
  dsimp only
  rw [fill_eq, Node.entries_eq, Node.id_ofJson]

theorem Stores.itemsOf_eq {items : List Json} (h : ∀ item ∈ items, Stores item) (s : Store)
    (parent : Nat) :
    s.itemsOf parent items = ((Node.ofItems s.slots.length items).map Node.id,
      s.append ((Node.ofItems s.slots.length items).flatMap (Node.entries (some parent)))) := by
  induction items generalizing s with
  | nil => simp [itemsOf, Node.ofItems]
  | cons item items ih =>
    change (fun out : Nat × Store =>
      (out.1 :: (out.2.itemsOf parent items).1, (out.2.itemsOf parent items).2))
        (s.alloc (some parent) item) = _
    rw [(h item List.mem_cons_self).alloc_eq]
    dsimp only
    rw [ih fun i hi => h i (List.mem_cons_of_mem _ hi), length_append, length_entries_ofJson,
      append_append, Node.ofItems, List.map_cons, List.flatMap_cons, Node.id_ofJson]

theorem Stores.fieldsOf_eq {fields : Fields} (h : ∀ field ∈ fields, Stores field.2) (s : Store)
    (parent : Nat) :
    s.fieldsOf parent fields =
      ((Node.ofFields s.slots.length fields).map fun field => (field.1, field.2.id),
        s.append (((Node.ofFields s.slots.length fields).map (·.2)).flatMap
          (Node.entries (some parent)))) := by
  induction fields generalizing s with
  | nil => simp [fieldsOf, Node.ofFields]
  | cons field fields ih =>
    obtain ⟨key, item⟩ := field
    change (fun out : Nat × Store =>
      ((key, out.1) :: (out.2.fieldsOf parent fields).1, (out.2.fieldsOf parent fields).2))
        (s.alloc (some parent) item) = _
    rw [(h _ List.mem_cons_self).alloc_eq]
    dsimp only
    rw [ih fun f hf => h f (List.mem_cons_of_mem _ hf), length_append, length_entries_ofJson,
      append_append, Node.ofFields, List.map_cons, List.map_cons, List.flatMap_cons, Node.id_ofJson]

theorem stores (v : Json) : Stores v := by
  induction v using Json.induct with
  | step v ih =>
    intro s tag
    cases v with
    | arr items =>
      have hitems : ∀ item ∈ items, Stores item := by
        intro item hitem
        obtain ⟨part, hpart, rfl⟩ : ∃ part ∈ (Json.arr items).children, part.2 = item := by
          rwa [← List.mem_map, Json.children, Key.map_snd_ofItems]
        exact ih part hpart
      rw [contentOf, Stores.itemsOf_eq hitems]
      rfl
    | obj fields =>
      have hfields : ∀ field ∈ fields, Stores field.2 := fun field hfield =>
        ih _ (List.mem_map_of_mem hfield)
      rw [contentOf, Stores.fieldsOf_eq hfields]
      rfl
    | _ => simp [contentOf, Node.ofJson, Node.content, Node.parts]

theorem alloc_eq (s : Store) (parent : Option Nat) (v : Json) :
    s.alloc parent v = (s.slots.length,
      s.append ((Node.ofJson ⟨s.slots.length, none⟩ (s.slots.length + 1) v).entries parent)) :=
  (stores v).alloc_eq s parent

/-- New slots have new entries, and the old ones stay. -/
theorem slot?_append {entries : List (Nat × Entry)}
    (h : entries.map (·.1) = List.range' s.slots.length entries.length) (id : Nat) (e : Entry) :
    (s.append entries).slot? id = some e ↔ s.slot? id = some e ∨ (id, e) ∈ entries := by
  have hnumber (k : Nat) (x : Nat × Entry) (hx : entries[k]? = some x) : x.1 = s.slots.length + k := by
    obtain ⟨hlt, rfl⟩ := List.getElem?_eq_some_iff.1 hx
    have hk : (entries.map (·.1))[k]? = (List.range' s.slots.length entries.length)[k]? := by rw [h]
    simpa [hlt] using hk
  rw [slot?, append, List.getElem?_append, slot?]
  split
  · rename_i hlt
    refine (or_iff_left fun hmem => ?_).symm
    obtain ⟨k, hk⟩ := List.mem_iff_getElem?.1 hmem
    have := hnumber k _ hk
    omega
  · rename_i hlt
    rw [List.getElem?_eq_none (Nat.le_of_not_lt hlt), List.getElem?_map]
    constructor
    · intro hfound
      cases hx : entries[id - s.slots.length]? with
      | none => simp [hx] at hfound
      | some x =>
        have hid := hnumber _ _ hx
        obtain ⟨i, e'⟩ := x
        obtain rfl : e' = e := by simpa [hx] using hfound
        obtain rfl : i = id := by simp only at hid; omega
        exact .inr (List.mem_of_getElem? hx)
    · rintro (hnone | hmem)
      · cases hnone
      · obtain ⟨k, hk⟩ := List.mem_iff_getElem?.1 hmem
        have hid := hnumber k _ hk
        simp only at hid
        rw [hid, Nat.add_sub_cancel_left, hk]
        rfl

/-! ## Nodes that go -/

/-- Whether a store is another one without the nodes that have these identities. -/
structure Cleared (s s' : Store) (ids : List Nat) : Prop where
  length : s'.slots.length = s.slots.length
  entry (i : Nat) : s'.slot? i = if i ∈ ids then none else s.slot? i
  links (i : Nat) : s'.links i = if i ∈ ids then none else s.links i

theorem Cleared.refl (s : Store) : Cleared s s [] := ⟨rfl, fun _ => by simp, fun _ => by simp⟩

theorem Cleared.trans {a b : List Nat} (h : Cleared s s' a) (h' : Cleared s' s'' b) :
    Cleared s s'' (a ++ b) where
  length := h'.length.trans h.length
  entry i := by
    rw [h'.entry, h.entry]
    by_cases ha : i ∈ a <;> by_cases hb : i ∈ b <;> simp [ha, hb]
  links i := by
    rw [h'.links, h.links]
    by_cases ha : i ∈ a <;> by_cases hb : i ∈ b <;> simp [ha, hb]

theorem Cleared.congr {a b : List Nat} (h : Cleared s s' a) (hab : ∀ i, i ∈ a ↔ i ∈ b) :
    Cleared s s' b :=
  ⟨h.length, fun i => by simp only [h.entry, hab], fun i => by simp only [h.links, hab]⟩

theorem Cleared.carries {ids : List Nat} (h : Cleared s s' ids) {entries : List (Nat × Entry)}
    (hs : s.Carries entries) (apart : ∀ x ∈ entries, x.1 ∉ ids) : s'.Carries entries := by
  intro i e he
  rw [h.entry, if_neg (apart _ he)]
  exact hs i e he

theorem cleared_remove (s : Store) (id : Nat) : Cleared s (s.remove id) [id] where
  length := List.length_set
  entry i := by
    rw [slot?, remove, List.getElem?_set, slot?]
    by_cases h : i = id
    · subst h
      by_cases hlt : i < s.slots.length <;> simp [hlt]
    · simp [h, Ne.symm h]
  links i := by simp [remove]

/-- To take parts away one after the other is to take away all that is in them. -/
theorem cleared_foldl {f : Store → Nat → Store} {parts : List Node}
    (hs : ∀ m ∈ parts, s.Carries (m.entries parent)) (nodup : (parts.flatMap Node.ids).Nodup)
    (hf : ∀ s' : Store, s'.slots.length = s.slots.length → ∀ m ∈ parts,
      s'.Carries (m.entries parent) → Cleared s' (f s' m.id) m.ids) :
    Cleared s ((parts.map Node.id).foldl f s) (parts.flatMap Node.ids) := by
  induction parts generalizing s with
  | nil => exact .refl s
  | cons m parts ih =>
    rw [List.flatMap_cons, List.nodup_append] at nodup
    have hfirst := hf s rfl m List.mem_cons_self (hs m List.mem_cons_self)
    rw [List.map_cons, List.foldl_cons, List.flatMap_cons]
    refine hfirst.trans (ih (fun m' hm' => ?_) nodup.2.1 fun s' hs' m' hm' => ?_)
    · refine hfirst.carries (hs m' (List.mem_cons_of_mem _ hm')) fun x hx hid => ?_
      have hx := List.mem_flatMap.2 ⟨m', hm', Node.mem_ids_of_mem_entries hx⟩
      exact nodup.2.2 x.1 hid x.1 hx rfl
    · exact hf s' (hs'.trans hfirst.length) m' (List.mem_cons_of_mem _ hm')

/-- To release a node is to clear the slots of all below it. -/
theorem cleared_releaseWithin {fuel : Nat} (h : s.Carries (n.entries parent)) (nodup : n.ids.Nodup)
    (hfuel : n.ids.length ≤ fuel) : Cleared s (releaseWithin fuel s n.id) n.ids := by
  induction n using Node.parts_induct generalizing s parent fuel with
  | step n ih =>
    cases fuel with
    | zero =>
      have := n.length_ids_pos
      omega
    | succ fuel =>
      have nodup' := nodup
      rw [Node.ids_eq_parts, List.nodup_cons] at nodup'
      have hparts : Cleared s ((s.children n.id).foldl (releaseWithin fuel) s)
          (n.parts.flatMap Node.ids) := by
        rw [h.children_eq]
        refine cleared_foldl (fun m hm => h.part hm) nodup'.2 fun s' _ m hm hs' => ?_
        have := length_ids_part_le hm
        exact ih m hm hs' ((List.nodup_flatMap.1 nodup'.2).1 m hm) (by omega)
      rw [releaseWithin]
      refine (hparts.trans (cleared_remove _ _)).congr fun i => ?_
      rw [Node.ids_eq_parts]
      simp [or_comm]

end FormSchema.Store
