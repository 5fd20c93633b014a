import FormSchema.Proofs.Document.Coherence
import FormSchema.Proofs.Document.Identity
import FormSchema.Proofs.Schema.Normal

/-!
Documents that come about by changes.  A document is made from a value and linked, and then changed
in any way; identities stay sound and links stay coherent all along.
-/

namespace FormSchema

namespace Attributes

theorem keysDistinct_initial {a : Attributes} {children : List (Slot × Json)}
    (hraw : a.raw.keysDistinct = true) (nodup : (children.map (·.1)).Nodup)
    (hchildren : ∀ part ∈ children, part.2.keysDistinct = true) :
    (a.initial children).keysDistinct = true := by
  rw [initial]
  split
  · rename_i value _ hvalue
    exact Outline.keysDistinct_of_field? hraw hvalue
  · rename_i value _ hvalue
    exact Outline.keysDistinct_of_field? hraw hvalue
  · split
    · rfl
    · split
      · rw [filterMap_eq_named (fun _ _ => rfl) (fun _ => rfl) fun _ _ => rfl]
        exact keysDistinct_named nodup hchildren
      all_goals rfl

end Attributes

/-- No key stands twice in the value that an instance of a compiled schema starts with. -/
theorem Schema.Shaped.keysDistinct_initial {schema u : Schema} (h : Schema.Shaped schema)
    {path : List Slot} (hu : schema.sub? path = some u) :
    (Schema.initial u).keysDistinct = true := by
  induction u using Tree.induct generalizing path with
  | step u ih =>
    rw [Schema.initial, Tree.fold_eq]
    have nodup := (h.formed hu).nodup
    refine Attributes.keysDistinct_initial (h.raw hu) ?_ ?_
    · rw [List.map_map]
      exact nodup
    · intro part hpart
      obtain ⟨child, hchild, rfl⟩ := List.mem_map.1 hpart
      have hsub : schema.sub? (path ++ [child.1]) = some child.2 := by
        rw [Tree.sub?_concat, hu]
        exact Key.lookup_eq_some_of_mem nodup hchild
      exact ih child hchild hsub

/-- Whether a schema is one of those in a compiled schema. -/
def Schema.Inner (u : Schema) : Prop :=
  ∃ schema path, Schema.Shaped schema ∧ schema.sub? path = some u

theorem Schema.Shaped.inner {schema u : Schema} (h : Schema.Shaped schema) {path : List Slot}
    (hu : schema.sub? path = some u) : Schema.Inner u := ⟨schema, path, h, hu⟩

namespace Schema.Inner

variable {u s : Schema}

theorem child (h : Inner u) {slot : Slot} (hs : (slot, s) ∈ u.children) : Inner s := by
  obtain ⟨schema, path, shaped, hu⟩ := h
  have hsub : schema.sub? (path ++ [slot]) = some s := by
    rw [Tree.sub?_concat, hu]
    exact Key.lookup_eq_some_of_mem (shaped.formed hu).nodup hs
  exact shaped.inner hsub

theorem keysDistinct_initial (h : Inner u) : (Schema.initial u).keysDistinct = true := by
  obtain ⟨schema, path, shaped, hu⟩ := h
  exact shaped.keysDistinct_initial hu

end Schema.Inner

namespace Node

theorem exists_of_get?_ofJson {tag : Tag} {next : Nat} {v : Json} {key : Key} {child : Node}
    (h : (ofJson tag next v).get? key = some child) :
    ∃ tag' next' v', child = ofJson tag' next' v' ∧ tag'.schema = none := by
  have items (items : List Json) (next : Nat) (h : child ∈ ofItems next items) :
      ∃ tag' next' v', child = ofJson tag' next' v' ∧ tag'.schema = none := by
    induction items generalizing next with
    | nil => cases h
    | cons item items ih =>
      rcases List.mem_cons.1 h with rfl | h
      · exact ⟨⟨next, none⟩, next + 1, item, rfl, rfl⟩
      · exact ih _ h
  have fields (fields : Fields) (name : String) (next : Nat)
      (h : (name, child) ∈ ofFields next fields) :
      ∃ tag' next' v', child = ofJson tag' next' v' ∧ tag'.schema = none := by
    induction fields generalizing next with
    | nil => cases h
    | cons field fields ih =>
      obtain ⟨name', item⟩ := field
      rcases List.mem_cons.1 h with heq | h
      · exact ⟨⟨next, none⟩, next + 1, item, (Prod.mk.inj heq).2, rfl⟩
      · exact ih _ h
  cases v with
  | arr items' =>
    cases key with
    | name s => simp [ofJson, get?_list_name] at h
    | index i =>
      rw [ofJson, get?_list] at h
      exact items items' next (List.mem_of_getElem? h)
  | obj fields' =>
    cases key with
    | index i => simp [ofJson, get?_record_index] at h
    | name s =>
      rw [ofJson, get?_record] at h
      exact fields fields' s next (Key.mem_of_lookup h)
  | _ => cases h

theorem exists_of_at?_ofJson {tag : Tag} {next : Nat} {v : Json} {path : List Key} {m : Node}
    (h : (ofJson tag next v).at? path = some m) : ∃ tag' next' v', m = ofJson tag' next' v' := by
  induction path generalizing tag next v with
  | nil => exact ⟨tag, next, v, (Option.some.inj h).symm⟩
  | cons key path ih =>
    obtain ⟨child, hchild, h⟩ := Option.bind_eq_some_iff.1 h
    obtain ⟨tag', next', v', rfl, -⟩ := exists_of_get?_ofJson hchild
    exact ih h

/-- The parts of a new node have no links as yet. -/
theorem coherent_ofJson (tag : Tag) (next : Nat) (v : Json) : (ofJson tag next v).Coherent := by
  intro path key parent child hparent hchild
  obtain ⟨tag', next', v', rfl⟩ := exists_of_at?_ofJson hparent
  obtain ⟨tag'', next'', v'', rfl, hschema⟩ := exists_of_get?_ofJson hchild
  rw [schema?_ofJson, hschema]
  exact admits_none _ _

theorem fits_before {slot : Slot} {gone key : Key} (h : slot.Fits (gone.before key)) :
    slot.Fits key := by
  cases gone with
  | name s => exact h
  | index i =>
    cases key with
    | name s => exact h
    | index j =>
      cases slot with
      | property name =>
        simp only [Key.before] at h
        split at h <;> exact h
      | _ => trivial

/-- What is left of a node stays in a relation that does not tell keys before a removal from those
after it. -/
theorem Throughout.drop {R : Node → Key → Option Schema → Prop} {n : Node} (h : n.Throughout R)
    (gone : Key) (keys : (n.children.map (·.1)).Nodup)
    (shift : ∀ {key s}, R n (gone.before key) s → R (n.drop gone) key s) :
    (n.drop gone).Throughout R := by
  intro path key parent child hparent hchild
  rcases at?_of_drop keys hparent with ⟨rfl, rfl⟩ | ⟨-, hparent⟩
  · exact shift (h n.at?_nil (get?_of_drop keys hchild))
  · exact h hparent hchild

theorem Admits.drop {n : Node} {gone key : Key} {schema : Option Schema}
    (h : n.Admits (gone.before key) schema) : (n.drop gone).Admits key schema := by
  intro s hs
  obtain ⟨u, hu, hcompatible, slot, hfits, hmem⟩ := h s hs
  exact ⟨u, by rwa [schema?, tag_drop], by rwa [kind_drop], slot, fits_before hfits, hmem⟩

theorem Coherent.append {tag : Tag} {items : List Node} {item : Node}
    (h : (list tag items).Coherent) (hitem : item.Coherent) (hschema : item.schema? = none) :
    (list tag (items ++ [item])).Coherent := by
  intro path key parent child hparent hchild
  rcases at?_of_append hparent with ⟨rfl, rfl⟩ | ⟨-, hparent⟩ | ⟨more, -, hparent⟩
  · rcases get?_append hchild with hchild | ⟨-, rfl⟩
    · exact (h (at?_nil _) hchild).congr rfl rfl
    · rw [hschema]
      exact admits_none _ _
  · exact h hparent hchild
  · exact hitem hparent hchild

end Node

namespace Document

variable {d : Document} {p : Place} {c : Compiled}

/-- What holds of a linked document all along. -/
structure Intact (schema : Schema) (d : Document) : Prop where
  sound : d.Sound
  coherent : d.Coherent schema

theorem graft_link (h : d.Sound) (hp : d.Has p) (l : Linking) (s : Option Schema) :
    d.Graft p (Linking.link l s p.above p.node) d.next where
  has := hp
  id := Linking.id_link
  distinct := (h.distinct.at? hp.at?_path).link l s
  next_le := Nat.le_refl _
  known {path x} hx := by
    obtain ⟨q, s', hq, hpath, rfl⟩ := Linking.exists_of_at?_link hx
    obtain ⟨more, hmore, hat⟩ := hq.path_eq
    exact .inl ⟨more, q.node, hat, Linking.id_link.symm⟩

/-- What it means to link a subtree anew. -/
theorem relink_cases (h : d.Sound) (hp : d.Has p) (c : Compiled) :
    (∃ variants, p.variants? = some variants ∧
      (d.relink c p.id).1 = d.setAt p (Linking.link ⟨d, c.userData⟩
        (Linking.matching ⟨d, c.userData⟩ variants p).head? p.above p.node)) ∨
    (p.variants? = none ∧ p.node.schema? ≠ none ∧
      (d.relink c p.id).1 =
        d.setAt p (Linking.link ⟨d, c.userData⟩ p.node.schema? p.above p.node)) ∨
    (p.variants? = none ∧ p.node.schema? = none ∧ (d.relink c p.id).1 = d) := by
  have hfind : d.find? p.id = some p := h.find?_eq_some_iff.2 ⟨hp, rfl⟩
  rw [relink, hfind]
  cases hvariants : p.variants? with
  | some variants =>
    simp only [hvariants]
    exact .inl ⟨variants, rfl, rfl⟩
  | none =>
    cases hschema : p.node.schema? with
    | some s =>
      simp only [hvariants, hschema]
      exact .inr (.inl ⟨trivial, nofun, rfl⟩)
    | none =>
      simp only [hvariants, hschema]
      exact .inr (.inr ⟨trivial, trivial, trivial⟩)

/-- A relinked node stays where it is and keeps its identity. -/
theorem exists_relinked (h : d.Sound) (hp : d.Has p) (c : Compiled) :
    ∃ top, (d.relink c p.id).1.Has top ∧ top.path = p.path ∧ top.id = p.id := by
  have linked (s : Option Schema) :
      ∃ top, (d.setAt p (Linking.link ⟨d, c.userData⟩ s p.above p.node)).Has top ∧
        top.path = p.path ∧ top.id = p.id := by
    obtain ⟨top, htop, hpath, hnode⟩ :=
      hp.setAt_self (Linking.link ⟨d, c.userData⟩ s p.above p.node)
    exact ⟨top, htop, hpath, by rw [Place.id, hnode, Linking.id_link]; rfl⟩
  rcases relink_cases h hp c with ⟨variants, -, heq⟩ | ⟨-, -, heq⟩ | ⟨-, -, heq⟩
  · rw [heq]
    exact linked _
  · rw [heq]
    exact linked _
  · rw [heq]
    exact ⟨p, hp, rfl, rfl⟩

/-- The array that holds an item among variants. -/
theorem exists_parent_of_variants? {variants : List Schema} (h : p.variants? = some variants) :
    ∃ key tag items above u, p.above = (key, .list tag items) :: above ∧ tag.schema = some u ∧
      u.label.mixed = true ∧ variants = u.variants := by
  obtain ⟨n, above⟩ := p
  cases above with
  | nil => cases h
  | cons step above =>
    obtain ⟨key, parent⟩ := step
    simp only [Place.variants?, Place.parent?, Place.ancestors, Place.ofAbove, List.head?_cons] at h
    cases parent with
    | list tag items =>
      cases hschema : tag.schema with
      | none => simp [Node.schema?, Node.tag, hschema] at h
      | some u =>
        simp only [Node.schema?, Node.tag, hschema, Option.ite_none_right_eq_some,
          Option.some.injEq] at h
        exact ⟨key, tag, items, above, u, rfl, hschema, h.1, h.2.symm⟩
    | _ => cases h

namespace Intact

variable {schema : Schema}

theorem mem_places_iff (h : d.Intact schema) : p ∈ d.places ↔ d.Has p := h.sound.mem_places_iff

/-- Nothing below an unlinked node is linked. -/
theorem schema?_of_covers (h : d.Intact schema) (hp : d.Has p)
    (hschema : p.node.schema? = none) {q : Place} (hq : p.Covers q) : q.node.schema? = none := by
  induction hq with
  | refl => exact hschema
  | @down r key child hr step ih =>
    have hr' : d.Has r := hp.trans hr
    cases hchild : child.schema? with
    | none => exact hchild
    | some s =>
      obtain ⟨u, hu, -⟩ := h.coherent.node hr'.at?_path step s hchild
      rw [ih] at hu
      cases hu

/-- The array that holds an item among variants admits each of them. -/
theorem admits_of_variants? (shaped : Schema.Shaped schema) (h : d.Intact schema) (hp : d.Has p)
    {variants : List Schema} (hvariants : p.variants? = some variants) {key : Key} {parent : Node}
    {above : List (Key × Node)} (habove : p.above = (key, parent) :: above) {s : Option Schema}
    (hs : ∀ u, s = some u → u ∈ variants) : parent.Admits key s := by
  obtain ⟨key', tag, items, above', u, habove', hu, hmixed, rfl⟩ :=
    exists_parent_of_variants? hvariants
  obtain ⟨hstep, rfl⟩ := List.cons.inj (habove.symm.trans habove')
  obtain ⟨rfl, rfl⟩ := Prod.mk.inj hstep
  obtain ⟨n, above''⟩ := p
  obtain rfl : above'' = (key, .list tag items) :: above := habove
  obtain ⟨hparent, hget⟩ := hp.above_cons
  obtain ⟨path, hpath, -⟩ := h.coherent.exists_path shaped hparent hu
  intro v hv
  refine ⟨u, hu, (shaped.formed hpath).compatible hmixed, ?_⟩
  · obtain ⟨i, hi⟩ := Linking.mem_variants_iff.1 (hs v hv)
    cases key with
    | name s => simp [Node.get?_list_name] at hget
    | index j => exact ⟨.variant i, trivial, hi⟩

theorem relink (shaped : Schema.Shaped schema) (h : d.Intact schema) (c : Compiled) (id : Nat) :
    (d.relink c id).1.Intact schema := by
  cases hfind : d.find? id with
  | none =>
    rw [Document.relink, hfind]
    exact h
  | some p =>
    obtain ⟨hp, rfl⟩ := h.sound.find?_eq_some_iff.1 hfind
    rcases relink_cases h.sound hp c with ⟨variants, hvariants, heq⟩ | ⟨-, -, heq⟩ | ⟨-, -, heq⟩
    · rw [heq]
      refine ⟨(graft_link h.sound hp _ _).sound h.sound,
        h.coherent.setAt hp (Linking.coherent_link _ _ p) ?_ ?_⟩
      · intro key parent above habove
        rw [Linking.schema?_link]
        exact h.admits_of_variants? shaped hp hvariants habove fun u hu =>
          Linking.mem_matching (List.mem_of_head? hu)
      · intro hnil
        obtain ⟨_, _, _, _, _, habove, -⟩ := exists_parent_of_variants? hvariants
        rw [hnil] at habove
        cases habove
    · rw [heq]
      exact ⟨(graft_link h.sound hp _ _).sound h.sound,
        h.coherent.setAt_same hp (Linking.coherent_link _ _ p) Linking.schema?_link⟩
    · rw [heq]
      exact h

end Intact

/-- A sound document is intact once it is linked. -/
theorem intact_link (h : d.Sound) (c : Compiled) : (d.link c).1.Intact c.schema where
  sound := (graft_link h (.root d) _ _).sound h
  coherent := ⟨Linking.schema?_link, Linking.coherent_link _ _ d.rootPlace⟩

theorem sound_ofJson {v : Json} (h : v.keysDistinct = true) : (ofJson v).Sound where
  distinct := Node.distinct_ofJson h Nat.zero_lt_one
  fresh hm := by
    have := v.size_pos
    rcases Node.id_of_at?_ofJson hm with hid | hid
    · rw [hid]
      exact this
    · change _ < v.size
      omega

theorem removable_eq_ok (h : d.Sound) {id : Nat} (hok : d.removable id = .ok p) :
    d.Has p ∧ p.id = id ∧ p.above ≠ [] := by
  rw [removable] at hok
  split at hok
  · cases hok
  · rename_i hroot
    cases hfind : d.find? id with
    | none =>
      rw [hfind] at hok
      cases hok
    | some q =>
      rw [hfind] at hok
      obtain rfl := Except.ok.inj hok
      obtain ⟨hq, hid⟩ := h.find?_eq_some_iff.1 hfind
      refine ⟨hq, hid, fun hnil => hroot ?_⟩
      obtain ⟨n, above⟩ := q
      obtain rfl : above = [] := hnil
      rw [← hid, ← hq.above_nil]
      rfl

/-- The document with a fresh, unlinked node of a value in the place of another one. -/
def fresh (d : Document) (p : Place) (v : Json) : Document :=
  { d.setAt p (Node.ofJson p.node.tag d.next v) with next := d.next + (v.size - 1) }

theorem Has.exists_fresh (h : d.Has p) (v : Json) :
    ∃ p', (d.fresh p v).Has p' ∧ p'.path = p.path ∧ p'.id = p.id := by
  obtain ⟨p', hp', hpath, hnode⟩ := h.setAt_self (Node.ofJson p.node.tag d.next v)
  exact ⟨p', hp', hpath, by rw [Place.id, hnode, Node.id_ofJson]; rfl⟩

/-- What it means to set a value. -/
theorem set_eq_ok (h : d.Sound) {id : Nat} {v : Json} {out : Document × List Nat}
    (hok : d.set c id v = .ok out) :
    ∃ p, d.Has p ∧ p.id = id ∧ p.above ≠ [] ∧ out.1 = ((d.fresh p v).relink c id).1 ∧
      out.2 = out.1.affected id := by
  obtain ⟨p, hremovable, hout⟩ := bind_eq_ok.1 hok
  obtain ⟨hp, hid, habove⟩ := removable_eq_ok h hremovable
  obtain rfl := Except.ok.inj hout
  exact ⟨p, hp, hid, habove, rfl, rfl⟩

theorem graft_fresh (h : d.Sound) (hp : d.Has p) {v : Json} (hv : v.keysDistinct = true) :
    d.Graft p (Node.ofJson p.node.tag d.next v) (d.next + (v.size - 1)) where
  has := hp
  id := Node.id_ofJson _ _ _
  distinct := by
    have hid : p.node.tag.id < d.next := h.fresh hp.at?_path
    exact Node.distinct_ofJson hv hid
  next_le := Nat.le_add_right _ _
  known {path x} hx := by
    rcases Node.id_of_at?_ofJson hx with hx | hx
    · exact .inl ⟨[], p.node, rfl, hx.symm⟩
    · exact .inr hx

theorem Intact.fresh {schema : Schema} (h : d.Intact schema) (hp : d.Has p) {v : Json}
    (hv : v.keysDistinct = true) : (d.fresh p v).Intact schema where
  sound := (graft_fresh h.sound hp hv).sound h.sound
  coherent := by
    obtain ⟨hroot, hnode⟩ := h.coherent.setAt_same hp
      (Node.coherent_ofJson p.node.tag d.next v) (Node.schema?_ofJson _ _ _)
    exact ⟨hroot, hnode⟩

/-- What it means to take a node away. -/
theorem detach_eq_ok (h : d.Sound) {id : Nat} {out : Document × Json}
    (hok : d.detach id = .ok out) :
    ∃ n key parent above, d.Has ⟨n, (key, parent) :: above⟩ ∧ n.id = id ∧
      out.1 = d.setAt ⟨parent, above⟩ (parent.drop key) := by
  obtain ⟨p, hremovable, hout⟩ := bind_eq_ok.1 hok
  obtain ⟨hp, hid, habove⟩ := removable_eq_ok h hremovable
  obtain ⟨n, above⟩ := p
  cases above with
  | nil => exact absurd rfl habove
  | cons step above =>
    obtain ⟨key, parent⟩ := step
    obtain rfl := Except.ok.inj hout
    exact ⟨n, key, parent, above, hp, hid, rfl⟩

theorem graft_drop (h : d.Sound) (hp : d.Has p) (gone : Key) :
    d.Graft p (p.node.drop gone) d.next where
  has := hp
  id := congrArg Tag.id (Node.tag_drop p.node gone)
  distinct := (h.distinct.at? hp.at?_path).drop gone
  next_le := Nat.le_refl _
  known {path x} hx := by
    obtain ⟨y, hy, hid⟩ := Node.exists_id_of_at?_drop (h.distinct.keys hp.at?_path) hx
    exact .inl ⟨_, y, hy, hid⟩

theorem Intact.drop {schema : Schema} (h : d.Intact schema) (hp : d.Has p) (gone : Key) :
    (d.setAt p (p.node.drop gone)).Intact schema where
  sound := (graft_drop h.sound hp gone).sound h.sound
  coherent := by
    have keys := h.sound.distinct.keys hp.at?_path
    refine h.coherent.setAt_same hp ?_ (by rw [Node.schema?, Node.tag_drop]; rfl)
    exact Node.Throughout.drop (h.coherent.node.at? hp.at?_path) gone keys
      fun hadmits => hadmits.drop

/-- The document with a fresh, unlinked item at the end of an array. -/
def grown (d : Document) (p : Place) (tag : Tag) (items : List Node) (v : Json) : Document :=
  { d.setAt p (.list tag (items ++ [Node.ofJson ⟨d.next, none⟩ (d.next + 1) v])) with
    next := d.next + v.size }

theorem Has.exists_grown (h : d.Has p) {tag : Tag} {items : List Node}
    (hnode : p.node = .list tag items) (v : Json) :
    ∃ p', (d.grown p tag items v).Has p' ∧ p'.path = p.path ∧ p'.node.tag = p.node.tag := by
  obtain ⟨p', hp', hpath, hnode'⟩ :=
    h.setAt_self (.list tag (items ++ [Node.ofJson ⟨d.next, none⟩ (d.next + 1) v]))
  exact ⟨p', hp', hpath, by rw [hnode', hnode]; rfl⟩

/-- What it means to append an item. -/
theorem push_eq_ok (h : d.Sound) {array : Nat} {v : Json} {out : Document × Nat}
    (hok : d.push c array v = .ok out) :
    ∃ p tag items, d.Has p ∧ p.id = array ∧ p.node = .list tag items ∧
      out.1 = if tag.schema.isSome then ((d.grown p tag items v).relink c array).1
        else d.grown p tag items v := by
  rw [push] at hok
  cases hfind : d.find? array with
  | none =>
    rw [hfind] at hok
    cases hok
  | some p =>
    rw [hfind] at hok
    obtain ⟨hp, hid⟩ := h.find?_eq_some_iff.1 hfind
    dsimp only at hok
    split at hok
    · rename_i tag items hnode
      obtain rfl := Except.ok.inj hok
      exact ⟨p, tag, items, hp, hid, hnode, rfl⟩
    · cases hok

theorem graft_grown (h : d.Sound) (hp : d.Has p) {tag : Tag} {items : List Node}
    (hnode : p.node = .list tag items) {v : Json} (hv : v.keysDistinct = true) :
    d.Graft p (.list tag (items ++ [Node.ofJson ⟨d.next, none⟩ (d.next + 1) v]))
      (d.next + v.size) := by
  have hat : d.root.at? p.path = some (.list tag items) := hnode ▸ hp.at?_path
  have new {path : List Key} {m : Node}
      (hm : (Node.ofJson ⟨d.next, none⟩ (d.next + 1) v).at? path = some m) :
      d.next ≤ m.id ∧ m.id < d.next + v.size := by
    have := v.size_pos
    rcases Node.id_of_at?_ofJson hm with hid | hid
    · simp only at hid
      omega
    · omega
  refine ⟨hp, ?_, ?_, Nat.le_add_right _ _, fun {path x} hx => ?_⟩
  · rw [Place.id, hnode]
    rfl
  · exact (h.distinct.at? hat).append (Node.distinct_ofJson hv (Nat.lt_succ_self _))
      (fun hm => h.fresh (Node.at?_append_of hat hm)) fun hm => (new hm).1
  · rw [hnode]
    rcases Node.at?_of_append hx with ⟨-, rfl⟩ | ⟨-, hx⟩ | ⟨more, -, hx⟩
    · exact .inl ⟨[], _, rfl, rfl⟩
    · exact .inl ⟨path, x, hx, rfl⟩
    · exact .inr (new hx)

theorem Intact.grown {schema : Schema} (h : d.Intact schema) (hp : d.Has p) {tag : Tag}
    {items : List Node} (hnode : p.node = .list tag items) {v : Json}
    (hv : v.keysDistinct = true) : (d.grown p tag items v).Intact schema where
  sound := (graft_grown h.sound hp hnode hv).sound h.sound
  coherent := by
    have hat : d.root.at? p.path = some (.list tag items) := hnode ▸ hp.at?_path
    have hcoherent := h.coherent.setAt_same hp (m := .list tag
      (items ++ [Node.ofJson ⟨d.next, none⟩ (d.next + 1) v])) ?_ (by rw [hnode]; rfl)
    · exact ⟨hcoherent.root, hcoherent.node⟩
    · exact Node.Coherent.append (h.coherent.node.at? hat) (Node.coherent_ofJson _ _ _)
        (Node.schema?_ofJson _ _ _)

/-- No key stands twice in the value that a new item starts with. -/
theorem keysDistinct_newItem {array : Nat}
    (inner : ∀ p u, d.find? array = some p → p.node.schema? = some u → Schema.Inner u) :
    (d.newItem array).keysDistinct = true := by
  rw [newItem]
  cases hfind : d.find? array with
  | none => rfl
  | some p =>
    cases hschema : p.node.schema? with
    | none =>
      simp only [Option.bind_eq_bind, Option.bind_some, hschema]
      rfl
    | some u =>
      have hu := inner p u hfind hschema
      simp only [Option.bind_eq_bind, Option.bind_some, hschema]
      split
      · cases hhead : u.variants.head? with
        | none => rfl
        | some v =>
          obtain ⟨i, hi⟩ := Linking.mem_variants_iff.1 (List.mem_of_head? hhead)
          exact (hu.child hi).keysDistinct_initial
      · cases hitem : u.at? .item with
        | none => rfl
        | some v => exact (hu.child (Key.mem_of_lookup hitem)).keysDistinct_initial

theorem Intact.keysDistinct_newItem {schema : Schema} (shaped : Schema.Shaped schema)
    (h : d.Intact schema) (array : Nat) : (d.newItem array).keysDistinct = true := by
  refine Document.keysDistinct_newItem fun p u hfind hu => ?_
  obtain ⟨hp, -⟩ := h.sound.find?_eq_some_iff.1 hfind
  obtain ⟨path, hpath, -⟩ := h.coherent.exists_path shaped hp hu
  exact shaped.inner hpath

end Document

/-- A value in which each key of each object stands once. -/
abbrev ProperJson := { v : Json // v.keysDistinct = true }

/-- What can be done to a linked document. -/
inductive Change where
  | link
  | relink (id : Nat)
  | set (id : Nat) (value : ProperJson)
  | detach (id : Nat)
  | push (array : Nat) (value : ProperJson)
  | pushNew (array : Nat)

namespace Document

/-- The document after a change. -/
def apply (d : Document) (c : Compiled) : Change → Except EditError Document
  | .link => .ok (d.link c).1
  | .relink id => .ok (d.relink c id).1
  | .set id value => (d.set c id value.1).map (·.1)
  | .detach id => (d.detach id).map (·.1)
  | .push array value => (d.push c array value.1).map (·.1)
  | .pushNew array => (d.pushNew c array).map (·.1)

/-- The documents that come about when a value is linked to a schema and then changed. -/
inductive Reachable (c : Compiled) : Document → Prop where
  | link (value : ProperJson) : Reachable c ((ofJson value.1).link c).1
  | change {d d' : Document} (change : Change) (before : Reachable c d)
      (step : d.apply c change = .ok d') : Reachable c d'

variable {d d' : Document} {c : Compiled}

theorem Intact.push (shaped : Schema.Shaped c.schema) (h : d.Intact c.schema) {array : Nat}
    {v : Json} (hv : v.keysDistinct = true) {out : Document × Nat}
    (hok : d.push c array v = .ok out) : out.1.Intact c.schema := by
  obtain ⟨p, tag, items, hp, -, hnode, hout⟩ := push_eq_ok h.sound hok
  have hgrown := h.grown hp hnode hv
  rw [hout]
  split
  · exact hgrown.relink shaped c array
  · exact hgrown

/-- Every change keeps a document intact. -/
theorem Intact.apply (shaped : Schema.Shaped c.schema) (h : d.Intact c.schema) (change : Change)
    (hok : d.apply c change = .ok d') : d'.Intact c.schema := by
  cases change with
  | link =>
    obtain rfl := Except.ok.inj hok
    exact intact_link h.sound c
  | relink id =>
    obtain rfl := Except.ok.inj hok
    exact h.relink shaped c id
  | set id value =>
    obtain ⟨out, hset, rfl⟩ := map_eq_ok.1 hok
    obtain ⟨p, hp, -, -, hout, -⟩ := set_eq_ok h.sound hset
    rw [hout]
    exact (h.fresh hp value.2).relink shaped c id
  | detach id =>
    obtain ⟨out, hdetach, rfl⟩ := map_eq_ok.1 hok
    obtain ⟨n, key, parent, above, hp, -, hout⟩ := detach_eq_ok h.sound hdetach
    rw [hout]
    exact h.drop hp.above_cons.1 key
  | push array value =>
    obtain ⟨out, hpush, rfl⟩ := map_eq_ok.1 hok
    exact h.push shaped value.2 hpush
  | pushNew array =>
    obtain ⟨out, hpush, rfl⟩ := map_eq_ok.1 hok
    exact h.push shaped (h.keysDistinct_newItem shaped array) hpush

theorem Reachable.intact_of_shaped (shaped : Schema.Shaped c.schema) (h : Reachable c d) :
    d.Intact c.schema := by
  induction h with
  | link value => exact intact_link (sound_ofJson value.2) c
  | change change _ step ih => exact ih.apply shaped change step

theorem Reachable.intact (regular : Schema.Regular c.schema) (h : Reachable c d) :
    d.Intact c.schema := h.intact_of_shaped regular.shaped

end Document

end FormSchema
