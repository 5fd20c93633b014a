import FormSchema.Document.Dependents
import FormSchema.Proofs.Document.History
import FormSchema.Proofs.Document.Reading

/-!
Who depends on a node.  A node depends on another one if its schema reads the schema of the other
one and both lie in the same items, as far as the ways to the two schemas agree; past that, the
nodes of a schema are found by its tokens, so that a property must not be named like an item.
-/

namespace FormSchema

/-- Whether the token of a slot stands for items only if the slot does. -/
def Slot.Plain : Slot → Prop
  | .property name => name.toList.head? ≠ some '*'
  | _ => True

/-- Whether a reader is one of the nodes that its schema stands for as seen from another node, given
the ways to the schema and to the node of both. -/
def Slot.Reaches : (schema : List Slot) → (data : List Key) → (observer : List Slot) →
    (reader : List Key) → Prop
  | s :: schema, k :: data, o :: observer, l :: reader =>
    if s = o then k = l ∧ Reaches schema data observer reader else ∀ slot ∈ o :: observer, slot.Plain
  | _, _, observer, _ => ∀ slot ∈ observer, slot.Plain

namespace Slot

variable {schema observer : List Slot} {data reader : List Key} {s o : Slot} {k l : Key}

theorem reaches_self :
    Reaches (s :: schema) (k :: data) (s :: observer) (l :: reader) ↔
      k = l ∧ Reaches schema data observer reader := by
  simp [Reaches]

theorem reaches_of_ne (h : s ≠ o) :
    Reaches (s :: schema) (k :: data) (o :: observer) reader ↔ ∀ slot ∈ o :: observer, slot.Plain := by
  cases reader <;> simp [Reaches, h]

end Slot

namespace Node

theorem exists_of_get?_name {n child : Node} {name : String} (h : n.get? (.name name) = some child) :
    ∃ tag fields, n = .record tag fields := by
  cases n with
  | leaf tag v => cases h
  | list tag items => simp [get?_list_name] at h
  | record tag fields => exact ⟨tag, fields, rfl⟩

theorem exists_of_get?_index {n child : Node} {i : Nat} (h : n.get? (.index i) = some child) :
    ∃ tag items, n = .list tag items := by
  cases n with
  | leaf tag v => cases h
  | list tag items => exact ⟨tag, items, rfl⟩
  | record tag fields => simp [get?_record_index] at h

/-- The canonical token of a key names the child at the key. -/
theorem child?_token {n child : Node} {key : Key} (h : n.get? key = some child)
    (short : key.IsShort) : n.child? key.token = some (key, child) := by
  have htoken : Key.ofToken? n.kind key.token = some key := by
    cases key with
    | name name =>
      obtain ⟨tag, fields, rfl⟩ := exists_of_get?_name h
      rfl
    | index i =>
      obtain ⟨tag, items, rfl⟩ := exists_of_get?_index h
      have hindex : Number.index? i.repr.toList = some i := Number.index?_repr short
      rw [kind, Key.ofToken?, Key.token, hindex]
      rfl
  rw [child?_eq, htoken, Option.bind_some, h]
  rfl

end Node

namespace Place

variable {p q : Place} {token : String}

theorem fan_of_star {rest : List Char} (h : token.toList = '*' :: rest) :
    p.fan token = match p.node with
      | .list _ _ => p.children.filter fun item => rest.isEmpty || item.schemaName? == some token
      | _ => [] := by
  rw [fan]
  split
  · rename_i rest' hstar
    obtain rfl : rest' = rest := (List.cons.inj (hstar.symm.trans h)).2
    rfl
  · rename_i hplain
    exact absurd h (hplain rest)

theorem fan_of_plain (h : token.toList.head? ≠ some '*') :
    p.fan token = (p.child? token).toList := by
  rw [fan]
  split
  · rename_i htoken
    rw [htoken] at h
    exact absurd rfl h
  · rfl

theorem mem_fan_iff_of_star {rest : List Char} (h : token.toList = '*' :: rest) :
    q ∈ p.fan token ↔
      ∃ i child, p.node.get? (.index i) = some child ∧ q = p.down (.index i, child) ∧
        (rest = [] ∨ q.schemaName? = some token) := by
  rw [fan_of_star h]
  cases hnode : p.node with
  | list tag items =>
    simp only [children, hnode, Node.children, List.mem_filter, List.mem_map, List.mem_mapIdx,
      Node.get?_list, Bool.or_eq_true, List.isEmpty_iff, beq_iff_eq]
    constructor
    · rintro ⟨⟨part, ⟨i, hi, rfl⟩, rfl⟩, hname⟩
      exact ⟨i, items[i], List.getElem?_eq_getElem hi, rfl, hname⟩
    · rintro ⟨i, child, hget, rfl, hname⟩
      obtain ⟨hi, rfl⟩ := List.getElem?_eq_some_iff.1 hget
      exact ⟨⟨_, ⟨i, hi, rfl⟩, rfl⟩, hname⟩
  | leaf tag v => simp [Node.get?, Node.children]
  | record tag fields => simp [Node.get?_record_index]

theorem mem_fan_iff_of_plain (h : token.toList.head? ≠ some '*') :
    q ∈ p.fan token ↔
      ∃ key child, Key.ofToken? p.node.kind token = some key ∧ p.node.get? key = some child ∧
        q = p.down (key, child) := by
  rw [fan_of_plain h, Option.mem_toList, child?, Node.child?_eq]
  simp only [Option.map_eq_some_iff, Option.bind_eq_some_iff]
  constructor
  · rintro ⟨part, ⟨key, hkey, child, hchild, rfl⟩, rfl⟩
    exact ⟨key, child, hkey, hchild, rfl⟩
  · rintro ⟨key, child, hkey, hchild, rfl⟩
    exact ⟨_, ⟨key, hkey, child, hchild, rfl⟩, rfl⟩

theorem exists_of_mem_fan (h : q ∈ p.fan token) :
    ∃ key child, p.node.get? key = some child ∧ q = p.down (key, child) := by
  by_cases hstar : token.toList.head? = some '*'
  · obtain ⟨rest, hrest⟩ := List.head?_eq_some_iff.1 hstar
    obtain ⟨i, child, hget, rfl, -⟩ := (mem_fan_iff_of_star hrest).1 h
    exact ⟨_, _, hget, rfl⟩
  · obtain ⟨key, child, -, hget, rfl⟩ := (mem_fan_iff_of_plain hstar).1 h
    exact ⟨_, _, hget, rfl⟩

theorem follow_nil_schema (places : List Place) (data observer : List String) :
    follow places [] data observer = fanOut places observer := by
  rw [follow]
  simp

theorem follow_nil_observer (places : List Place) (schema data : List String) :
    follow places schema data [] = places := by
  rw [follow, fanOut]
  simp

theorem mem_fanOut_iff {places : List Place} {tokens : List String} :
    q ∈ fanOut places tokens ↔ ∃ p ∈ places, q ∈ fanOut [p] tokens := by
  induction tokens generalizing places with
  | nil => simp [fanOut]
  | cons token tokens ih =>
    rw [fanOut, ih]
    constructor
    · rintro ⟨r, hr, hq⟩
      obtain ⟨p, hp, hr⟩ := List.mem_flatMap.1 hr
      refine ⟨p, hp, ?_⟩
      rw [fanOut, ih]
      exact ⟨r, by simpa using hr, hq⟩
    · rintro ⟨p, hp, hq⟩
      rw [fanOut, ih] at hq
      obtain ⟨r, hr, hq⟩ := hq
      exact ⟨r, List.mem_flatMap.2 ⟨p, hp, by simpa using hr⟩, hq⟩

theorem mem_fanOut_cons {tokens : List String} :
    q ∈ fanOut [p] (token :: tokens) ↔ ∃ r ∈ p.fan token, q ∈ fanOut [r] tokens := by
  rw [fanOut, mem_fanOut_iff]
  simp

theorem exists_covers_of_mem_fanOut {places : List Place} {tokens : List String}
    (h : q ∈ fanOut places tokens) : ∃ p ∈ places, p.Covers q := by
  induction tokens generalizing places with
  | nil => exact ⟨q, h, .refl⟩
  | cons token tokens ih =>
    obtain ⟨r, hr, hcovers⟩ := ih h
    obtain ⟨p, hp, hr⟩ := List.mem_flatMap.1 hr
    obtain ⟨key, child, hget, rfl⟩ := exists_of_mem_fan hr
    exact ⟨p, hp, (Covers.step hget).trans hcovers⟩

theorem exists_covers_of_mem_follow {places : List Place} {schema data observer : List String}
    (h : q ∈ follow places schema data observer) : ∃ p ∈ places, p.Covers q := by
  induction schema generalizing places data observer with
  | nil => exact exists_covers_of_mem_fanOut (by rwa [follow_nil_schema] at h)
  | cons s schema ih =>
    cases data with
    | nil =>
      rw [follow] at h
      · exact exists_covers_of_mem_fanOut h
      · simp
    | cons token data =>
      cases observer with
      | nil => exact ⟨q, by rwa [follow_nil_observer] at h, .refl⟩
      | cons o observer =>
        rw [follow] at h
        split at h
        · obtain ⟨r, hr, hcovers⟩ := ih h
          obtain ⟨p, hp, hr⟩ := List.mem_filterMap.1 hr
          rw [child?, Node.child?_eq] at hr
          obtain ⟨part, hpart, rfl⟩ := Option.map_eq_some_iff.1 hr
          obtain ⟨key, -, hget⟩ := Option.bind_eq_some_iff.1 hpart
          obtain ⟨child, hchild, rfl⟩ := Option.map_eq_some_iff.1 hget
          exact ⟨p, hp, (Covers.step hchild).trans hcovers⟩
        · exact exists_covers_of_mem_fanOut h

end Place

namespace Document

variable {schema v : Schema} {d : Document} {slots slots' : List Slot} {p q : Place}

theorem LinkedAt.schemaName? (regular : Schema.Regular schema) (hq : d.Has q)
    (h : LinkedAt schema d q.path slots) :
    q.schemaName? = slots.getLast?.map Slot.token := by
  obtain ⟨n, u, hn, hu, hsub⟩ := h
  obtain rfl := Option.some.inj (hn.symm.trans hq.at?_path)
  have hlabel : u.label.path = slots := regular.labelled slots u hsub
  rw [Place.schemaName?, hu, Option.bind_some, Section.name?, hlabel]

/-- A linked child of a linked node has a slot that fits its key, one of those of its parent's schema. -/
theorem LinkedAt.exists_slot (regular : Schema.Regular schema) (coherent : d.Coherent schema)
    (hp : d.Has p) (hq : d.Has q) (h : LinkedAt schema d p.path slots) {u : Schema}
    (hu : schema.sub? slots = some u) (hlinked : LinkedAt schema d q.path slots') {key : Key}
    (hpath : q.path = p.path ++ [key]) :
    p.node.get? key = some q.node ∧ q = p.down (key, q.node) ∧
      ∃ slot, slots' = slots ++ [slot] ∧ slot ∈ u.slots ∧ slot.Fits key := by
  have hat := hq.at?_path
  rw [hpath, Node.at?_concat, hp.at?_path, Option.bind_some] at hat
  have hdown : d.Has (p.down (key, q.node)) := Place.Covers.down hp hat
  refine ⟨hat, hq.eq_of_path_eq hdown (by rw [hpath, Place.path_down]), ?_⟩
  have hsub := hlinked
  rw [hpath] at hlinked
  obtain ⟨front, slot, rfl, hfront, hfits⟩ := hlinked.of_concat regular coherent
  obtain rfl := hfront.unique regular h
  obtain ⟨-, w, -, -, hw⟩ := hsub
  rw [Tree.sub?_concat, hu, Option.bind_some] at hw
  exact ⟨slot, rfl, Tree.mem_slots_of_at? hw, hfits⟩

/-- The linked nodes that one token of a schema stands for are the children in its slot. -/
theorem LinkedAt.mem_fan_iff (regular : Schema.Regular schema) (coherent : d.Coherent schema)
    (hp : d.Has p) (hq : d.Has q) (h : LinkedAt schema d p.path slots) {o : Slot}
    (ho : schema.sub? (slots ++ [o]) = some v) (hlinked : LinkedAt schema d q.path slots') :
    q ∈ p.fan o.token ↔ (∃ key, q.path = p.path ++ [key]) ∧ slots' = slots ++ [o] ∧ o.Plain := by
  have hname := hlinked.schemaName? regular hq
  rw [Tree.sub?_concat, Option.bind_eq_some_iff] at ho
  obtain ⟨u, hu, ho⟩ := ho
  have child {key : Key} (hpath : q.path = p.path ++ [key]) :=
    h.exists_slot regular coherent hp hq hu hlinked hpath
  constructor
  · intro hmem
    obtain ⟨key, n, -, hdown⟩ := Place.exists_of_mem_fan hmem
    have hpath : q.path = p.path ++ [key] := by rw [hdown, Place.path_down]
    obtain ⟨hget, hq', slot, rfl, hslot, hfits⟩ := child hpath
    refine ⟨⟨key, hpath⟩, ?_⟩
    have orderly := regular.orderly hu
    have ho' := Tree.mem_slots_of_at? ho
    cases o with
    | property name =>
      obtain ⟨s, rfl, rfl⟩ := orderly.of_property ho' hslot hfits
      by_cases hstar : name.toList.head? = some '*'
      · obtain ⟨rest, hrest⟩ := List.head?_eq_some_iff.1 hstar
        obtain ⟨i, m, -, hdown', -⟩ := (Place.mem_fan_iff_of_star hrest).1 hmem
        have := congrArg Place.path hdown'
        rw [hpath, Place.path_down] at this
        cases List.singleton_inj.1 (List.append_cancel_left this)
      · obtain ⟨key', m, hkey', -, hdown'⟩ := (Place.mem_fan_iff_of_plain hstar).1 hmem
        have := congrArg Place.path hdown'
        rw [hpath, Place.path_down] at this
        obtain rfl := List.singleton_inj.1 (List.append_cancel_left this)
        rcases Key.ofToken?_eq_some hkey' with heq | ⟨i, -, heq⟩
        · rw [Key.name.injEq] at heq
          exact ⟨by rw [heq], hstar⟩
        · cases heq
    | item =>
      obtain ⟨i, rfl, rfl⟩ := orderly.of_item ho' hslot hfits
      exact ⟨rfl, trivial⟩
    | variant j =>
      obtain ⟨i, j', rfl, rfl⟩ := orderly.of_variant ho' hslot hfits
      obtain ⟨i, m, -, -, hvariant⟩ :=
        (Place.mem_fan_iff_of_star (Slot.toList_token_variant j)).1 hmem
      rcases hvariant with hnil | htoken
      · rw [Nat.toList_repr] at hnil
        exact absurd hnil Nat.toDigits_ne_nil
      · rw [hname, List.getLast?_concat, Option.map_some] at htoken
        rw [Slot.token_variant_injective (Option.some.inj htoken)]
        exact ⟨rfl, trivial⟩
  · rintro ⟨⟨key, hpath⟩, rfl, hplain⟩
    obtain ⟨hget, hdown, slot, heq, hslot, hfits⟩ := child hpath
    obtain rfl := List.singleton_inj.1 (List.append_cancel_left heq)
    rw [List.getLast?_concat, Option.map_some] at hname
    have orderly := regular.orderly hu
    cases o with
    | property name =>
      obtain ⟨s, rfl, hs⟩ := orderly.of_property hslot hslot hfits
      obtain ⟨tag, fields, hnode⟩ := Node.exists_of_get?_name hget
      rw [Slot.property.injEq] at hs
      refine (Place.mem_fan_iff_of_plain hplain).2 ⟨.name s, q.node, ?_, hget, hdown⟩
      rw [hnode, ← hs]
      rfl
    | item =>
      obtain ⟨i, rfl, -⟩ := orderly.of_item hslot hslot hfits
      exact (Place.mem_fan_iff_of_star rfl).2 ⟨i, q.node, hget, hdown, .inl rfl⟩
    | variant j =>
      obtain ⟨i, j', rfl, -⟩ := orderly.of_variant hslot hslot hfits
      exact (Place.mem_fan_iff_of_star (Slot.toList_token_variant j)).2
        ⟨i, q.node, hget, hdown, .inr hname⟩

/-- The linked nodes that the rest of a schema pointer stands for are those of its schema. -/
theorem LinkedAt.mem_fanOut_iff (regular : Schema.Regular schema) (coherent : d.Coherent schema)
    {observer : List Slot} (hp : d.Has p) (hq : d.Has q) (h : LinkedAt schema d p.path slots)
    (hobserver : schema.sub? (slots ++ observer) = some v)
    (hlinked : LinkedAt schema d q.path slots') :
    q ∈ Place.fanOut [p] (observer.map Slot.token) ↔
      (∃ more, q.path = p.path ++ more) ∧ slots' = slots ++ observer ∧
        ∀ slot ∈ observer, slot.Plain := by
  induction observer generalizing p slots with
  | nil =>
    rw [List.map_nil, Place.fanOut, List.mem_singleton, List.append_nil]
    constructor
    · rintro rfl
      exact ⟨⟨[], (List.append_nil _).symm⟩, hlinked.unique regular h, by simp⟩
    · rintro ⟨⟨more, hpath⟩, rfl, -⟩
      have hlength := hlinked.length_eq regular coherent
      rw [h.length_eq regular coherent, hpath, List.length_append] at hlength
      obtain rfl : more = [] := List.eq_nil_of_length_eq_zero (by omega)
      exact hq.eq_of_path_eq hp (by rw [hpath, List.append_nil])
  | cons o observer ih =>
    have hsub : schema.sub? ((slots ++ [o]) ++ observer) = some v := by
      rwa [List.append_assoc]
    obtain ⟨w, hw⟩ : ∃ w, schema.sub? (slots ++ [o]) = some w := by
      rw [Tree.sub?_append, Option.bind_eq_some_iff] at hsub
      exact ⟨_, hsub.choose_spec.1⟩
    rw [List.map_cons, Place.mem_fanOut_cons, List.forall_mem_cons]
    constructor
    · rintro ⟨r, hr, hmem⟩
      obtain ⟨key, n, hget, rfl⟩ := Place.exists_of_mem_fan hr
      have hdown : d.Has (p.down (key, n)) := Place.Covers.down hp hget
      obtain ⟨r, hr', hcovers⟩ := Place.exists_covers_of_mem_fanOut hmem
      obtain rfl := List.mem_singleton.1 hr'
      obtain ⟨more, hmore⟩ := (hdown.covers_iff hq).1 hcovers
      have hlinked' := hlinked
      rw [← hmore] at hlinked'
      obtain ⟨front, rest, -, hfront⟩ := hlinked'.of_append regular coherent
      obtain ⟨-, rfl, hplain⟩ := (h.mem_fan_iff regular coherent hp hdown hw hfront).1 hr
      obtain ⟨-, rfl, hrest⟩ := (ih hdown hfront hsub).1 hmem
      rw [Place.path_down, List.append_assoc] at hmore
      exact ⟨⟨[key] ++ more, hmore.symm⟩, by simp, hplain, hrest⟩
    · rintro ⟨⟨more, hpath⟩, rfl, hplain, hrest⟩
      have hlength := hlinked.length_eq regular coherent
      rw [List.length_append, h.length_eq regular coherent, hpath, List.length_append,
        List.length_cons] at hlength
      cases more with
      | nil => simp at hlength
      | cons key more =>
        have hpath' : q.path = (p.path ++ [key]) ++ more := by rw [hpath, List.append_assoc]; rfl
        have hat := hq.at?_path
        rw [hpath', Node.at?_append, Option.bind_eq_some_iff] at hat
        obtain ⟨n, hn, -⟩ := hat
        obtain ⟨r, hr, hrpath, -⟩ := Has.exists_of_at? hn
        have hfront : LinkedAt schema d r.path (slots ++ [o]) := by
          rw [hpath', ← hrpath, List.append_cons slots] at hlinked
          refine hlinked.left regular coherent ?_
          rw [hrpath, List.length_append, List.length_append, h.length_eq regular coherent]
          rfl
        refine ⟨r, (h.mem_fan_iff regular coherent hp hr hw hfront).2 ⟨⟨key, hrpath⟩, rfl, hplain⟩, ?_⟩
        exact (ih hr hfront hsub).2 ⟨⟨more, by rw [hpath', hrpath]⟩, by simp, hrest⟩

/-- The linked nodes that a schema pointer stands for, as seen from a linked node. -/
theorem LinkedAt.mem_follow_iff (regular : Schema.Regular schema) (coherent : d.Coherent schema)
    {target observer : List Slot} {data : List Key} (hp : d.Has p) (hq : d.Has q)
    (h : LinkedAt schema d p.path slots)
    (htarget : LinkedAt schema d (p.path ++ data) (slots ++ target))
    (short : ∀ key ∈ data, key.IsShort) (hobserver : schema.sub? (slots ++ observer) = some v)
    (hlinked : LinkedAt schema d q.path slots') :
    q ∈ Place.follow [p] (target.map Slot.token) (data.map Key.token) (observer.map Slot.token) ↔
      ∃ more, q.path = p.path ++ more ∧ slots' = slots ++ observer ∧
        Slot.Reaches target data observer more := by
  induction target generalizing p slots data observer with
  | nil =>
    have hfan := h.mem_fanOut_iff regular coherent hp hq hobserver hlinked
    rw [List.map_nil, Place.follow_nil_schema, hfan]
    simp only [Slot.Reaches]
    exact exists_and_right.symm
  | cons s target ih =>
    cases data with
    | nil =>
      have hlength := htarget.length_eq regular coherent
      rw [List.length_append, h.length_eq regular coherent] at hlength
      simp at hlength
    | cons key data =>
      have hfan := h.mem_fanOut_iff regular coherent hp hq hobserver hlinked
      cases observer with
      | nil =>
        rw [List.map_nil, Place.fanOut] at hfan
        rw [List.map_nil, Place.follow_nil_observer, hfan]
        simp only [Slot.Reaches]
        exact exists_and_right.symm
      | cons o observer =>
        obtain ⟨u, hu, hs, ho⟩ : ∃ u, schema.sub? slots = some u ∧ s ∈ u.slots ∧ o ∈ u.slots := by
          obtain ⟨-, w, -, -, hw⟩ := htarget
          obtain ⟨u, hu, hs⟩ := Tree.exists_mem_slots hw
          obtain ⟨u', hu', ho⟩ := Tree.exists_mem_slots hobserver
          obtain rfl := Option.some.inj (hu.symm.trans hu')
          exact ⟨u, hu, hs, ho⟩
        have htoken : s.token = o.token ↔ s = o :=
          ⟨(regular.orderly hu).eq_of_token_eq hs ho, congrArg Slot.token⟩
        simp only [List.map_cons, Place.follow, htoken]
        by_cases hso : s = o
        · subst hso
          -- Both ways go on in one slot, and the way to the changed node is followed.
          rw [List.append_cons p.path, List.append_cons slots] at htarget
          have hnext : LinkedAt schema d (p.path ++ [key]) (slots ++ [s]) := by
            refine htarget.left regular coherent ?_
            rw [List.length_append, List.length_append, h.length_eq regular coherent]
            rfl
          obtain ⟨n, -, hn, -⟩ := id hnext
          rw [Node.at?_concat, hp.at?_path, Option.bind_some] at hn
          have hdown : d.Has (p.down (key, n)) := Place.Covers.down hp hn
          have hpath : (p.down (key, n)).path = p.path ++ [key] := p.path_down _
          have hchild : p.child? key.token = some (p.down (key, n)) := by
            rw [Place.child?, Node.child?_token hn (short key List.mem_cons_self)]
            rfl
          rw [← hpath] at hnext htarget
          have hih := ih hdown hnext htarget
            (fun key hkey => short key (List.mem_cons_of_mem _ hkey))
            (by rwa [List.append_assoc] : schema.sub? ((slots ++ [s]) ++ observer) = some v)
          rw [if_pos rfl, List.filterMap_cons, hchild, List.filterMap_nil, hih, hpath]
          constructor
          · rintro ⟨more, hmore, rfl, hreaches⟩
            exact ⟨key :: more, by rw [hmore, List.append_assoc]; rfl, by simp,
              Slot.reaches_self.2 ⟨rfl, hreaches⟩⟩
          · rintro ⟨more, hmore, rfl, hreaches⟩
            cases more with
            | nil =>
              have hlength := hlinked.length_eq regular coherent
              rw [hmore, List.length_append, List.length_append, h.length_eq regular coherent] at hlength
              simp at hlength
            | cons l more =>
              obtain ⟨rfl, hrest⟩ := Slot.reaches_self.1 hreaches
              exact ⟨more, by rw [hmore, List.append_assoc]; rfl, by simp, hrest⟩
        · rw [if_neg hso, ← List.map_cons, hfan]
          simp only [Slot.reaches_of_ne hso]
          exact exists_and_right.symm

/-- A reader depends on a node exactly if its schema reads the schema of the node, and it is one of
those that its schema stands for as seen from the node. -/
theorem Intact.mem_dependents_iff (wired : Schema.Wired schema) (h : d.Intact schema)
    {reader target : Place} (hreader : d.Has reader) (htarget : d.Has target) {s t : Schema}
    (hs : reader.node.schema? = some s) (ht : target.node.schema? = some t)
    (short : ∀ key ∈ target.path, key.IsShort) :
    reader.id ∈ d.dependents target ↔
      s.label.tokens ∈ t.label.observers ∧
        Slot.Reaches t.label.path target.path s.label.path reader.path := by
  have regular := wired.toRegular
  obtain ⟨hlinked, hsub⟩ := h.coherent.linkedAt regular hreader hs
  obtain ⟨hlinked', hsub'⟩ := h.coherent.linkedAt regular htarget ht
  have hfollow {path : List Slot} {v : Schema} (hv : schema.sub? path = some v) :
      reader ∈ Place.follow [d.rootPlace] t.label.tokens target.tokens (path.map Slot.token) ↔
        s.label.path = path ∧ Slot.Reaches t.label.path target.path path reader.path := by
    rw [Place.tokens_eq]
    have := h.coherent.linkedAt_root.mem_follow_iff regular h.coherent (.root d) hreader
      hlinked' short hv hlinked
    refine this.trans ⟨?_, fun ⟨hpath, hreaches⟩ => ⟨reader.path, rfl, hpath, hreaches⟩⟩
    rintro ⟨more, hmore, hpath, hreaches⟩
    have hmore : reader.path = more := hmore
    exact ⟨hpath, hmore ▸ hreaches⟩
  rw [dependents, ht]
  simp only [List.mem_eraseDups, List.mem_map, List.mem_flatMap]
  constructor
  · rintro ⟨observer, hobserver, q, hq, hid⟩
    obtain ⟨p, hp, hcovers⟩ := Place.exists_covers_of_mem_follow hq
    obtain rfl := List.mem_singleton.1 hp
    obtain rfl := h.sound.eq_of_id_eq hcovers hreader hid
    obtain ⟨path, v, hv, rfl, -⟩ := (wired.observed hsub').1 hobserver
    obtain ⟨rfl, hreaches⟩ := (hfollow hv).1 hq
    exact ⟨hobserver, hreaches⟩
  · rintro ⟨hobserver, hreaches⟩
    exact ⟨_, hobserver, reader, (hfollow hsub).2 ⟨rfl, hreaches⟩, rfl⟩

end Document

end FormSchema
