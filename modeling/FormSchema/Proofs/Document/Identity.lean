import FormSchema.Document.Edit
import FormSchema.Proofs.Document.Relabel
import FormSchema.Proofs.Document.Replace
import Mathlib.Data.List.Pairwise

/-!
Identities.  No two nodes of a document have the same identity and no key stands twice in a node, so
that an identity leads to one place.  A new node keeps that as long as it brings back identities of
the node that it stands for, or such that have never been given away.
-/

namespace FormSchema

namespace Node

theorem keysDistinct_iff {n : Node} :
    n.value.keysDistinct = true ↔
      ∀ path m, n.at? path = some m → (m.children.map (·.1)).Nodup := by
  have names (n : Node) : n.value.children.map (·.1) = n.children.map (·.1) := by
    rw [children_value, List.map_map]
    rfl
  constructor
  · intro h path
    induction path generalizing n with
    | nil =>
      intro m hm
      obtain rfl := Option.some.inj hm
      rw [← names]
      exact (Json.keysDistinct_iff.1 h).1
    | cons key path ih =>
      intro m hm
      obtain ⟨child, hchild, hm⟩ := Option.bind_eq_some_iff.1 hm
      rw [Json.keysDistinct_iff, children_value, List.forall_mem_map] at h
      exact ih (h.2 _ (Key.mem_of_lookup hchild)) m hm
  · induction n using Node.induct with
    | step n ih =>
      intro h
      have here : (n.children.map (·.1)).Nodup := h [] n rfl
      rw [Json.keysDistinct_iff, names, children_value, List.forall_mem_map]
      refine ⟨here, fun part hpart => ih part hpart fun path m hm => h (part.1 :: path) m ?_⟩
      rw [at?_cons, get?, Key.lookup_eq_some_of_mem here hpart]
      exact hm

/-- The identities in a subtree. -/
def ids (n : Node) : List Nat := (Place.below [] n).map Place.id

theorem map_id_below (above : List (Key × Node)) (n : Node) :
    (Place.below above n).map Place.id = n.ids := by
  rw [ids]
  generalize ([] : List (Key × Node)) = above'
  induction n using Node.induct generalizing above above' with
  | step n ih =>
    rw [Place.below_eq, Place.below_eq, List.map_cons, List.map_cons, List.map_flatMap,
      List.map_flatMap]
    refine congrArg (n.id :: ·) ?_
    rw [List.flatMap_def, List.flatMap_def]
    exact congrArg List.flatten (List.map_congr_left fun part hpart => ih part hpart _ _)

theorem ids_eq (n : Node) : n.ids = n.id :: n.children.flatMap fun part => part.2.ids := by
  rw [ids, Place.below_eq, List.map_cons, List.map_flatMap]
  simp only [map_id_below]
  rfl

theorem mem_ids_of_at? {n m : Node} {path : List Key} (h : n.at? path = some m) : m.id ∈ n.ids := by
  induction path generalizing n with
  | nil =>
    obtain rfl := Option.some.inj h
    rw [ids_eq]
    exact List.mem_cons_self
  | cons key path ih =>
    obtain ⟨child, hchild, h⟩ := Option.bind_eq_some_iff.1 h
    rw [ids_eq]
    exact List.mem_cons_of_mem _ (List.mem_flatMap.2 ⟨_, Key.mem_of_lookup hchild, ih h⟩)

/-- Whether no two nodes of a subtree have the same identity and no key stands twice. -/
structure Distinct (n : Node) : Prop where
  keys : ∀ {path m}, n.at? path = some m → (m.children.map (·.1)).Nodup
  unique : ∀ {path path' m m'}, n.at? path = some m → n.at? path' = some m' → m.id = m'.id →
    path = path'

theorem Distinct.at? {n m : Node} {path : List Key} (h : n.Distinct) (hm : n.at? path = some m) :
    m.Distinct where
  keys hx := h.keys (at?_append_of hm hx)
  unique hx hx' hid :=
    List.append_cancel_left (h.unique (at?_append_of hm hx) (at?_append_of hm hx') hid)

theorem unique_of_nodup_ids {n m m' : Node} {path path' : List Key} (nodup : n.ids.Nodup)
    (h : n.at? path = some m) (h' : n.at? path' = some m') (hid : m.id = m'.id) : path = path' := by
  induction path generalizing n path' with
  | nil =>
    cases path' with
    | nil => rfl
    | cons key path' =>
      obtain rfl := Option.some.inj h
      obtain ⟨child, hchild, h'⟩ := Option.bind_eq_some_iff.1 h'
      rw [ids_eq, List.nodup_cons] at nodup
      exact absurd (List.mem_flatMap.2 ⟨_, Key.mem_of_lookup hchild, hid ▸ mem_ids_of_at? h'⟩) nodup.1
  | cons key path ih =>
    obtain ⟨child, hchild, h⟩ := Option.bind_eq_some_iff.1 h
    rw [ids_eq, List.nodup_cons, List.nodup_flatMap] at nodup
    obtain ⟨hhere, hparts, hpairs⟩ := nodup
    cases path' with
    | nil =>
      obtain rfl := Option.some.inj h'
      exact absurd (List.mem_flatMap.2 ⟨_, Key.mem_of_lookup hchild, hid ▸ mem_ids_of_at? h⟩) hhere
    | cons key' path' =>
      obtain ⟨child', hchild', h'⟩ := Option.bind_eq_some_iff.1 h'
      by_cases hkey : (key, child) = (key', child')
      · obtain ⟨rfl, rfl⟩ := Prod.mk.inj hkey
        rw [ih (hparts _ (Key.mem_of_lookup hchild)) h h']
      · have : Std.Symm (Function.onFun List.Disjoint fun part : Key × Node => part.2.ids) :=
          ⟨fun _ _ hdisj _ h h' => hdisj h' h⟩
        have hdisj := hpairs.forall (Key.mem_of_lookup hchild) (Key.mem_of_lookup hchild') hkey
        exact absurd (hid ▸ mem_ids_of_at? h') fun hmem => hdisj (mem_ids_of_at? h) hmem

theorem exists_at?_of_mem_ids {n : Node} (keys : n.value.keysDistinct = true) {id : Nat}
    (h : id ∈ n.ids) : ∃ path m, n.at? path = some m ∧ m.id = id := by
  obtain ⟨p, hp, rfl⟩ := List.mem_map.1 h
  have hcovers : Place.Covers ⟨n, []⟩ p := Place.covers_of_mem_subtree keys hp
  obtain ⟨path, -, hat⟩ := hcovers.path_eq
  exact ⟨path, p.node, hat, rfl⟩

/-- Each identity in a subtree stands there once. -/
theorem Distinct.nodup_ids {n : Node} (h : n.Distinct) : n.ids.Nodup := by
  induction n using Node.induct with
  | step n ih =>
    have child {part : Key × Node} (hpart : part ∈ n.children) : n.at? [part.1] = some part.2 := by
      rw [at?_cons, get?, Key.lookup_eq_some_of_mem (h.keys n.at?_nil) hpart]
      rfl
    have below {part : Key × Node} (hpart : part ∈ n.children) {id : Nat} (hid : id ∈ part.2.ids) :
        ∃ path m, n.at? (part.1 :: path) = some m ∧ m.id = id := by
      have keys : part.2.value.keysDistinct = true :=
        keysDistinct_iff.2 fun _ _ hm => (h.at? (child hpart)).keys hm
      obtain ⟨path, m, hm, hid⟩ := exists_at?_of_mem_ids keys hid
      exact ⟨path, m, at?_append_of (child hpart) hm, hid⟩
    rw [ids_eq, List.nodup_cons, List.nodup_flatMap]
    refine ⟨fun hmem => ?_, fun part hpart => ih part hpart (h.at? (child hpart)), ?_⟩
    · obtain ⟨part, hpart, hid⟩ := List.mem_flatMap.1 hmem
      obtain ⟨path, m, hm, hid⟩ := below hpart hid
      cases h.unique hm n.at?_nil hid
    · -- Children at different keys have no identity in common.
      have keys : (n.children.map (·.1)).Nodup := h.keys n.at?_nil
      rw [List.Nodup, List.pairwise_map] at keys
      refine keys.imp_of_mem fun {a b} ha hb hne => fun id hid hid' => ?_
      obtain ⟨path, m, hm, hmid⟩ := below ha hid
      obtain ⟨path', m', hm', hmid'⟩ := below hb hid'
      exact hne (List.cons.inj (h.unique hm hm' (hmid.trans hmid'.symm))).1

theorem value_ofJson (tag : Tag) (next : Nat) (v : Json) : (ofJson tag next v).value = v := by
  have items (next : Nat) (items : List Json)
      (h : ∀ item ∈ items, ∀ tag next, (ofJson tag next item).value = item) :
      (ofItems next items).map value = items := by
    induction items generalizing next with
    | nil => rfl
    | cons item items ih =>
      rw [ofItems, List.map_cons, h item List.mem_cons_self,
        ih _ fun i hi => h i (List.mem_cons_of_mem _ hi)]
  have fields (next : Nat) (fields : Fields)
      (h : ∀ field ∈ fields, ∀ tag next, (ofJson tag next field.2).value = field.2) :
      (ofFields next fields).map (fun field => (field.1, field.2.value)) = fields := by
    induction fields generalizing next with
    | nil => rfl
    | cons field fields ih =>
      rw [ofFields, List.map_cons, h field List.mem_cons_self,
        ih _ fun i hi => h i (List.mem_cons_of_mem _ hi)]
  induction v using Json.induct generalizing tag next with
  | step v ih =>
    cases v with
    | arr items' =>
      rw [ofJson, value, valueItems_eq, items]
      intro item hitem tag next
      obtain ⟨part, hpart, rfl⟩ : ∃ part ∈ (Json.arr items').children, part.2 = item := by
        rwa [← List.mem_map, Json.children, Key.map_snd_ofItems]
      exact ih part hpart tag next
    | obj fields' =>
      rw [ofJson, value, valueFields_eq, fields]
      intro field hfield tag next
      exact ih _ (List.mem_map_of_mem hfield) tag next
    | _ => rfl

/-- The parts of a new node get the identities in their order. -/
theorem ids_ofJson (tag : Tag) (next : Nat) (v : Json) :
    (ofJson tag next v).ids = tag.id :: List.range' next (v.size - 1) := by
  have range_add (next : Nat) {v : Json} {rest : Nat} :
      next :: List.range' (next + 1) (v.size - 1) ++ List.range' (next + v.size) rest =
        List.range' next (v.size + rest) := by
    have := v.size_pos
    rw [← List.range'_succ, show v.size - 1 + 1 = v.size by omega, List.range'_append_1]
  have items (start next : Nat) (items : List Json)
      (h : ∀ item ∈ items, ∀ tag next,
        (ofJson tag next item).ids = tag.id :: List.range' next (item.size - 1)) :
      (Key.ofItems start (ofItems next items)).flatMap (fun part => part.2.ids) =
        List.range' next (Json.sizeItems items) := by
    induction items generalizing start next with
    | nil => rfl
    | cons item items ih =>
      rw [ofItems, Key.ofItems_cons, List.flatMap_cons, h item List.mem_cons_self,
        ih _ _ fun i hi => h i (List.mem_cons_of_mem _ hi)]
      exact range_add next
  have fields (next : Nat) (fields : Fields)
      (h : ∀ field ∈ fields, ∀ tag next,
        (ofJson tag next field.2).ids = tag.id :: List.range' next (field.2.size - 1)) :
      (Key.ofFields (ofFields next fields)).flatMap (fun part => part.2.ids) =
        List.range' next (Json.sizeFields fields) := by
    induction fields generalizing next with
    | nil => rfl
    | cons field fields ih =>
      have rest := ih (next + field.2.size) fun i hi => h i (List.mem_cons_of_mem _ hi)
      rw [Key.ofFields] at rest
      rw [ofFields, Key.ofFields, List.map_cons, List.flatMap_cons, h field List.mem_cons_self, rest]
      exact range_add next
  induction v using Json.induct generalizing tag next with
  | step v ih =>
    rw [ids_eq]
    cases v with
    | arr items' =>
      rw [ofJson, children_list, items]
      · simp only [Json.size, Nat.add_sub_cancel_left]
        rfl
      · intro item hitem tag next
        obtain ⟨part, hpart, rfl⟩ : ∃ part ∈ (Json.arr items').children, part.2 = item := by
          rwa [← List.mem_map, Json.children, Key.map_snd_ofItems]
        exact ih part hpart tag next
    | obj fields' =>
      rw [ofJson, children_record, fields]
      · simp only [Json.size, Nat.add_sub_cancel_left]
        rfl
      · intro field hfield tag next
        exact ih _ (List.mem_map_of_mem hfield) tag next
    | _ => rfl

theorem id_ofJson (tag : Tag) (next : Nat) (v : Json) : (ofJson tag next v).id = tag.id := by
  cases v <;> rfl

theorem schema?_ofJson (tag : Tag) (next : Nat) (v : Json) :
    (ofJson tag next v).schema? = tag.schema := by
  cases v <;> rfl

/-- A new node takes the identity that it is given, and unused ones for its parts. -/
theorem id_of_at?_ofJson {tag : Tag} {next : Nat} {v : Json} {path : List Key} {m : Node}
    (h : (ofJson tag next v).at? path = some m) :
    m.id = tag.id ∨ next ≤ m.id ∧ m.id < next + (v.size - 1) := by
  have := mem_ids_of_at? h
  rw [ids_ofJson, List.mem_cons, List.mem_range'_1] at this
  exact this

theorem distinct_ofJson {tag : Tag} {next : Nat} {v : Json} (keys : v.keysDistinct = true)
    (fresh : tag.id < next) : (ofJson tag next v).Distinct where
  keys {path m} hm := keysDistinct_iff.1 (by rwa [value_ofJson]) path m hm
  unique hm hm' hid := by
    refine unique_of_nodup_ids ?_ hm hm' hid
    rw [ids_ofJson, List.nodup_cons, List.mem_range'_1]
    exact ⟨by omega, List.nodup_range'⟩

/-- Linking keeps what tells nodes apart. -/
theorem Distinct.link {p : Place} (h : p.node.Distinct) (l : Linking) (schema : Option Schema) :
    (Linking.link l schema p.above p.node).Distinct where
  keys hm := by
    obtain ⟨q, schema', hq, hpath, rfl⟩ := Linking.exists_of_at?_link hm
    obtain ⟨more, hmore, hat⟩ := hq.path_eq
    rw [Linking.keys_link]
    exact h.keys hat
  unique hm hm' hid := by
    obtain ⟨q, schema', hq, hpath, rfl⟩ := Linking.exists_of_at?_link hm
    obtain ⟨q', schema'', hq', hpath', rfl⟩ := Linking.exists_of_at?_link hm'
    obtain ⟨more, hmore, hat⟩ := hq.path_eq
    obtain ⟨more', hmore', hat'⟩ := hq'.path_eq
    rw [Linking.id_link, Linking.id_link] at hid
    rw [List.append_cancel_left (hpath.symm.trans hmore),
      List.append_cancel_left (hpath'.symm.trans hmore')]
    exact h.unique hat hat' hid

end Node

namespace Key

/-- The key that a child had before the one at `gone` was taken away. -/
def before (gone key : Key) : Key :=
  match gone, key with
  | .index i, .index j => if j < i then .index j else .index (j + 1)
  | _, key => key

theorem before_injective (gone : Key) : Function.Injective gone.before := by
  intro a b h
  cases gone with
  | name s => exact h
  | index i =>
    cases a with
    | name s =>
      cases b with
      | name t => exact h
      | index k =>
        simp only [before] at h
        split at h <;> simp at h
    | index j =>
      cases b with
      | name t =>
        simp only [before] at h
        split at h <;> simp at h
      | index k =>
        simp only [before] at h
        split at h <;> split at h <;> simp only [Key.index.injEq] at h ⊢ <;> omega

end Key

namespace Node

/-- What is left of a node has been there before, later items under the next position. -/
theorem get?_of_drop {n m : Node} {gone key : Key} (keys : (n.children.map (·.1)).Nodup)
    (h : (n.drop gone).get? key = some m) : n.get? (gone.before key) = some m := by
  cases n with
  | leaf tag v => cases gone <;> simp [drop, get?, children] at h
  | list tag items =>
    cases key with
    | name s => cases gone <;> simp [drop, get?_list_name] at h
    | index j =>
      cases gone with
      | name s => exact h
      | index i =>
        rw [drop, get?_list, List.getElem?_eraseIdx] at h
        simp only [Key.before]
        split at h
        · rw [if_pos ‹_›, get?_list]
          exact h
        · rw [if_neg ‹_›, get?_list]
          exact h
  | record tag fields =>
    cases key with
    | index j => cases gone <;> simp [drop, get?_record_index] at h
    | name t =>
      cases gone with
      | index i => exact h
      | name s =>
        rw [drop] at h
        have hmem : (Key.name t, m) ∈ (record tag fields).children := by
          obtain ⟨field, hfield, heq⟩ := List.mem_map.1 (Key.mem_of_lookup h)
          exact List.mem_map.2 ⟨field, List.eraseP_subset hfield, heq⟩
        exact Key.lookup_eq_some_of_mem keys hmem

theorem tag_drop (n : Node) (gone : Key) : (n.drop gone).tag = n.tag := by
  cases n <;> cases gone <;> rfl

theorem kind_drop (n : Node) (gone : Key) : (n.drop gone).kind = n.kind := by
  cases n <;> cases gone <;> rfl

theorem nodup_keys_drop {n : Node} (gone : Key) (keys : (n.children.map (·.1)).Nodup) :
    ((n.drop gone).children.map (·.1)).Nodup := by
  cases n with
  | leaf tag v => cases gone <;> exact keys
  | list tag items =>
    cases gone with
    | name s => exact keys
    | index i =>
      rw [drop, children_list]
      exact Key.nodup_ofItems 0 _
  | record tag fields =>
    cases gone with
    | index i => exact keys
    | name s => exact keys.sublist (List.eraseP_sublist.map _ |>.map _)

/-- The path that a node had before a child of the node at its start was taken away. -/
def beforePath (gone : Key) : List Key → List Key
  | [] => []
  | key :: path => gone.before key :: path

theorem at?_of_drop {n m : Node} {gone : Key} {path : List Key}
    (keys : (n.children.map (·.1)).Nodup) (h : (n.drop gone).at? path = some m) :
    path = [] ∧ m = n.drop gone ∨ path ≠ [] ∧ n.at? (beforePath gone path) = some m := by
  cases path with
  | nil => exact .inl ⟨rfl, (Option.some.inj h).symm⟩
  | cons key path =>
    obtain ⟨child, hchild, h⟩ := Option.bind_eq_some_iff.1 h
    refine .inr ⟨List.cons_ne_nil _ _, ?_⟩
    rw [beforePath, at?_cons, get?_of_drop keys hchild]
    exact h

/-- The node of an identity that is left is the one of before. -/
theorem exists_id_of_at?_drop {n m : Node} {gone : Key} {path : List Key}
    (keys : (n.children.map (·.1)).Nodup) (h : (n.drop gone).at? path = some m) :
    ∃ x, n.at? (beforePath gone path) = some x ∧ x.id = m.id := by
  rcases at?_of_drop keys h with ⟨rfl, rfl⟩ | ⟨-, h⟩
  · exact ⟨n, rfl, (congrArg Tag.id (tag_drop n gone)).symm⟩
  · exact ⟨m, h, rfl⟩

theorem Distinct.drop {n : Node} (h : n.Distinct) (gone : Key) : (n.drop gone).Distinct where
  keys hm := by
    have here := h.keys n.at?_nil
    rcases at?_of_drop here hm with ⟨-, rfl⟩ | ⟨-, hm⟩
    · exact nodup_keys_drop gone here
    · exact h.keys hm
  unique {path path' m m'} hm hm' hid := by
    have here := h.keys n.at?_nil
    obtain ⟨x, hx, hxid⟩ := exists_id_of_at?_drop here hm
    obtain ⟨x', hx', hxid'⟩ := exists_id_of_at?_drop here hm'
    have := h.unique hx hx' (hxid.trans (hid.trans hxid'.symm))
    cases path with
    | nil =>
      cases path' with
      | nil => rfl
      | cons key' path' => simp [beforePath] at this
    | cons key path =>
      cases path' with
      | nil => simp [beforePath] at this
      | cons key' path' =>
        obtain ⟨hkey, rfl⟩ := List.cons.inj this
        rw [gone.before_injective hkey]

theorem get?_append {tag : Tag} {items : List Node} {item m : Node} {key : Key}
    (h : (list tag (items ++ [item])).get? key = some m) :
    (list tag items).get? key = some m ∨ key = .index items.length ∧ m = item := by
  cases key with
  | name s => simp [get?_list_name] at h
  | index i =>
    rw [get?_list, List.getElem?_append] at h
    split at h
    · exact .inl (by rwa [get?_list])
    · obtain ⟨hlt, hm⟩ := List.getElem?_eq_some_iff.1 h
      have hi : i = items.length := by
        simp only [List.length_singleton] at hlt
        omega
      subst hi
      exact .inr ⟨rfl, by simpa using hm.symm⟩

/-- The nodes of an array with a new item are the old ones and those of the item. -/
theorem at?_of_append {tag : Tag} {items : List Node} {item m : Node} {path : List Key}
    (h : (list tag (items ++ [item])).at? path = some m) :
    path = [] ∧ m = list tag (items ++ [item]) ∨
      path ≠ [] ∧ (list tag items).at? path = some m ∨
      ∃ more, path = .index items.length :: more ∧ item.at? more = some m := by
  cases path with
  | nil => exact .inl ⟨rfl, (Option.some.inj h).symm⟩
  | cons key path =>
    obtain ⟨child, hchild, hm⟩ := Option.bind_eq_some_iff.1 h
    rcases get?_append hchild with hold | ⟨rfl, rfl⟩
    · exact .inr (.inl ⟨List.cons_ne_nil _ _, by rw [at?_cons, hold]; exact hm⟩)
    · exact .inr (.inr ⟨path, rfl, hm⟩)

theorem Distinct.append {tag : Tag} {items : List Node} {item : Node} {next : Nat}
    (h : (list tag items).Distinct) (hitem : item.Distinct)
    (old : ∀ {path m}, (list tag items).at? path = some m → m.id < next)
    (new : ∀ {path m}, item.at? path = some m → next ≤ m.id) :
    (list tag (items ++ [item])).Distinct where
  keys hm := by
    rcases at?_of_append hm with ⟨-, rfl⟩ | ⟨-, hm⟩ | ⟨more, -, hm⟩
    · rw [children_list]
      exact Key.nodup_ofItems 0 _
    · exact h.keys hm
    · exact hitem.keys hm
  unique {path path' m m'} hm hm' hid := by
    have known {path : List Key} {m : Node} (hm : (list tag (items ++ [item])).at? path = some m) :
        (∃ x, (list tag items).at? path = some x ∧ x.id = m.id) ∨
          ∃ more, path = .index items.length :: more ∧ item.at? more = some m := by
      rcases at?_of_append hm with ⟨rfl, rfl⟩ | ⟨-, hm⟩ | hm
      · exact .inl ⟨_, rfl, rfl⟩
      · exact .inl ⟨m, hm, rfl⟩
      · exact .inr hm
    rcases known hm with ⟨x, hx, hxid⟩ | ⟨more, rfl, hx⟩
    · rcases known hm' with ⟨x', hx', hxid'⟩ | ⟨more', rfl, hx'⟩
      · exact h.unique hx hx' (hxid.trans (hid.trans hxid'.symm))
      · have := old hx
        have := new hx'
        omega
    · rcases known hm' with ⟨x', hx', hxid'⟩ | ⟨more', rfl, hx'⟩
      · have := old hx'
        have := new hx
        omega
      · rw [hitem.unique hx hx' hid]

end Node

namespace Document

variable {d : Document} {p q : Place}

/-- Whether an identity leads to one place, and those from `next` on to none. -/
structure Sound (d : Document) : Prop where
  distinct : d.root.Distinct
  fresh : ∀ {path n}, d.root.at? path = some n → n.id < d.next

namespace Sound

theorem keysDistinct (h : d.Sound) : d.value.keysDistinct = true :=
  Node.keysDistinct_iff.2 fun _ _ hm => h.distinct.keys hm

theorem mem_places_iff (h : d.Sound) : p ∈ d.places ↔ d.Has p :=
  Document.mem_places_iff h.keysDistinct

theorem eq_of_id_eq (h : d.Sound) (hp : d.Has p) (hq : d.Has q) (hid : p.id = q.id) : p = q :=
  hp.eq_of_path_eq hq (h.distinct.unique hp.at?_path hq.at?_path hid)

theorem find?_eq_some_iff (h : d.Sound) {id : Nat} : d.find? id = some p ↔ d.Has p ∧ p.id = id := by
  have found {q : Place} (hfind : d.find? id = some q) : d.Has q ∧ q.id = id := by
    have hid := List.find?_some hfind
    exact ⟨h.mem_places_iff.1 (List.mem_of_find?_eq_some hfind), beq_iff_eq.1 hid⟩
  constructor
  · exact found
  · rintro ⟨hp, rfl⟩
    cases hfind : d.find? p.id with
    | none =>
      have := List.find?_eq_none.1 hfind p (h.mem_places_iff.2 hp)
      simp at this
    | some q => rw [h.eq_of_id_eq (found hfind).1 hp (found hfind).2]

/-- A new node keeps a document sound if its identities are distinct and each is one of the node
that it stands for or has never been in use. -/
theorem setAt (h : d.Sound) (hp : d.Has p) {m : Node} {next : Nat} (hm : m.Distinct)
    (hnext : d.next ≤ next)
    (known : ∀ {path x}, m.at? path = some x →
      (∃ path' y, p.node.at? path' = some y ∧ y.id = x.id) ∨ d.next ≤ x.id ∧ x.id < next) :
    Sound { d.setAt p m with next } := by
  have split (path : List Key) (x : Node) (hx : (d.setAt p m).root.at? path = some x) :
      (∃ more, path = p.path ++ more ∧ m.at? more = some x) ∨
        ¬ p.path <+: path ∧ ∃ y, d.root.at? path = some y ∧ y.skin = x.skin := by
    by_cases hpre : p.path <+: path
    · obtain ⟨more, rfl⟩ := hpre
      exact .inl ⟨more, rfl, by rwa [at?_setAt_self hp] at hx⟩
    · have := skin_setAt hp m hpre
      rw [hx, Option.map_some, eq_comm, Option.map_eq_some_iff] at this
      exact .inr ⟨hpre, this⟩
  -- A node of the new part and one elsewhere differ in their identities.
  have apart (path more : List Key) (x y : Node) (hx : m.at? more = some x)
      (hy : d.root.at? path = some y) (hpre : ¬ p.path <+: path) : x.id ≠ y.id := by
    intro hid
    rcases known hx with ⟨old, z, hz, hzid⟩ | hnew
    · exact hpre ⟨old, h.distinct.unique (Node.at?_append_of hp.at?_path hz) hy (hzid.trans hid)⟩
    · have := h.fresh hy
      omega
  refine ⟨⟨?_, ?_⟩, ?_⟩
  · intro path x hx
    rcases split path x hx with ⟨more, rfl, hnew⟩ | ⟨-, y, hy, hskin⟩
    · exact hm.keys hnew
    · have : y.children.map (·.1) = x.children.map (·.1) := congrArg Node.Skin.keys hskin
      rw [← this]
      exact h.distinct.keys hy
  · intro path path' x x' hx hx' hid
    rcases split path x hx with ⟨more, rfl, hnew⟩ | ⟨hpre, y, hy, hskin⟩
    · rcases split path' x' hx' with ⟨more', rfl, hnew'⟩ | ⟨hpre', y', hy', hskin'⟩
      · rw [hm.unique hnew hnew' hid]
      · have : y'.id = x'.id := congrArg (fun s : Node.Skin => s.tag.id) hskin'
        exact absurd (hid.trans this.symm) (apart path' more x y' hnew hy' hpre')
    · have hyid : y.id = x.id := congrArg (fun s : Node.Skin => s.tag.id) hskin
      rcases split path' x' hx' with ⟨more', rfl, hnew'⟩ | ⟨hpre', y', hy', hskin'⟩
      · exact absurd (hid.symm.trans hyid.symm) (apart path more' x' y hnew' hy hpre)
      · have : y'.id = x'.id := congrArg (fun s : Node.Skin => s.tag.id) hskin'
        exact h.distinct.unique hy hy' (hyid.trans (hid.trans this.symm))
  · intro path x hx
    rcases split path x hx with ⟨more, rfl, hnew⟩ | ⟨-, y, hy, hskin⟩
    · rcases known hnew with ⟨old, z, hz, hzid⟩ | hunused
      · have := h.fresh (Node.at?_append_of hp.at?_path hz)
        change x.id < next
        omega
      · exact hunused.2
    · have hyid : y.id = x.id := congrArg (fun s : Node.Skin => s.tag.id) hskin
      have := h.fresh hy
      change x.id < next
      omega

theorem nodup_ids (h : d.Sound) : d.root.ids.Nodup := h.distinct.nodup_ids

end Sound

/-- Whether an identity is that of a node in a document. -/
def Live (d : Document) (id : Nat) : Prop := (d.find? id).isSome = true

instance (d : Document) (id : Nat) : Decidable (d.Live id) :=
  inferInstanceAs (Decidable ((d.find? id).isSome = true))

theorem Sound.live_iff (h : d.Sound) {id : Nat} : d.Live id ↔ ∃ p, d.Has p ∧ p.id = id := by
  rw [Live, Option.isSome_iff_exists]
  exact exists_congr fun p => h.find?_eq_some_iff

theorem Sound.lt_next (h : d.Sound) {id : Nat} (hid : d.Live id) : id < d.next := by
  obtain ⟨p, hp, rfl⟩ := h.live_iff.1 hid
  exact h.fresh hp.at?_path

/-- The document with another node at a place, for which identities up to `next` have been given
away. -/
def graft (d : Document) (p : Place) (m : Node) (next : Nat) : Document :=
  { d.setAt p m with next }

/-- Whether a node can come in where another one stands.  It keeps the identity of that node, and
each of its parts has one of a node below there or one that has never been given away. -/
structure Graft (d : Document) (p : Place) (m : Node) (next : Nat) : Prop where
  has : d.Has p
  id : m.id = p.id
  distinct : m.Distinct
  next_le : d.next ≤ next
  known : ∀ {path x}, m.at? path = some x →
    (∃ path' y, p.node.at? path' = some y ∧ y.id = x.id) ∨ d.next ≤ x.id ∧ x.id < next

/-- What remains true of identities while a document changes: the root keeps its own, and a node that
comes in gets one that has never been given away. -/
structure Later (d d' : Document) : Prop where
  root : d'.root.id = d.root.id
  next_le : d.next ≤ d'.next
  live : ∀ {id}, d'.Live id → d.Live id ∨ d.next ≤ id

theorem Later.refl (d : Document) : Later d d := ⟨rfl, Nat.le_refl _, .inl⟩

theorem Later.trans {d' d'' : Document} (h : Later d d') (h' : Later d' d'') : Later d d'' where
  root := h'.root.trans h.root
  next_le := Nat.le_trans h.next_le h'.next_le
  live hid := (h'.live hid).elim h.live fun hle => .inr (Nat.le_trans h.next_le hle)

/-- An identity that no node has any more is given to no node again. -/
theorem Later.dead {d' d'' : Document} (h : Later d d') (h' : Later d' d'') (sound : d.Sound)
    {id : Nat} (hlive : d.Live id) (hdead : ¬ d'.Live id) : ¬ d''.Live id := by
  intro hagain
  rcases h'.live hagain with hid | hle
  · exact hdead hid
  · have := sound.lt_next hlive
    have := h.next_le
    omega

namespace Graft

variable {m : Node} {next : Nat}

theorem sound (g : d.Graft p m next) (h : d.Sound) : (d.graft p m next).Sound :=
  h.setAt g.has g.distinct g.next_le g.known

theorem root_id (g : d.Graft p m next) : (d.graft p m next).root.id = d.root.id := by
  have hp := g.has
  have hid := g.id
  obtain ⟨n, above⟩ := p
  cases above with
  | nil => exact hid.trans (congrArg Node.id hp.above_nil)
  | cons step above =>
    obtain ⟨key, parent⟩ := step
    have hskin := skin_setAt (q := []) hp m (by simp)
    exact congrArg (fun s : Node.Skin => s.tag.id) (Option.some.inj hskin)

theorem later (g : d.Graft p m next) (h : d.Sound) : Later d (d.graft p m next) where
  root := g.root_id
  next_le := g.next_le
  live {id} hid := by
    obtain ⟨q, hq, rfl⟩ := (g.sound h).live_iff.1 hid
    by_cases hpre : p.path <+: q.path
    · obtain ⟨more, hpath⟩ := hpre
      have hat := hq.at?_path
      rw [← hpath] at hat
      rcases g.known ((at?_setAt_self g.has m more).symm.trans hat) with ⟨old, y, hy, hyid⟩ | hnew
      · obtain ⟨r, hr, -, rfl⟩ := Place.Covers.exists_of_at? p hy
        exact .inl (h.live_iff.2 ⟨r, g.has.trans hr, hyid⟩)
      · exact .inr hnew.1
    · obtain ⟨r, hr, -, htag, -⟩ := exists_place_setAt g.has hq hpre
      exact .inl (h.live_iff.2 ⟨r, hr, congrArg Tag.id htag⟩)

end Graft

end Document

end FormSchema
