import FormSchema.Document.Link
import FormSchema.Proofs.Document.Path

/-!
What a new node at the end of a path does to the nodes elsewhere.  Nodes beside the path stay, and
those on the way to it keep all but the child that the path goes through; so do the links between
them, in whatever relation they stand to the nodes above.
-/

namespace FormSchema

namespace Node

variable {n m : Node} {key other : Key}

/-- What a node is without its children: its tag, its kind and the keys that it has. -/
structure Skin where
  tag : Tag
  kind : Kind
  keys : List Key

def skin (n : Node) : Skin := ⟨n.tag, n.kind, n.children.map (·.1)⟩

theorem isSome_get?_iff (n : Node) (key : Key) :
    (n.get? key).isSome = true ↔ key ∈ n.children.map (·.1) := by
  rw [get?, List.lookup_isSome_iff, List.mem_map]
  constructor
  · rintro ⟨part, hpart, hkey⟩
    exact ⟨part, hpart, (beq_iff_eq.1 hkey).symm⟩
  · rintro ⟨part, hpart, rfl⟩
    exact ⟨part, hpart, beq_self_eq_true _⟩

theorem map_fst_putField (s : String) (m : Node) (fields : List (String × Node)) :
    (putField s m fields).map (·.1) = fields.map (·.1) := by
  induction fields with
  | nil => rfl
  | cons field fields ih =>
    obtain ⟨k, item⟩ := field
    by_cases h : k = s <;> simp [putField, h, ih]

theorem lookup_putField (s t : String) (m : Node) (fields : List (String × Node)) :
    (putField s m fields).lookup t =
      if t = s then (fields.lookup t).map fun _ => m else fields.lookup t := by
  induction fields with
  | nil => simp [putField]
  | cons field fields ih =>
    obtain ⟨k, item⟩ := field
    by_cases hk : k = s
    · subst hk
      by_cases ht : t = k
      · subst ht
        simp [putField]
      · simp [putField, List.lookup_cons, beq_false_of_ne ht, ht]
    · rw [putField, if_neg hk, List.lookup_cons, List.lookup_cons, ih]
      by_cases ht : t = k
      · subst ht
        simp [hk]
      · simp [beq_false_of_ne ht]

theorem skin_put (n : Node) (key : Key) (m : Node) : (n.put key m).skin = n.skin := by
  cases n with
  | leaf tag v => cases key <;> rfl
  | list tag items =>
    cases key with
    | name s => rfl
    | index i =>
      have : ∀ (l : List Node) (j : Nat),
          (Key.ofItems j l).map (·.1) = (List.range' j l.length).map Key.index := by
        intro l
        induction l with
        | nil => simp
        | cons a l ih => intro j; simp [ih, List.range'_succ]
      rw [put, skin, skin, children_list, children_list, this, this, List.length_set]
      rfl
  | record tag fields =>
    cases key with
    | index i => rfl
    | name s =>
      have hnames : ∀ l : List (String × Node),
          (Key.ofFields l).map (·.1) = (l.map (·.1)).map Key.name := by simp [Key.ofFields]
      rw [put, skin, skin, children_record, children_record, hnames, hnames, map_fst_putField]
      rfl

theorem get?_put_self (h : (n.get? key).isSome = true) : (n.put key m).get? key = some m := by
  cases n with
  | leaf tag v => simp [get?, children] at h
  | list tag items =>
    cases key with
    | name s => simp [get?_list_name] at h
    | index i =>
      rw [get?_list, Option.isSome_iff_exists] at h
      obtain ⟨item, hitem⟩ := h
      obtain ⟨hlt, -⟩ := List.getElem?_eq_some_iff.1 hitem
      rw [put, get?_list, List.getElem?_set_self hlt]
  | record tag fields =>
    cases key with
    | index i => simp [get?_record_index] at h
    | name s =>
      rw [get?_record, Option.isSome_iff_exists] at h
      obtain ⟨item, hitem⟩ := h
      rw [put, get?_record, lookup_putField, if_pos rfl, hitem]
      rfl

theorem get?_put_ne (h : other ≠ key) : (n.put key m).get? other = n.get? other := by
  cases n with
  | leaf tag v => cases key <;> rfl
  | list tag items =>
    cases key with
    | name s => rfl
    | index i =>
      cases other with
      | name s => rw [put, get?_list_name, get?_list_name]
      | index j =>
        have : i ≠ j := fun e => h (congrArg Key.index e.symm)
        rw [put, get?_list, get?_list, List.getElem?_set_ne this]
  | record tag fields =>
    cases key with
    | index i => rfl
    | name s =>
      cases other with
      | index i => rw [put, get?_record_index, get?_record_index]
      | name t =>
        have : t ≠ s := fun e => h (congrArg Key.name e)
        rw [put, get?_record, get?_record, lookup_putField, if_neg this]

theorem value_put {child : Node} (h : n.get? key = some child) (hvalue : m.value = child.value) :
    (n.put key m).value = n.value := by
  cases n with
  | leaf tag v => simp [get?, children] at h
  | list tag items =>
    cases key with
    | name s => simp [get?_list_name] at h
    | index i =>
      rw [get?_list] at h
      rw [put, value, value, valueItems_eq, valueItems_eq, List.map_set, hvalue]
      refine congrArg Json.arr (List.ext_getElem? fun j => ?_)
      by_cases hj : i = j
      · subst hj
        obtain ⟨hlt, -⟩ := List.getElem?_eq_some_iff.1 h
        rw [List.getElem?_set_self (by simpa using hlt), List.getElem?_map, h]
        rfl
      · rw [List.getElem?_set_ne hj]
  | record tag fields =>
    cases key with
    | index i => simp [get?_record_index] at h
    | name s =>
      rw [get?_record] at h
      rw [put, value, value, valueFields_eq, valueFields_eq]
      refine congrArg Json.obj ?_
      induction fields with
      | nil => rfl
      | cons field fields ih =>
        obtain ⟨k, item⟩ := field
        by_cases hk : k = s
        · subst hk
          obtain rfl : item = child := by simpa using h
          rw [putField, if_pos rfl, List.map_cons, List.map_cons, hvalue]
        · rw [List.lookup_cons, beq_false_of_ne fun e => hk e.symm] at h
          rw [putField, if_neg hk, List.map_cons, List.map_cons, ih h]

end Node

namespace Place

/-- What a place needs to know of the node above it. -/
def holder? (p : Place) : Option (Tag × Kind) :=
  p.above.head?.map fun step => (step.2.tag, step.2.kind)

end Place

namespace Document

variable {d : Document} {p : Place} {q : List Key}

theorem at?_setAt_self (h : d.Has p) (m : Node) (more : List Key) :
    (d.setAt p m).root.at? (p.path ++ more) = m.at? more := by
  obtain ⟨n, above⟩ := p
  induction above generalizing n m more with
  | nil => rfl
  | cons step above ih =>
    obtain ⟨key, parent⟩ := step
    obtain ⟨hparent, hget⟩ := h.above_cons
    have hself : (parent.put key m).get? key = some m := Node.get?_put_self (by rw [hget]; rfl)
    rw [Place.path_mk_cons, List.append_assoc]
    refine (ih (parent.put key m) (key :: more) parent hparent).trans ?_
    rw [Node.at?_cons, hself, Option.bind_some]

theorem at?_setAt_apart (h : d.Has p) (m : Node) (below : ¬ p.path <+: q) (above : ¬ q <+: p.path) :
    (d.setAt p m).root.at? q = d.root.at? q := by
  obtain ⟨n, steps⟩ := p
  induction steps generalizing n m with
  | nil => exact absurd List.nil_prefix below
  | cons step steps ih =>
    obtain ⟨key, parent⟩ := step
    obtain ⟨hparent, hget⟩ := h.above_cons
    rw [Place.path_mk_cons] at below above
    by_cases hq : Place.path ⟨parent, steps⟩ <+: q
    · obtain ⟨more, rfl⟩ := hq
      have hnew := at?_setAt_self hparent (parent.put key m) more
      have hold : d.root.at? (Place.path ⟨parent, steps⟩ ++ more) = parent.at? more := by
        rw [Node.at?_append, hparent.at?_path, Option.bind_some]
      refine hnew.trans (Eq.trans ?_ hold.symm)
      cases more with
      | nil => exact absurd (by simp) above
      | cons other more =>
        have : other ≠ key := by
          rintro rfl
          exact below (by simp)
        rw [Node.at?_cons, Node.at?_cons, Node.get?_put_ne this]
    · exact ih (parent.put key m) parent hparent hq fun hpre =>
        above (hpre.trans (List.prefix_append _ _))

theorem skin_setAt (h : d.Has p) (m : Node) (below : ¬ p.path <+: q) :
    ((d.setAt p m).root.at? q).map Node.skin = (d.root.at? q).map Node.skin := by
  by_cases above : q <+: p.path
  · obtain ⟨n, steps⟩ := p
    induction steps generalizing n m with
    | nil => exact absurd List.nil_prefix below
    | cons step steps ih =>
      obtain ⟨key, parent⟩ := step
      obtain ⟨hparent, hget⟩ := h.above_cons
      rw [Place.path_mk_cons] at below above
      rcases List.prefix_concat_iff.1 above with rfl | hq
      · exact absurd List.prefix_rfl below
      · by_cases hpre : Place.path ⟨parent, steps⟩ <+: q
        · obtain rfl := List.IsPrefix.eq_of_length_le hq hpre.length_le
          have hnew := at?_setAt_self hparent (parent.put key m) []
          rw [List.append_nil] at hnew
          rw [hparent.at?_path]
          refine (congrArg (Option.map Node.skin) hnew).trans ?_
          rw [Node.at?_nil, Option.map_some, Option.map_some, Node.skin_put]
        · exact ih (parent.put key m) parent hparent hpre hq
  · rw [at?_setAt_apart h m below above]

/-- The place that stays where the new node comes in. -/
theorem Has.setAt_self (h : d.Has p) (m : Node) :
    ∃ p', (d.setAt p m).Has p' ∧ p'.path = p.path ∧ p'.node = m :=
  Has.exists_of_at? (by simpa using at?_setAt_self h m [])

theorem value_setAt (h : d.Has p) {m : Node} (hvalue : m.value = p.value) :
    (d.setAt p m).value = d.value := by
  obtain ⟨n, above⟩ := p
  induction above generalizing n m with
  | nil =>
    rw [value, value, ← h.above_nil]
    exact hvalue
  | cons step above ih =>
    obtain ⟨key, parent⟩ := step
    obtain ⟨hparent, hget⟩ := h.above_cons
    exact ih parent hparent (Node.value_put hget hvalue)

/-- A place that is not below the new node has the same node above it as before. -/
theorem holder?_setAt (h : d.Has p) {m : Node} {q r : Place} (hq : (d.setAt p m).Has q)
    (hr : d.Has r) (hpath : r.path = q.path) (apart : ∀ path key, q.path = path ++ [key] →
      ¬ p.path <+: path) : r.holder? = q.holder? := by
  obtain ⟨n, above⟩ := q
  obtain ⟨n', above'⟩ := r
  cases above with
  | nil =>
    cases above' with
    | nil => rfl
    | cons step' above' => simp at hpath
  | cons step above =>
    cases above' with
    | nil => simp at hpath
    | cons step' above' =>
      obtain ⟨key, parent⟩ := step
      obtain ⟨key', parent'⟩ := step'
      rw [Place.path_mk_cons, Place.path_mk_cons] at hpath
      obtain ⟨hpath, -⟩ := List.append_inj' hpath rfl
      have hskin := skin_setAt h m (apart _ _ (Place.path_mk_cons _ _ _))
      rw [hq.above_cons.1.at?_path, ← show Place.path ⟨parent', above'⟩ = _ from hpath,
        hr.above_cons.1.at?_path] at hskin
      have hskin := Option.some.inj hskin
      exact congrArg some (Prod.ext (congrArg Node.Skin.tag hskin).symm
        (congrArg Node.Skin.kind hskin).symm)

theorem holder?_setAt_self (h : d.Has p) {m : Node} {q : Place} (hq : (d.setAt p m).Has q)
    (hpath : q.path = p.path) : q.holder? = p.holder? := by
  refine (holder?_setAt h hq h hpath.symm fun path key hconcat hpre => ?_).symm
  have := hpre.length_le
  rw [← hpath, hconcat, List.length_append, List.length_singleton] at this
  omega

/-- A place that the new node is not above of has been there before. -/
theorem exists_place_setAt (h : d.Has p) {m : Node} {q : Place} (hq : (d.setAt p m).Has q)
    (apart : ¬ p.path <+: q.path) :
    ∃ r, d.Has r ∧ r.path = q.path ∧ r.node.tag = q.node.tag ∧ r.holder? = q.holder? := by
  have hskin := skin_setAt h m apart
  rw [hq.at?_path, Option.map_some, eq_comm, Option.map_eq_some_iff] at hskin
  obtain ⟨n, hn, hskin⟩ := hskin
  obtain ⟨r, hr, hpath, rfl⟩ := Has.exists_of_at? hn
  refine ⟨r, hr, hpath, congrArg Node.Skin.tag hskin, holder?_setAt h hq hr hpath ?_⟩
  intro path key hconcat hpre
  exact apart (hpre.trans ⟨[key], hconcat.symm⟩)

end Document

/-- Whether all links below a node stand in a relation to the node above and the key there. -/
def Node.Throughout (R : Node → Key → Option Schema → Prop) (n : Node) : Prop :=
  ∀ ⦃path : List Key⦄ ⦃key : Key⦄ ⦃parent child : Node⦄, n.at? path = some parent →
    parent.get? key = some child → R parent key child.schema?

theorem Node.Throughout.at? {R : Node → Key → Option Schema → Prop} {n m : Node} {path : List Key}
    (h : n.Throughout R) (hm : n.at? path = some m) : m.Throughout R :=
  fun _ _ _ _ hparent hchild => h (Node.at?_append_of hm hparent) hchild

namespace Document

/-- Whether all links of a document stand in a relation to the node above and the key there, except
for those below the end of a path. -/
def Beside (R : Node → Key → Option Schema → Prop) (d : Document) (apart : List Key) : Prop :=
  ∀ ⦃path : List Key⦄ ⦃key : Key⦄ ⦃parent child : Node⦄, ¬ apart <+: path →
    d.root.at? path = some parent → parent.get? key = some child → R parent key child.schema?

variable {R : Node → Key → Option Schema → Prop} {d : Document} {p : Place} {m : Node}

theorem beside_of_throughout (h : d.root.Throughout R) (apart : List Key) : d.Beside R apart :=
  fun _ _ _ _ _ hparent hchild => h hparent hchild

theorem throughout_of_beside (hp : d.Has p) (h : d.Beside R p.path) (hnode : p.node.Throughout R) :
    d.root.Throughout R := by
  intro path key parent child hparent hchild
  by_cases hpre : p.path <+: path
  · obtain ⟨more, rfl⟩ := hpre
    rw [Node.at?_append, hp.at?_path, Option.bind_some] at hparent
    exact hnode hparent hchild
  · exact h hpre hparent hchild

/-- A new node whose own link stands in the relation leaves the links beside it as they were. -/
theorem beside_setAt
    (congr : ∀ {a b : Node} {key : Key} {s : Option Schema}, a.tag = b.tag → a.kind = b.kind →
      R a key s → R b key s)
    (h : d.Beside R p.path) (hp : d.Has p)
    (top : ∀ key parent above, p.above = (key, parent) :: above → R parent key m.schema?) :
    (d.setAt p m).Beside R p.path := by
  intro path key parent child hpre hparent hchild
  have hskin := skin_setAt hp m hpre
  rw [hparent, Option.map_some, eq_comm, Option.map_eq_some_iff] at hskin
  obtain ⟨parent', hparent', hskin⟩ := hskin
  refine congr (congrArg Node.Skin.tag hskin) (congrArg Node.Skin.kind hskin) ?_
  have hpath : (d.setAt p m).root.at? (path ++ [key]) = some child := by
    rw [Node.at?_concat, hparent]
    exact hchild
  by_cases hchildpre : p.path <+: path ++ [key]
  · -- The child is the new node itself, since its parent lies above it.
    obtain heq : p.path = path ++ [key] := (List.prefix_concat_iff.1 hchildpre).resolve_right hpre
    have hnew := at?_setAt_self hp m []
    rw [List.append_nil, heq, hpath] at hnew
    obtain rfl : child = m := Option.some.inj hnew
    obtain ⟨n, above⟩ := p
    cases above with
    | nil => simp at heq
    | cons step above =>
      obtain ⟨key', parent''⟩ := step
      rw [Place.path_mk_cons] at heq
      obtain ⟨rfl, hkey⟩ := List.append_inj' heq rfl
      obtain rfl : key' = key := List.singleton_inj.1 hkey
      obtain rfl := Option.some.inj (hp.above_cons.1.at?_path.symm.trans hparent')
      exact top key' parent'' above rfl
  · have hchildskin := skin_setAt hp m hchildpre
    rw [hpath, Option.map_some, eq_comm, Option.map_eq_some_iff] at hchildskin
    obtain ⟨child', hchild', hchildskin⟩ := hchildskin
    have htag : child'.tag = child.tag := congrArg Node.Skin.tag hchildskin
    rw [Node.at?_concat, hparent', Option.bind_some] at hchild'
    have := h hpre hparent' hchild'
    rwa [Node.schema?, htag] at this

/-- The link of a node stands in the relation that holds beside the node. -/
theorem Has.of_beside (hp : d.Has p) (h : d.Beside R p.path) {key : Key} {parent : Node}
    {above : List (Key × Node)} (habove : p.above = (key, parent) :: above) :
    R parent key p.node.schema? := by
  obtain ⟨n, above'⟩ := p
  obtain rfl : above' = (key, parent) :: above := habove
  obtain ⟨hparent, hget⟩ := hp.above_cons
  refine h (fun hpre => ?_) hparent.at?_path hget
  have := hpre.length_le
  rw [Place.path_mk_cons, List.length_append, List.length_singleton] at this
  dsimp only at this
  omega

/-- A new node in the relation, with the link of the one that it stands for, leaves everything in
the relation. -/
theorem throughout_setAt
    (congr : ∀ {a b : Node} {key : Key} {s : Option Schema}, a.tag = b.tag → a.kind = b.kind →
      R a key s → R b key s)
    (h : d.Beside R p.path) (hp : d.Has p) (hm : m.Throughout R)
    (top : ∀ key parent above, p.above = (key, parent) :: above → R parent key m.schema?) :
    (d.setAt p m).root.Throughout R := by
  obtain ⟨p', hp', hpath, rfl⟩ := hp.setAt_self m
  have hbeside := beside_setAt (R := R) congr h hp top
  rw [← hpath] at hbeside
  exact throughout_of_beside hp' hbeside hm

end Document

end FormSchema
