import FormSchema.Proofs.Document.Levels
import FormSchema.Proofs.Store.Relinking

/-!
Who depends on a node of a store.  A store that shows a document never asks for a schema that is not
there, and finds the nodes that the document finds, in the same order.
-/

namespace FormSchema

open Document (Has)

variable {c : Compiled} {s : Store} {d : Document} {p : Place}

theorem mapM_map_eq_some {α β γ : Type} {f : β → Option γ} {g : α → β} {h : α → γ} {l : List α}
    (hl : ∀ x ∈ l, f (g x) = some (h x)) : (l.map g).mapM f = some (l.map h) := by
  induction l with
  | nil => rfl
  | cons x l ih =>
    rw [List.map_cons, List.mapM_cons, hl x List.mem_cons_self,
      ih fun y hy => hl y (List.mem_cons_of_mem _ hy)]
    rfl

theorem filterMapM_map_eq_some {α β : Type} {f : β → Option (Option β)} {g : α → β} {q : α → Bool}
    {l : List α} (hl : ∀ x ∈ l, f (g x) = some (if q x then some (g x) else none)) :
    (l.map g).filterMapM f = some ((l.filter q).map g) := by
  induction l with
  | nil => rfl
  | cons x l ih =>
    rw [List.map_cons, List.filterMapM_cons, hl x List.mem_cons_self,
      ih fun y hy => hl y (List.mem_cons_of_mem _ hy)]
    cases hq : q x <;> simp [hq]

namespace Place

theorem map_id_children (p : Place) : p.children.map id = p.node.parts.map Node.id := by
  rw [children, List.map_map, ← Node.map_snd_children, List.map_map]
  rfl

theorem length_ids (p : Place) :
    p.node.ids.length = (p.children.map fun q => q.node.ids.length).sum + 1 := by
  rw [Node.length_ids_eq, children, List.map_map]
  rfl

end Place

theorem Document.Sound.children (h : d.Sound) (hp : d.Has p) {q : Place} (hq : q ∈ p.children) :
    d.Has q := by
  obtain ⟨part, hpart, rfl⟩ := List.mem_map.1 hq
  exact hp.trans (.step (Key.lookup_eq_some_of_mem (h.distinct.keys hp.at?_path) hpart))

namespace Store

variable {token : String} {id : Nat}

theorem fan_of_star {rest : List Char} (h : token.toList = '*' :: rest) :
    s.fan c token id = match s.content? id with
      | some (.array items) =>
        if rest.isEmpty then some items
        else items.filterMapM fun item =>
          (s.schemaName? c item).map fun name => if name = some token then some item else none
      | _ => some [] := by
  rw [fan]
  split
  · rename_i rest' hstar
    obtain rfl : rest' = rest := (List.cons.inj (hstar.symm.trans h)).2
    rfl
  · rename_i hplain
    exact absurd h (hplain rest)

theorem fan_of_plain (h : token.toList.head? ≠ some '*') :
    s.fan c token id = some (s.child? id token).toList := by
  rw [fan]
  split
  · rename_i htoken
    rw [htoken] at h
    exact absurd rfl h
  · rfl

end Store

namespace Store.Shows

/-- The schema with the number of a node's link is the one that the node is linked to. -/
theorem numbered?_eq (h : s.Shows c d) (hp : d.Has p) :
    s.links p.id = none ∧ p.node.schema? = none ∨
      ∃ x, s.links p.id = some x.number ∧ p.node.schema? = some x.schema ∧
        c.numbered? x.number = some x := by
  have hnames := h.names hp
  generalize s.links p.id = number, p.node.schema? = schema at hnames
  cases hnames with
  | unlinked => exact .inl ⟨rfl, rfl⟩
  | @linked x hx => exact .inr ⟨x, rfl, rfl, hx⟩

theorem evaluate_eq (h : s.Shows c d) (hp : d.Has p) (keyword : Keyword) :
    s.evaluate c p.id keyword = some (d.evaluate c.userData p keyword) := by
  rw [evaluate, Document.evaluate]
  rcases h.numbered?_eq hp with ⟨hlink, hschema⟩ | ⟨x, hlink, hschema, hfound⟩
  · rw [hlink, hschema]
  · rw [hlink, hschema]
    dsimp only
    rw [hfound, Option.map_some, h.evaluateAs_eq hp]
    rfl

theorem schemaName?_eq (h : s.Shows c d) (hp : d.Has p) :
    s.schemaName? c p.id = some p.schemaName? := by
  rw [schemaName?, Place.schemaName?]
  rcases h.numbered?_eq hp with ⟨hlink, hschema⟩ | ⟨x, hlink, hschema, hfound⟩
  · rw [hlink, hschema]
    rfl
  · rw [hlink, hschema]
    dsimp only
    rw [hfound]
    rfl

theorem fan_eq (h : s.Shows c d) (hp : d.Has p) (token : String) :
    s.fan c token p.id = some ((p.fan token).map Place.id) := by
  by_cases hplain : token.toList.head? = some '*'
  · obtain ⟨rest, hstar⟩ := List.head?_eq_some_iff.1 hplain
    have hids := p.map_id_children
    have hnames {q : Place} (hq : q ∈ p.children) : s.schemaName? c q.id = some q.schemaName? :=
      h.schemaName?_eq (h.sound.children hp hq)
    rw [fan_of_star hstar, Place.fan_of_star hstar, h.content?_eq hp]
    generalize p.children = children at hids hnames
    cases hnode : p.node with
    | list tag items =>
      rw [hnode] at hids
      simp only [Node.content]
      rw [show items.map Node.id = children.map Place.id from hids.symm]
      by_cases hrest : rest.isEmpty = true
      · simp [hrest]
      · rw [if_neg hrest, filterMapM_map_eq_some fun q hq => ?_]
        rw [hnames hq, Option.map_some]
        simp [hrest]
    | leaf tag v => rfl
    | record tag fields => rfl
  · rw [fan_of_plain hplain, Place.fan_of_plain hplain, h.child?_eq hp]
    cases p.child? token <;> rfl

/-- The steps of a schema pointer lead to the nodes that they lead to in the document. -/
theorem fanOut_eq (h : s.Shows c d) {places : List Place} (hplaces : ∀ q ∈ places, d.Has q)
    (tokens : List String) :
    s.fanOut c (places.map Place.id) tokens = some ((Place.fanOut places tokens).map Place.id) := by
  induction tokens generalizing places with
  | nil => rfl
  | cons token tokens ih =>
    rw [fanOut, mapM_map_eq_some fun q hq => h.fan_eq (hplaces q hq) token]
    simp only [Option.bind_eq_bind, Option.bind_some]
    rw [← List.flatMap_def, ← List.map_flatMap, ih fun q hq => ?_]
    · rfl
    · obtain ⟨r, hr, hq⟩ := List.mem_flatMap.1 hq
      obtain ⟨key, child, hget, rfl⟩ := Place.exists_of_mem_fan hq
      exact (hplaces r hr).trans (.step hget)

theorem follow_eq (h : s.Shows c d) {places : List Place} (hplaces : ∀ q ∈ places, d.Has q)
    (schema data observer : List String) :
    s.follow c (places.map Place.id) schema data observer =
      some ((Place.follow places schema data observer).map Place.id) := by
  induction schema generalizing places data observer with
  | nil =>
    rw [follow, Place.follow]
    · exact h.fanOut_eq hplaces observer
    · simp
    · simp
  | cons t schema ih =>
    cases data with
    | nil =>
      rw [follow, Place.follow]
      · exact h.fanOut_eq hplaces observer
      · simp
      · simp
    | cons token data =>
      cases observer with
      | nil =>
        rw [follow, Place.follow]
        · exact h.fanOut_eq hplaces []
        · simp
        · simp
      | cons o observer =>
        have hstep : (places.map Place.id).filterMap (fun id => s.child? id token) =
            (places.filterMap fun place => place.child? token).map Place.id := by
          rw [List.filterMap_map, List.map_filterMap]
          exact List.filterMap_congr fun q hq => h.child?_eq (hplaces q hq) token
        rw [follow, Place.follow]
        split
        · rw [hstep]
          refine ih (fun q hq => ?_) data observer
          obtain ⟨r, hr, hq⟩ := List.mem_filterMap.1 hq
          exact d.projection.child_valid r token q (hplaces r hr) hq
        · exact h.fanOut_eq hplaces _

/-- The dependents of a node are those that it has in the document. -/
theorem dependents_eq (h : s.Shows c d) (hp : d.Has p) :
    s.dependents c p.id = some (d.dependents p) := by
  rw [dependents, Document.dependents]
  rcases h.numbered?_eq hp with ⟨hlink, hschema⟩ | ⟨x, hlink, hschema, hfound⟩
  · rw [hlink, hschema]
  · have hroot : d.rootPlace.id = 0 := h.root
    have hplaces : ∀ q ∈ [d.rootPlace], d.Has q := by simp [Has.root]
    have hobservers := mapM_map_eq_some (g := fun o => o) (l := x.label.observers) fun o _ =>
      h.follow_eq hplaces x.label.tokens p.tokens o
    rw [List.map_id', List.map_singleton, hroot] at hobservers
    rw [hlink, hschema]
    simp only [Option.bind_eq_bind]
    rw [hfound, Option.bind_some, h.tokens_eq hp, hobservers, Option.bind_some, List.flatMap_def]
    rfl

end Store.Shows

/-! ## Subtrees -/

namespace Store

/-- What is walked through from a queue of nodes: the first ones as they stand, and then, level by
level, the others and what is below them all. -/
theorem Holds.subtreeWithin_eq (h : s.Holds d) (fuel : Nat) (first others : List Place)
    (hfirst : ∀ q ∈ first ++ others, d.Has q)
    (hfuel : ((first ++ others).map fun q => q.node.ids.length).sum ≤ fuel) :
    s.subtreeWithin fuel ((first ++ others).map Place.id) =
      (first ++ (Place.jointLevels (others ++ first.flatMap Place.children)).flatten).map
        Place.id := by
  induction fuel generalizing first others with
  | zero =>
    have hnil : first ++ others = [] := by
      cases hqueue : first ++ others with
      | nil => rfl
      | cons q queue =>
        have := q.node.length_ids_pos
        rw [hqueue, List.map_cons, List.sum_cons] at hfuel
        omega
    obtain ⟨rfl, rfl⟩ := List.append_eq_nil_iff.1 hnil
    rfl
  | succ fuel ih =>
    have step (q : Place) (first others : List Place) (hqueue : ∀ r ∈ q :: first ++ others, d.Has r)
        (hfuel : ((q :: first ++ others).map fun q => q.node.ids.length).sum ≤ fuel + 1) :
        s.subtreeWithin (fuel + 1) ((q :: first ++ others).map Place.id) =
          (q :: first ++ (Place.jointLevels
            (others ++ (q :: first).flatMap Place.children)).flatten).map Place.id := by
      have hq : d.Has q := hqueue q List.mem_cons_self
      have hrest := ih first (others ++ q.children) (fun r hr => ?_) ?_
      · rw [List.cons_append, List.map_cons, subtreeWithin, h.children_eq hq, ← q.map_id_children,
          ← List.map_append, List.append_assoc, hrest, List.flatMap_cons, List.append_assoc]
        rfl
      · rw [← List.append_assoc] at hr
        rcases List.mem_append.1 hr with hr | hr
        · exact hqueue r (List.mem_cons_of_mem _ hr)
        · exact h.sound.children hq hr
      · simp only [List.cons_append, List.map_cons, List.sum_cons, List.map_append, List.sum_append]
          at hfuel ⊢
        have := q.length_ids
        omega
    cases first with
    | cons q first => exact step q first others hfirst hfuel
    | nil =>
      cases others with
      | nil => rfl
      | cons q others =>
        have hwalk := step q others [] (by simpa using hfirst) (by simpa using hfuel)
        rw [List.append_nil] at hwalk
        rw [List.nil_append, hwalk, List.flatMap_nil, List.append_nil,
          Place.jointLevels_eq (List.cons_ne_nil q others)]
        rfl

theorem Holds.subtree_eq (h : s.Holds d) (hp : d.Has p) :
    s.subtree p.id = p.breadthFirst.map Place.id := by
  have hwalk := h.subtreeWithin_eq s.slots.length [p] [] (by simpa using hp)
    (by simpa using h.fuel hp)
  rw [subtree]
  refine hwalk.trans (congrArg (List.map Place.id) ?_)
  have hlevels := p.levels_eq
  rw [List.nil_append, List.flatMap_singleton]
  exact (congrArg List.flatten hlevels).symm

namespace Shows

theorem affected_eq (h : s.Shows c d) (hp : d.Has p) :
    s.affected c p.id = some (d.affected p.id) := by
  have hfind : d.find? p.id = some p := h.sound.find?_eq_some_iff.2 ⟨hp, rfl⟩
  have hall (q : Place) (hq : q ∈ p.breadthFirst) :
      s.dependents c q.id = some (d.dependents q) := by
    have hmem := Place.mem_subtree_trans (h.sound.mem_places_iff.2 hp) (Place.mem_breadthFirst.1 hq)
    exact h.dependents_eq (h.sound.mem_places_iff.1 hmem)
  rw [affected, h.subtree_eq hp, mapM_map_eq_some hall, Document.affected, hfind]
  rfl

theorem newItem_eq (h : s.Shows c d) (hp : d.Has p) :
    s.newItem c p.id = some (d.newItem p.id) := by
  have hfind : d.find? p.id = some p := h.sound.find?_eq_some_iff.2 ⟨hp, rfl⟩
  rw [newItem, Document.newItem, hfind]
  rcases h.numbered?_eq hp with ⟨hlink, hschema⟩ | ⟨x, hlink, hschema, hfound⟩
  · rw [hlink]
    simp only [Option.bind_eq_bind, Option.bind_some, hschema]
    rfl
  · rw [hlink]
    simp only [Option.bind_eq_bind, Option.bind_some, hschema, hfound, Option.map_some]
    by_cases hmixed : x.label.mixed = true
    · have hmixed' : x.schema.label.mixed = true := hmixed
      rw [if_pos hmixed, if_pos hmixed', ← x.map_schema_variants, List.head?_map, Option.map_map]
      rfl
    · have hmixed' : ¬ x.schema.label.mixed = true := hmixed
      rw [if_neg hmixed, if_neg hmixed', ← x.map_schema_at?, Option.map_map]
      rfl

end Shows

end Store

end FormSchema
