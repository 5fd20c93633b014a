import FormSchema.Document.Link
import FormSchema.Proofs.Document.Path

/-!
What linking does to a node.  It gives schemas to the node and to everything below it, and changes
nothing else; the schema of a child is found from the schema above it.
-/

namespace FormSchema.Linking

variable {l : Linking} {schema : Option Schema} {above : List (Key × Node)} {n : Node}

theorem ofItems_linkItems (l : Linking) (schema : Option Schema) (parent : Node)
    (above : List (Key × Node)) (start : Nat) (items : List Node) :
    Key.ofItems start (linkItems l schema parent above start items) =
      (Key.ofItems start items).map fun part =>
        (part.1, link l (l.below? schema parent ⟨part.2, (part.1, parent) :: above⟩)
          ((part.1, parent) :: above) part.2) := by
  induction items generalizing start with
  | nil => rfl
  | cons item items ih =>
    rw [linkItems, Key.ofItems_cons, Key.ofItems_cons, List.map_cons, ih]

theorem ofFields_linkFields (l : Linking) (schema : Option Schema) (parent : Node)
    (above : List (Key × Node)) (fields : List (String × Node)) :
    Key.ofFields (linkFields l schema parent above fields) =
      (Key.ofFields fields).map fun part =>
        (part.1, link l (l.below? schema parent ⟨part.2, (part.1, parent) :: above⟩)
          ((part.1, parent) :: above) part.2) := by
  induction fields with
  | nil => rfl
  | cons field fields ih =>
    obtain ⟨key, item⟩ := field
    simp only [Key.ofFields, linkFields, List.map_cons] at ih ⊢
    rw [ih]

/-- The children of a linked node are linked by what the node's schema has for them. -/
theorem children_link (l : Linking) (schema : Option Schema) (above : List (Key × Node))
    (n : Node) :
    (link l schema above n).children =
      n.children.map fun part =>
        (part.1, link l (l.below? schema n ⟨part.2, (part.1, n) :: above⟩)
          ((part.1, n) :: above) part.2) := by
  cases n with
  | leaf tag v => rfl
  | list tag items =>
    rw [link, Node.children_list, Node.children_list, ofItems_linkItems]
  | record tag fields =>
    rw [link, Node.children_record, Node.children_record, ofFields_linkFields]

@[simp] theorem tag_link : (link l schema above n).tag = { n.tag with schema } := by
  cases n <;> rfl

@[simp] theorem id_link : (link l schema above n).id = n.id := by
  rw [Node.id, tag_link]
  rfl

@[simp] theorem schema?_link : (link l schema above n).schema? = schema := by
  rw [Node.schema?, tag_link]

@[simp] theorem keys_link :
    (link l schema above n).children.map (·.1) = n.children.map (·.1) := by
  rw [children_link, List.map_map]
  rfl

theorem get?_link (l : Linking) (schema : Option Schema) (p : Place) (key : Key) :
    (link l schema p.above p.node).get? key =
      (p.node.get? key).map fun child =>
        link l (l.below? schema p.node (p.down (key, child))) ((key, p.node) :: p.above) child := by
  rw [Node.get?, children_link]
  exact Key.lookup_map_snd (fun key child =>
    link l (l.below? schema p.node (p.down (key, child))) ((key, p.node) :: p.above) child)
    p.node.children key

@[simp] theorem value_link : (link l schema above n).value = n.value := by
  induction n using Node.induct generalizing schema above with
  | step n ih =>
    have parts : (link l schema above n).value.children = n.value.children := by
      rw [Node.children_value, Node.children_value, children_link, List.map_map]
      exact List.map_congr_left fun part hpart => by simp only [Function.comp, ih part hpart]
    cases n with
    | leaf tag v => rfl
    | list tag items =>
      rw [link] at parts ⊢
      simp only [Node.value, Json.children] at parts ⊢
      have := congrArg (List.map (·.2)) parts
      rw [Key.map_snd_ofItems, Key.map_snd_ofItems] at this
      rw [this]
    | record tag fields =>
      rw [link] at parts ⊢
      simp only [Node.value, Json.children] at parts ⊢
      rw [List.map_injective_iff.2 (fun a b h => by simpa [Prod.ext_iff] using h) parts]

@[simp] theorem kind_link : (link l schema above n).kind = n.kind := by
  rw [Node.kind_eq, value_link, ← Node.kind_eq]

/-- The nodes of a linked subtree are the linked nodes of the subtree. -/
theorem exists_of_at?_link {p : Place} {more : List Key} {x : Node}
    (h : (link l schema p.above p.node).at? more = some x) :
    ∃ q schema', p.Covers q ∧ q.path = p.path ++ more ∧ x = link l schema' q.above q.node := by
  induction more generalizing p schema with
  | nil => exact ⟨p, schema, .refl, by simp, (Option.some.inj h).symm⟩
  | cons key more ih =>
    rw [Node.at?_cons, get?_link, Option.bind_eq_some_iff] at h
    obtain ⟨child, hchild, h⟩ := h
    obtain ⟨m, hm, rfl⟩ := Option.map_eq_some_iff.1 hchild
    obtain ⟨q, schema', hq, hpath, hx⟩ := ih (p := p.down (key, m)) h
    exact ⟨q, schema', (Place.Covers.step hm).trans hq, by simpa using hpath, hx⟩

end FormSchema.Linking
