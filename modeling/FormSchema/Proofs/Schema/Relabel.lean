import FormSchema.Schema.Normal
import FormSchema.Proofs.Schema.Path

/-!
Relabelled trees.  To relabel a tree twice is to relabel it once, and what is folded from a relabelled
tree can be folded from the tree itself.
-/

namespace FormSchema.Tree

variable {α β γ : Type}

theorem ext {t u : Tree α} (label : t.label = u.label) (children : t.children = u.children) :
    t = u := by
  cases t
  cases u
  obtain rfl : _ = _ := label
  obtain rfl : _ = _ := children
  rfl

/-- The trees around a place of a relabelled tree. -/
def extendAbove (f : Place α → β) : List (Tree α) → List (Tree β)
  | [] => []
  | t :: above => extendAt f above t :: extendAbove f above

/-- A place of a tree as a place of the relabelled tree. -/
def Place.extend (f : Place α → β) (p : Place α) : Place β :=
  ⟨extendAt f p.above p.tree, extendAbove f p.above⟩

theorem extend_extend (f : Place α → β) (g : Place β → γ) (t : Tree α) :
    (t.extend f).extend g = t.extend fun p => g (p.extend f) := by
  have main (t : Tree α) (above : List (Tree α)) :
      extendAt g (extendAbove f above) (extendAt f above t) =
        extendAt (fun p => g (p.extend f)) above t := by
    induction t using induct generalizing above with
    | step t ih =>
      refine ext (by rw [label_extendAt, label_extendAt]; rfl) ?_
      rw [children_extendAt, children_extendAt, children_extendAt, List.map_map]
      exact List.map_congr_left fun part hpart =>
        congrArg (part.1, ·) (ih part hpart (t :: above))
  exact main t []

/-- The places of a relabelled tree are those of the tree. -/
theorem places_extend (f : Place α → β) (t : Tree α) :
    (t.extend f).places = t.places.map (Place.extend f) := by
  rw [places, extend_extend]
  exact labels_extend _ t

theorem properties_of_children {t : Tree α} {u : Tree β} {g : Tree α → Tree β}
    (h : u.children = t.children.map fun part => (part.1, g part.2)) :
    u.properties = t.properties.map fun property => (property.1, g property.2) := by
  rw [properties, properties, h, List.filterMap_map, List.map_filterMap]
  refine List.filterMap_congr fun part _ => ?_
  obtain ⟨slot, child⟩ := part
  cases slot <;> rfl

theorem properties_extendAt (f : Place α → β) (above : List (Tree α)) (t : Tree α) :
    (extendAt f above t).properties =
      t.properties.map fun property => (property.1, extendAt f (t :: above) property.2) :=
  properties_of_children (children_extendAt f above t)

namespace Place

theorem label_extend (f : Place α → β) (p : Place α) : (p.extend f).label = f p :=
  label_extendAt f p.above p.tree

theorem at?_extend (f : Place α → β) (p : Place α) (slot : Slot) :
    (p.extend f).tree.at? slot = (p.tree.at? slot).map (extendAt f (p.tree :: p.above)) :=
  at?_extendAt f p.above p.tree slot

theorem parent?_extend (f : Place α → β) (p : Place α) :
    (p.extend f).parent? = p.parent?.map (extend f) := by
  obtain ⟨tree, above⟩ := p
  cases above <;> rfl

end Place

theorem extendAt_label (g : α → β) (above above' : List (Tree α)) (t : Tree α) :
    extendAt (fun p => g p.label) above t = extendAt (fun p => g p.label) above' t := by
  induction t using induct generalizing above above' with
  | step t ih =>
    refine ext (by rw [label_extendAt, label_extendAt]; rfl) ?_
    rw [children_extendAt, children_extendAt]
    exact List.map_congr_left fun part hpart => by rw [ih part hpart]

@[simp] theorem label_map (g : α → β) (t : Tree α) : (t.map g).label = g t.label :=
  label_extendAt _ [] t

theorem children_map (g : α → β) (t : Tree α) :
    (t.map g).children = t.children.map fun part => (part.1, part.2.map g) := by
  rw [map, extend, children_extendAt]
  exact List.map_congr_left fun part _ => by rw [extendAt_label g [t] []]; rfl

theorem at?_map (g : α → β) (t : Tree α) (slot : Slot) :
    (t.map g).at? slot = (t.at? slot).map (map g) := by
  rw [at?, children_map]
  exact Key.lookup_map_snd (fun _ => map g) t.children slot

theorem labels_map (g : α → β) (t : Tree α) : (t.map g).labels = t.labels.map g := by
  induction t using induct with
  | step t ih =>
    rw [labels_eq, labels_eq t, label_map, children_map, List.map_cons, List.flatMap_map,
      List.map_flatMap, List.flatMap_def, List.flatMap_def]
    exact congrArg (_ :: ·) (congrArg List.flatten (List.map_congr_left fun part hpart => ih part hpart))

theorem map_congr {f g : α → β} {t : Tree α} (h : ∀ a ∈ t.labels, f a = g a) : t.map f = t.map g := by
  induction t using induct with
  | step t ih =>
    rw [labels_eq, List.forall_mem_cons] at h
    refine ext (by rw [label_map, label_map, h.1]) ?_
    rw [children_map, children_map]
    exact List.map_congr_left fun part hpart => congrArg (part.1, ·) (ih part hpart fun a ha =>
      h.2 a (List.mem_flatMap.2 ⟨part, hpart, ha⟩))

theorem labels_eq_places (t : Tree α) : t.labels = t.places.map Place.label := by
  rw [← labels_extend, show (t.extend Place.label).labels = (t.map id).labels from rfl, labels_map,
    List.map_id]

theorem map_extend (f : Place α → β) (g : β → γ) (t : Tree α) :
    (t.extend f).map g = t.extend fun p => g (f p) := by
  rw [Tree.map, extend_extend]
  simp only [Place.label_extend]

theorem map_map (f : α → β) (g : β → γ) (t : Tree α) :
    (t.map f).map g = t.map fun a => g (f a) := map_extend _ g t

theorem child?_map (g : α → β) (t : Tree α) (token : String) :
    (t.map g).child? token = (t.child? token).map (map g) := by
  rw [child?, child?, at?_map, at?_map]
  cases t.at? (.property token) with
  | some child => rfl
  | none =>
    cases t.at? .item with
    | some item =>
      dsimp only [Option.map_none, Option.map_some]
      split <;> rfl
    | none =>
      cases variantIndex? token with
      | none => rfl
      | some i => exact at?_map g t (.variant i)

theorem properties_map (g : α → β) (t : Tree α) :
    (t.map g).properties = t.properties.map fun property => (property.1, property.2.map g) :=
  properties_of_children (children_map g t)

/-- A place of a tree as a place of the relabelled tree. -/
def Place.map (g : α → β) (p : Place α) : Place β := ⟨p.tree.map g, p.above.map (Tree.map g)⟩

theorem Place.extend_label (g : α → β) (p : Place α) :
    p.extend (fun q => g q.label) = p.map g := by
  have main (above : List (Tree α)) :
      extendAbove (fun q => g q.label) above = above.map (Tree.map g) := by
    induction above with
    | nil => rfl
    | cons t above ih =>
      rw [extendAbove, ih, extendAt_label g above [] t]
      rfl
  rw [Place.extend, main, extendAt_label g p.above [] p.tree]
  rfl

theorem extend_map (f : Place β → γ) (g : α → β) (t : Tree α) :
    (t.map g).extend f = t.extend fun p => f (p.map g) := by
  rw [Tree.map, extend_extend]
  simp only [Place.extend_label]

namespace Place

theorem label_map (g : α → β) (p : Place α) : (p.map g).label = g p.label := Tree.label_map g p.tree

theorem ancestors_map (g : α → β) (p : Place α) :
    (p.map g).ancestors = p.ancestors.map (map g) := by
  have main (above : List (Tree α)) :
      ofAbove (above.map (Tree.map g)) = (ofAbove above).map (map g) := by
    induction above with
    | nil => rfl
    | cons t above ih => exact congrArg (_ :: ·) ih
  exact main p.above

theorem parent?_map (g : α → β) (p : Place α) : (p.map g).parent? = p.parent?.map (map g) := by
  rw [parent?, parent?, ancestors_map, List.head?_map]

theorem container_map (g : α → β) (p : Place α) : (p.map g).container = p.container.map g := by
  rw [container, container, parent?_map]
  cases p.parent? <;> rfl

end Place

/-- Pointers lead to the same places of a relabelled tree. -/
theorem projection_map (g : α → β) (t : Tree α) :
    Pointer.Projection t.navigation (t.map g).navigation (fun _ => True) (Place.map g) where
  root_valid := trivial
  root := rfl
  ancestors_valid _ _ _ _ := trivial
  ancestors p _ := (Place.ancestors_map g p).symm
  child_valid _ _ _ _ _ := trivial
  child p token _ := by
    change (Option.map _ ((p.tree.child? token).map _) : Option (Place β)) =
      ((p.tree.map g).child? token).map _
    rw [child?_map, Option.map_map, Option.map_map]
    rfl

theorem fold_eq (f : α → List (Slot × β) → β) (t : Tree α) :
    t.fold f = f t.label (t.children.map fun part => (part.1, part.2.fold f)) := by
  have (parts : List (Slot × Tree α)) :
      foldChildren f parts = parts.map fun part => (part.1, part.2.fold f) := by
    induction parts with
    | nil => rfl
    | cons part parts ih => rw [foldChildren, ih, List.map_cons]
  cases t
  exact congrArg (f _) (this _)

theorem fold_map (f : β → List (Slot × γ) → γ) (g : α → β) (t : Tree α) :
    (t.map g).fold f = t.fold fun a => f (g a) := by
  induction t using induct with
  | step t ih =>
    rw [fold_eq, fold_eq, label_map, children_map, List.map_map]
    exact congrArg (f _) (List.map_congr_left fun part hpart =>
      congrArg (part.1, ·) (ih part hpart))

end FormSchema.Tree
