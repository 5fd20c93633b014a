import FormSchema.Schema.Tree
import FormSchema.Proofs.Json.Path
import FormSchema.Proofs.Pointer.Path
import Mathlib.Data.List.Induction

/-!
Paths in a tree of schemas: the slots on the way to a subtree.  To relabel a tree by its places
keeps its paths, so that the label at the end of a path can be found from what stood there before.
-/

namespace FormSchema.Tree

variable {α β : Type}

/-- What holds of a tree as soon as it holds of its children holds of all trees. -/
theorem induct {P : Tree α → Prop} (step : ∀ t, (∀ part ∈ t.children, P part.2) → P t)
    (t : Tree α) : P t :=
  step t fun part _ => induct step part.2
termination_by sizeOf t
decreasing_by
  rename_i h
  cases t with
  | node label parts =>
    have := List.sizeOf_lt_of_mem h
    obtain ⟨slot, child⟩ := part
    simp only [children, node.sizeOf_spec, Prod.mk.sizeOf_spec] at this ⊢
    omega

/-- The slots of the children. -/
def slots (t : Tree α) : List Slot := t.children.map (·.1)

/-- The subtree at the end of a path. -/
def sub? (t : Tree α) (path : List Slot) : Option (Tree α) := path.foldlM at? t

@[simp] theorem sub?_nil (t : Tree α) : t.sub? [] = some t := rfl

@[simp] theorem sub?_cons (t : Tree α) (slot : Slot) (path : List Slot) :
    t.sub? (slot :: path) = (t.at? slot).bind fun child => child.sub? path := rfl

theorem sub?_append (t : Tree α) (path more : List Slot) :
    t.sub? (path ++ more) = (t.sub? path).bind fun u => u.sub? more := by
  simp [sub?, List.foldlM_append]

theorem sub?_concat (t : Tree α) (path : List Slot) (slot : Slot) :
    t.sub? (path ++ [slot]) = (t.sub? path).bind fun u => u.at? slot := by
  simp [sub?_append]

theorem extendChildren_eq (f : Place α → β) (above : List (Tree α))
    (parts : List (Slot × Tree α)) :
    extendChildren f above parts = parts.map fun part => (part.1, extendAt f above part.2) := by
  induction parts with
  | nil => rfl
  | cons part parts ih => rw [extendChildren, ih, List.map_cons]

@[simp] theorem label_extendAt (f : Place α → β) (above : List (Tree α)) (t : Tree α) :
    (extendAt f above t).label = f ⟨t, above⟩ := by
  cases t
  rfl

theorem children_extendAt (f : Place α → β) (above : List (Tree α)) (t : Tree α) :
    (extendAt f above t).children =
      t.children.map fun part => (part.1, extendAt f (t :: above) part.2) := by
  cases t
  exact extendChildren_eq f _ _

@[simp] theorem slots_extendAt (f : Place α → β) (above : List (Tree α)) (t : Tree α) :
    (extendAt f above t).slots = t.slots := by
  rw [slots, slots, children_extendAt, List.map_map]
  rfl

theorem at?_extendAt (f : Place α → β) (above : List (Tree α)) (t : Tree α) (slot : Slot) :
    (extendAt f above t).at? slot = (t.at? slot).map (extendAt f (t :: above)) := by
  rw [at?, children_extendAt]
  exact Key.lookup_map_snd (fun _ => extendAt f (t :: above)) t.children slot

namespace Place

/-- The place of the child in a slot. -/
def step? (p : Place α) (slot : Slot) : Option (Place α) :=
  (p.tree.at? slot).map fun child => ⟨child, p.tree :: p.above⟩

end Place

/-- The place at the end of a path. -/
def place? (t : Tree α) (path : List Slot) : Option (Place α) := path.foldlM Place.step? t.root

theorem place?_nil (t : Tree α) : t.place? [] = some t.root := rfl

theorem place?_concat (t : Tree α) (path : List Slot) (slot : Slot) :
    t.place? (path ++ [slot]) = (t.place? path).bind fun p => p.step? slot := by
  simp [place?, List.foldlM_append]

theorem sub?_eq (t : Tree α) (path : List Slot) : t.sub? path = (t.place? path).map Place.tree := by
  induction path using List.reverseRecOn with
  | nil => rfl
  | append_singleton path slot ih =>
    rw [sub?_concat, place?_concat, ih]
    cases t.place? path with
    | none => rfl
    | some p =>
      rw [Option.map_some, Option.bind_some, Option.bind_some, Place.step?, Option.map_map]
      cases p.tree.at? slot <;> rfl

theorem exists_place_of_sub? {t u : Tree α} {path : List Slot} (h : t.sub? path = some u) :
    ∃ p, t.place? path = some p ∧ p.tree = u := by
  rw [sub?_eq] at h
  exact Option.map_eq_some_iff.1 h

/-- Relabelling commutes with the way down. -/
theorem sub?_extend (f : Place α → β) (t : Tree α) (path : List Slot) :
    (t.extend f).sub? path = (t.place? path).map fun p => extendAt f p.above p.tree := by
  induction path using List.reverseRecOn with
  | nil => rfl
  | append_singleton path slot ih =>
    rw [sub?_concat, place?_concat, ih]
    cases t.place? path with
    | none => rfl
    | some p =>
      rw [Option.map_some, Option.bind_some, Option.bind_some, at?_extendAt, Place.step?,
        Option.map_map]
      rfl

theorem exists_of_sub?_extend {f : Place α → β} {t : Tree α} {u : Tree β} {path : List Slot}
    (h : (t.extend f).sub? path = some u) :
    ∃ p, t.place? path = some p ∧ u = extendAt f p.above p.tree := by
  rw [sub?_extend] at h
  obtain ⟨p, hp, rfl⟩ := Option.map_eq_some_iff.1 h
  exact ⟨p, hp, rfl⟩

theorem isSome_at?_iff {t : Tree α} {slot : Slot} : (t.at? slot).isSome = true ↔ slot ∈ t.slots := by
  rw [at?, List.lookup_isSome_iff, slots, List.mem_map]
  constructor
  · rintro ⟨part, hpart, hslot⟩
    exact ⟨part, hpart, (beq_iff_eq.1 hslot).symm⟩
  · rintro ⟨part, hpart, rfl⟩
    exact ⟨part, hpart, beq_self_eq_true _⟩

theorem mem_slots_of_at? {t child : Tree α} {slot : Slot} (h : t.at? slot = some child) :
    slot ∈ t.slots := isSome_at?_iff.1 (by rw [h]; rfl)

theorem exists_mem_slots {t v : Tree α} {path more : List Slot} {slot : Slot}
    (h : t.sub? (path ++ slot :: more) = some v) : ∃ u, t.sub? path = some u ∧ slot ∈ u.slots := by
  rw [sub?_append, Option.bind_eq_some_iff] at h
  obtain ⟨u, hu, h⟩ := h
  obtain ⟨child, hchild, -⟩ := Option.bind_eq_some_iff.1 h
  exact ⟨u, hu, mem_slots_of_at? hchild⟩

/-- What stands at the end of a path of a relabelled tree. -/
theorem exists_of_sub?_map {f : α → β} {t : Tree α} {u : Tree β} {path : List Slot}
    (h : (t.map f).sub? path = some u) :
    ∃ v, t.sub? path = some v ∧ u.label = f v.label ∧ u.slots = v.slots := by
  obtain ⟨p, hp, rfl⟩ := exists_of_sub?_extend h
  exact ⟨p.tree, by rw [sub?_eq, hp]; rfl, label_extendAt .., slots_extendAt ..⟩

theorem labels_eq (t : Tree α) : t.labels = t.label :: t.children.flatMap fun part => part.2.labels := by
  have (parts : List (Slot × Tree α)) :
      childLabels parts = parts.flatMap fun part => part.2.labels := by
    induction parts with
    | nil => rfl
    | cons part parts ih => rw [childLabels, ih, List.flatMap_cons]
  cases t
  exact congrArg _ (this _)

theorem labels_extendAt (f : Place α → β) (above : List (Tree α)) (t : Tree α) :
    (extendAt f above t).labels = (extendAt id above t).labels.map f := by
  induction t using induct generalizing above with
  | step t ih =>
    rw [labels_eq, labels_eq (extendAt id above t), label_extendAt, label_extendAt,
      children_extendAt, children_extendAt, List.map_cons, List.flatMap_map, List.flatMap_map,
      List.map_flatMap, List.flatMap_def, List.flatMap_def]
    exact congrArg (_ :: ·) (congrArg List.flatten
      (List.map_congr_left fun part hpart => ih part hpart (t :: above)))

theorem labels_extend (f : Place α → β) (t : Tree α) : (t.extend f).labels = t.places.map f :=
  labels_extendAt f [] t

theorem mem_places_of_place? {t : Tree α} {p : Place α} {path : List Slot}
    (h : t.place? path = some p) : p ∈ t.places := by
  have main : ∀ (path : List Slot) (q : Place α), path.foldlM Place.step? q = some p →
      p ∈ (extendAt id q.above q.tree).labels := by
    intro path
    induction path with
    | nil =>
      intro q h
      obtain rfl := Option.some.inj h
      rw [labels_eq, label_extendAt]
      exact List.mem_cons_self
    | cons slot path ih =>
      intro q h
      obtain ⟨r, hr, h⟩ := Option.bind_eq_some_iff.1 h
      obtain ⟨child, hchild, rfl⟩ := Option.map_eq_some_iff.1 hr
      rw [labels_eq, children_extendAt, List.flatMap_map]
      exact List.mem_cons_of_mem _
        (List.mem_flatMap.2 ⟨_, Key.mem_of_lookup hchild, ih ⟨child, q.tree :: q.above⟩ h⟩)
  exact main path t.root h

/-- Whether each slot of a tree and of its subtrees stands once. -/
def SlotsDistinct (t : Tree α) : Prop :=
  ∀ path u, t.sub? path = some u → u.slots.Nodup

section SlotsDistinct

variable {t : Tree α} {part : Slot × Tree α}

theorem SlotsDistinct.at? (distinct : t.SlotsDistinct) (hpart : part ∈ t.children) :
    t.at? part.1 = some part.2 :=
  Key.lookup_eq_some_of_mem (distinct [] t rfl) hpart

theorem SlotsDistinct.sub? (distinct : t.SlotsDistinct) (hpart : part ∈ t.children)
    {path : List Slot} {u : Tree α} (hu : part.2.sub? path = some u) :
    t.sub? (part.1 :: path) = some u := by
  rw [sub?_cons, distinct.at? hpart]
  exact hu

theorem SlotsDistinct.child (distinct : t.SlotsDistinct) (hpart : part ∈ t.children) :
    part.2.SlotsDistinct :=
  fun _ u hu => distinct _ u (distinct.sub? hpart hu)

end SlotsDistinct

theorem exists_path_of_mem_places {t : Tree α} (distinct : t.SlotsDistinct) {p : Place α}
    (h : p ∈ t.places) : ∃ path, t.place? path = some p := by
  have main : ∀ (t : Tree α) (above : List (Tree α)), t.SlotsDistinct →
      p ∈ (extendAt id above t).labels →
        ∃ path : List Slot, path.foldlM Place.step? ⟨t, above⟩ = some p := by
    intro t
    induction t using induct with
    | step t ih =>
      intro above distinct h
      rw [labels_eq, label_extendAt, children_extendAt, List.flatMap_map] at h
      rcases List.mem_cons.1 h with rfl | h
      · exact ⟨[], rfl⟩
      · obtain ⟨part, hpart, h⟩ := List.mem_flatMap.1 h
        obtain ⟨path, hpath⟩ := ih part hpart (t :: above) (distinct.child hpart) h
        refine ⟨part.1 :: path, ?_⟩
        rw [List.foldlM_cons, Place.step?, distinct.at? hpart]
        exact hpath
  exact main t [] distinct h

/-- The slot that a token names. -/
def slot? (t : Tree α) (token : String) : Option Slot :=
  match t.at? (.property token), t.at? .item with
  | some _, _ => some (.property token)
  | none, some _ => if token = "*" ∨ (Number.index? token.toList).isSome then some .item else none
  | none, none => (variantIndex? token).bind fun i => (t.at? (.variant i)).map fun _ => .variant i

theorem child?_eq (t : Tree α) (token : String) :
    t.child? token = (t.slot? token).bind fun slot => t.at? slot := by
  rw [child?, slot?]
  cases hp : t.at? (.property token) with
  | some child => simp [hp]
  | none =>
    cases hi : t.at? .item with
    | some item =>
      by_cases h : token = "*" ∨ (Number.index? token.toList).isSome
      · simp [h, hi]
      · simp [h]
    | none =>
      cases variantIndex? token with
      | none => rfl
      | some i => cases hv : t.at? (.variant i) <;> simp [hv]

/-- Pointers lead from path to path. -/
def slotNavigation (t : Tree α) : Pointer.Navigation (List Slot) :=
  Pointer.pathNavigation fun path token => (t.sub? path).bind fun u => u.slot? token

theorem mem_slots_of_slot? {t : Tree α} {token : String} {slot : Slot}
    (h : t.slot? token = some slot) : slot ∈ t.slots := by
  rw [← isSome_at?_iff]
  rw [slot?] at h
  cases hp : t.at? (.property token) with
  | some child =>
    rw [hp] at h
    obtain rfl := Option.some.inj h
    rw [hp]
    rfl
  | none =>
    cases hi : t.at? .item with
    | some item =>
      simp only [hp, hi, Option.ite_none_right_eq_some, Option.some.injEq] at h
      rw [← h.2, hi]
      rfl
    | none =>
      simp only [hp, hi, Option.bind_eq_some_iff, Option.map_eq_some_iff] at h
      obtain ⟨i, -, child, hchild, rfl⟩ := h
      rw [hchild]
      rfl

theorem slot?_extendAt (f : Place α → β) (above : List (Tree α)) (t : Tree α) (token : String) :
    (extendAt f above t).slot? token = t.slot? token := by
  rw [slot?, slot?, at?_extendAt, at?_extendAt]
  cases t.at? (.property token) with
  | some child => rfl
  | none =>
    cases t.at? .item with
    | some item => rfl
    | none =>
      refine congrArg (Option.bind _) (funext fun i => ?_)
      rw [at?_extendAt, Option.map_map]
      rfl

theorem slotNavigation_extend (f : Place α → β) (t : Tree α) :
    (t.extend f).slotNavigation = t.slotNavigation := by
  refine congrArg Pointer.pathNavigation (funext fun path => funext fun token => ?_)
  rw [sub?_extend, sub?_eq]
  cases t.place? path with
  | none => rfl
  | some p => exact slot?_extendAt f p.above p.tree token

theorem forall₂_ancestors {t : Tree α} {path : List Slot} {p : Place α}
    (h : t.place? path = some p) :
    List.Forall₂ (fun q path => t.place? path = some q) p.ancestors (Pointer.above path) := by
  induction path using List.reverseRecOn generalizing p with
  | nil =>
    obtain rfl := Option.some.inj h
    exact .nil
  | append_singleton path slot ih =>
    rw [place?_concat, Option.bind_eq_some_iff] at h
    obtain ⟨q, hq, h⟩ := h
    obtain ⟨child, hchild, rfl⟩ := Option.map_eq_some_iff.1 h
    rw [Pointer.above_concat]
    exact .cons hq (ih hq)

section Labelled

variable (pathOf : α → List Slot)

/-- Whether labels know the paths to them. -/
def Labelled (t : Tree α) : Prop := ∀ path u, t.sub? path = some u → pathOf u.label = path

/-- Whether a place is one of a tree whose labels know the paths to them. -/
def HasAt (t : Tree α) (p : Place α) : Prop := t.place? (pathOf p.label) = some p

variable {pathOf}

theorem Labelled.path_eq {t : Tree α} (h : t.Labelled pathOf) {path : List Slot} {p : Place α}
    (hp : t.place? path = some p) : pathOf p.label = path :=
  h path p.tree (by rw [sub?_eq, hp]; rfl)

theorem Labelled.hasAt {t : Tree α} (h : t.Labelled pathOf) {path : List Slot} {p : Place α}
    (hp : t.place? path = some p) : t.HasAt pathOf p := by
  rw [HasAt, h.path_eq hp]
  exact hp

theorem HasAt.sub? {t : Tree α} {p : Place α} (h : t.HasAt pathOf p) :
    t.sub? (pathOf p.label) = some p.tree := by
  rw [sub?_eq, h]
  rfl

/-- Places are to a tree what their paths are to its slots. -/
theorem Labelled.projection {t : Tree α} (h : t.Labelled pathOf) :
    Pointer.Projection t.navigation t.slotNavigation (t.HasAt pathOf) fun p => pathOf p.label where
  root_valid := h.hasAt t.place?_nil
  root := h.path_eq t.place?_nil
  ancestors_valid p hp := by
    have main : ∀ {ps : List (Place α)} {paths : List (List Slot)},
        List.Forall₂ (fun q path => t.place? path = some q) ps paths →
          ∀ q ∈ ps, t.HasAt pathOf q := by
      intro ps paths hall
      induction hall with
      | nil => simp
      | cons hq _ ih => exact List.forall_mem_cons.2 ⟨h.hasAt hq, ih⟩
    exact main (forall₂_ancestors hp)
  ancestors p hp := by
    have main : ∀ {ps : List (Place α)} {paths : List (List Slot)},
        List.Forall₂ (fun q path => t.place? path = some q) ps paths →
          ps.map (fun q => pathOf q.label) = paths := by
      intro ps paths hall
      induction hall with
      | nil => rfl
      | cons hq _ ih => rw [List.map_cons, h.path_eq hq, ih]
    exact main (forall₂_ancestors hp)
  child_valid p token q hp hq := by
    obtain ⟨child, hchild, rfl⟩ := Option.map_eq_some_iff.1 hq
    rw [child?_eq, Option.bind_eq_some_iff] at hchild
    obtain ⟨slot, -, hat⟩ := hchild
    have hnext : t.place? (pathOf p.label ++ [slot]) = some ⟨child, p.tree :: p.above⟩ := by
      rw [place?_concat, hp, Option.bind_some, Place.step?, hat]
      rfl
    exact h.hasAt hnext
  child p token hp := by
    change (Option.map _ ((p.tree.child? token).map _) : Option (List Slot)) =
      ((t.sub? (pathOf p.label)).bind fun u => u.slot? token).map fun slot =>
        pathOf p.label ++ [slot]
    rw [hp.sub?, Option.bind_some, child?_eq, Option.map_map]
    cases hslot : p.tree.slot? token with
    | none => rfl
    | some slot =>
      obtain ⟨child, hchild⟩ :=
        Option.isSome_iff_exists.1 (isSome_at?_iff.2 (mem_slots_of_slot? hslot))
      rw [Option.bind_some, hchild, Option.map_some, Option.map_some]
      refine congrArg some (h.path_eq (p := ⟨child, p.tree :: p.above⟩) ?_)
      rw [place?_concat, hp, Option.bind_some, Place.step?, hchild]
      rfl

theorem container_eq {t : Tree α} (h : t.Labelled pathOf) {p : Place α} (hp : t.HasAt pathOf p) :
    t.HasAt pathOf p.container ∧ pathOf p.container.label = (pathOf p.label).dropLast := by
  have hall := forall₂_ancestors hp
  rw [Place.container, Place.parent?]
  rcases List.eq_nil_or_concat (pathOf p.label) with hnil | ⟨path, slot, hconcat⟩
  · rw [hnil] at hall ⊢
    cases hall' : p.ancestors with
    | nil => exact ⟨hp, hnil⟩
    | cons q ps => simp [hall', Pointer.above] at hall
  · rw [hconcat, List.concat_eq_append, Pointer.above_concat] at hall
    rw [hconcat, List.concat_eq_append, List.dropLast_concat]
    obtain ⟨q, ps, hq, -, hcons⟩ := List.forall₂_cons_right_iff.1 hall
    rw [hcons]
    exact ⟨h.hasAt hq, h.path_eq hq⟩

/-- What a pointer names as seen from the container of a place. -/
theorem Labelled.resolve_container {t : Tree α} (h : t.Labelled pathOf) {p : Place α}
    (hp : t.HasAt pathOf p) (pointer : String) :
    (Pointer.resolveText t.navigation p.container pointer).map (Option.map fun q => pathOf q.label) =
      Pointer.resolveText t.slotNavigation (pathOf p.label).dropLast pointer := by
  obtain ⟨hcontainer, hdrop⟩ := container_eq h hp
  rw [← hdrop]
  exact h.projection.resolveText hcontainer pointer

/-- The place at the end of the path that a pointer names. -/
theorem Labelled.exists_resolve_container {t : Tree α} (h : t.Labelled pathOf) {p : Place α}
    (hp : t.HasAt pathOf p) {pointer : String} {path : List Slot}
    (hpath : Pointer.resolveText t.slotNavigation (pathOf p.label).dropLast pointer =
      .ok (some path)) :
    ∃ q, t.HasAt pathOf q ∧ pathOf q.label = path ∧
      Pointer.resolveText t.navigation p.container pointer = .ok (some q) := by
  rw [← h.resolve_container hp] at hpath
  obtain ⟨found, hfound, hmap⟩ := map_eq_ok.1 hpath
  obtain ⟨q, rfl, hqpath⟩ := Option.map_eq_some_iff.1 hmap
  exact ⟨q, h.projection.resolveText_valid (container_eq h hp).1 hfound, hqpath, hfound⟩

theorem Labelled.resolve_container_eq_ok_iff {t : Tree α} (h : t.Labelled pathOf) {p q : Place α}
    (hp : t.HasAt pathOf p) (hq : t.HasAt pathOf q) {pointer : String} :
    Pointer.resolveText t.navigation p.container pointer = .ok (some q) ↔
      Pointer.resolveText t.slotNavigation (pathOf p.label).dropLast pointer =
        .ok (some (pathOf q.label)) := by
  constructor
  · intro hfound
    rw [← h.resolve_container hp, hfound]
    rfl
  · intro hpath
    obtain ⟨r, hr, hrpath, hfound⟩ := h.exists_resolve_container hp hpath
    rw [HasAt, hrpath, hq] at hr
    rw [hfound, Option.some.inj hr]

end Labelled

end FormSchema.Tree
