import FormSchema.Proofs.Schema.Observers
import FormSchema.Proofs.Schema.Recompilation
import Mathlib.Algebra.BigOperators.Group.List.Basic
import Mathlib.Algebra.GroupWithZero.Nat
import Mathlib.Algebra.Order.BigOperators.Group.List
import Mathlib.Algebra.Order.Group.Nat

/-!
The pointers of a schema that compiles without problems.  A property can be named like the slot of
items or of a variant, but never next to one, since a schema with properties admits objects and one
with items admits arrays.  So no two places have one pointer, and a pointer leads back to its place.
-/

namespace FormSchema

namespace Tree

variable {α : Type} {pathOf : α → List Slot} {t u : Tree α} {path : List Slot}

/-- There are more labels than children. -/
theorem length_slots_lt (t : Tree α) : t.slots.length < t.labels.length := by
  have hpos : ∀ n ∈ t.children.map fun part => part.2.labels.length, 1 ≤ n := by
    rw [List.forall_mem_map]
    intro part _
    rw [labels_eq]
    exact Nat.le_add_left 1 _
  have := List.length_le_sum_of_one_le _ hpos
  rw [List.length_map] at this
  rw [slots, List.length_map, labels_eq, List.length_cons, List.length_flatMap]
  omega

theorem length_labels_le_of_sub? (h : t.sub? path = some u) : u.labels.length ≤ t.labels.length := by
  induction path generalizing t with
  | nil => rw [Option.some.inj h]
  | cons slot path ih =>
    obtain ⟨child, hchild, h⟩ := Option.bind_eq_some_iff.1 h
    have hmem := List.mem_map_of_mem (f := fun part : Slot × Tree α => part.2.labels.length)
      (Key.mem_of_lookup hchild)
    have hchild : child.labels.length ≤ _ := List.le_sum_of_mem hmem
    have := ih h
    rw [labels_eq t, List.length_cons, List.length_flatMap]
    omega

theorem exists_sub?_of_mem_labels (distinct : t.SlotsDistinct) {a : α} (h : a ∈ t.labels) :
    ∃ path u, t.sub? path = some u ∧ u.label = a := by
  rw [labels_eq_places] at h
  obtain ⟨p, hp, rfl⟩ := List.mem_map.1 h
  obtain ⟨path, hpath⟩ := exists_path_of_mem_places distinct hp
  exact ⟨path, p.tree, by rw [sub?_eq, hpath]; rfl, rfl⟩

section Labelled

variable {front : List Slot}

theorem exists_of_mem_map_labels (distinct : t.SlotsDistinct)
    (labelled : ∀ path u, t.sub? path = some u → pathOf u.label = front ++ path)
    {below : List Slot} (h : below ∈ t.labels.map pathOf) : ∃ path, below = front ++ path := by
  obtain ⟨a, ha, rfl⟩ := List.mem_map.1 h
  obtain ⟨path, u, hu, rfl⟩ := exists_sub?_of_mem_labels distinct ha
  exact ⟨path, labelled path u hu⟩

/-- Labels that know the paths to them, behind the path to the tree, know different ones. -/
theorem nodup_map_labels (distinct : t.SlotsDistinct)
    (labelled : ∀ path u, t.sub? path = some u → pathOf u.label = front ++ path) :
    (t.labels.map pathOf).Nodup := by
  induction t using induct generalizing front with
  | step t ih =>
    have hchild {part : Slot × Tree α} (hpart : part ∈ t.children) (path : List Slot) (u : Tree α)
        (hu : part.2.sub? path = some u) : pathOf u.label = (front ++ [part.1]) ++ path := by
      rw [labelled _ u (distinct.sub? hpart hu), List.append_assoc]
      rfl
    have hfront {part : Slot × Tree α} (hpart : part ∈ t.children) {below : List Slot}
        (hbelow : below ∈ part.2.labels.map pathOf) : ∃ path, below = (front ++ [part.1]) ++ path :=
      exists_of_mem_map_labels (distinct.child hpart) (hchild hpart) hbelow
    rw [labels_eq, List.map_cons, List.map_flatMap, List.nodup_cons, List.nodup_flatMap]
    refine ⟨fun hmem => ?_, fun part hpart => ih part hpart (distinct.child hpart) (hchild hpart), ?_⟩
    · obtain ⟨part, hpart, hmem⟩ := List.mem_flatMap.1 hmem
      obtain ⟨path, hpath⟩ := hfront hpart hmem
      rw [labelled [] t rfl, List.append_assoc, List.append_cancel_left_eq] at hpath
      cases hpath
    · -- What is below two children has their slots behind the path to the tree.
      have hslots : t.children.Pairwise fun part other => part.1 ≠ other.1 :=
        List.pairwise_map.1 (distinct [] t rfl)
      refine hslots.imp_of_mem fun {part other} hpart hother hne => ?_
      rw [Function.onFun, List.disjoint_left]
      intro below hbelow hbelow'
      obtain ⟨path, rfl⟩ := hfront hpart hbelow
      obtain ⟨path', hpath'⟩ := hfront hother hbelow'
      rw [List.append_assoc, List.append_assoc, List.append_cancel_left_eq] at hpath'
      exact hne (List.cons.inj hpath').1

end Labelled

end Tree

namespace Schema

variable {schema u : Schema} {path : List Slot}

/-- The token of a slot names it again, if the numbers of variants fit into machine words. -/
theorem Orderly.slot?_token (h : Orderly u) {slot : Slot} (hslot : slot ∈ u.slots)
    (short : ∀ i, slot = .variant i → i < Number.indexBound) : u.slot? slot.token = some slot := by
  obtain ⟨child, hchild⟩ := Option.isSome_iff_exists.1 (Tree.isSome_at?_iff.2 hslot)
  -- What holds items has no properties, whatever their names.
  have hproperty (hholder : slot.holder = .array) (name : String) : u.at? (.property name) = none := by
    by_contra hsome
    have hother := h.base _ (Tree.isSome_at?_iff.1 (Option.isSome_iff_ne_none.2 hsome))
    rw [h.base slot hslot, hholder] at hother
    cases hother
  cases slot with
  | property name => rw [Tree.slot?, Slot.token, hchild]
  | item =>
    rw [Tree.slot?, hproperty rfl, hchild]
    rfl
  | variant i =>
    have hitem : u.at? .item = none := by
      by_contra hsome
      have hunmixed := h.item (Tree.isSome_at?_iff.1 (Option.isSome_iff_ne_none.2 hsome))
      rw [h.variant i hslot] at hunmixed
      cases hunmixed
    have hindex : Tree.variantIndex? (Slot.variant i).token = some i := by
      rw [Tree.variantIndex?, Slot.toList_token_variant]
      exact Number.index?_repr (short i rfl)
    rw [Tree.slot?, hproperty rfl, hitem]
    simp only [hindex, Option.bind_some, hchild, Option.map_some]

/-- Whether the numbers of all variants of a schema fit into machine words. -/
def Short (schema : Schema) : Prop :=
  ∀ path u i, schema.sub? path = some u → .variant i ∈ u.slots → i < Number.indexBound

/-- The tokens on the way to a place lead there. -/
theorem Regular.descend_tokens (h : Regular schema) (short : schema.Short)
    (hu : schema.sub? path = some u) :
    Pointer.descend schema.slotNavigation [] (path.map Slot.token) = some path := by
  induction path using List.reverseRecOn generalizing u with
  | nil => rfl
  | append_singleton path slot ih =>
    rw [Tree.sub?_concat] at hu
    obtain ⟨v, hv, hu⟩ := Option.bind_eq_some_iff.1 hu
    have hslot := Tree.mem_slots_of_at? hu
    have htoken := (h.orderly hv).slot?_token hslot fun i hi => short path v i hv (hi ▸ hslot)
    have hstep : schema.slotNavigation.child? path slot.token = some (path ++ [slot]) := by
      change ((schema.sub? path).bind fun u => u.slot? slot.token).map (fun step => path ++ [step]) = _
      rw [hv, Option.bind_some, htoken, Option.map_some]
    rw [List.map_append, Pointer.descend_append, ih hv, Option.bind_some, List.map_singleton,
      Pointer.descend_cons, hstep]
    rfl

/-- The pointer of a place names it. -/
theorem Regular.byPointer?_pointer (h : Regular schema) (short : schema.Short)
    {p : Tree.Place Attributes} (hp : p ∈ schema.places) :
    schema.byPointer? p.label.pointer = some p := by
  have hat := h.shaped.hasAt_of_mem_places hp
  have hpath : Pointer.resolveText schema.slotNavigation [] p.label.pointer =
      .ok (some p.label.path) := by
    rw [Pointer.resolveText, Section.pointer, Pointer.parse_join]
    exact congrArg Except.ok (h.descend_tokens short hat.sub?)
  have hroot := h.labelled.hasAt schema.place?_nil
  have hrootPath : schema.root.label.path = [] := h.labelled.path_eq schema.place?_nil
  have hfound : Pointer.resolveText schema.navigation schema.root p.label.pointer = .ok (some p) := by
    refine (h.labelled.resolve_container_eq_ok_iff hroot hat).2 ?_
    rw [hrootPath]
    exact hpath
  rw [Tree.byPointer?, hfound]

/-- Different places have different pointers. -/
theorem Regular.nodup_pointers (h : Regular schema) :
    (schema.places.map fun p => p.label.pointer).Nodup := by
  have distinct : schema.SlotsDistinct :=
    h.shaped.slotsDistinct (rfl : schema.sub? [] = some schema)
  have labelled : ∀ path u, schema.sub? path = some u → u.label.path = [] ++ path := h.labelled
  have hpaths : (schema.labels.map fun label => label.path).Nodup :=
    Tree.nodup_map_labels distinct labelled
  have hpath {path : List Slot} (hmem : path ∈ schema.labels.map fun label => label.path) :
      ∃ u, schema.sub? path = some u := by
    obtain ⟨a, ha, rfl⟩ := List.mem_map.1 hmem
    obtain ⟨path, u, hu, rfl⟩ := Tree.exists_sub?_of_mem_labels distinct ha
    have hlabel : u.label.path = path := h.labelled path u hu
    exact ⟨u, hlabel ▸ hu⟩
  have hpointers : (schema.places.map fun p => p.label.pointer) =
      (schema.labels.map fun label => label.path).map fun path =>
        Pointer.join (path.map Slot.token) := by
    rw [Tree.labels_eq_places, List.map_map, List.map_map]
    rfl
  rw [hpointers]
  refine hpaths.map_on fun path hmem path' hmem' heq => ?_
  obtain ⟨u, hu⟩ := hpath hmem
  obtain ⟨v, hv⟩ := hpath hmem'
  exact h.eq_of_tokens_eq hu hv (Pointer.join_injective heq)

end Schema

namespace Inference

variable {t : KindSet} {base : Kind} {nullable : Bool}

/-- A target from which a base type can be picked has one or two members. -/
theorem length_of_baseType (h : baseType t = .ok (base, nullable)) :
    t.toList.length = 1 ∨ t.toList.length = 2 := by
  unfold baseType at h
  split at h
  · cases h
  · rename_i only hlist
    exact .inl (by rw [hlist]; rfl)
  · rename_i a b hlist
    exact .inr (by rw [hlist]; rfl)
  · cases h

/-- Null is admitted if it is a member of the target. -/
theorem nullable_of_baseType (h : baseType t = .ok (base, nullable)) :
    nullable = true ↔ t.has .null = true := by
  rw [← KindSet.mem_toList]
  unfold baseType at h
  split at h
  · cases h
  · rename_i only hlist
    obtain ⟨rfl, rfl⟩ := Prod.mk.inj (Except.ok.inj h)
    rw [hlist, List.mem_singleton, beq_iff_eq, eq_comm]
  · rename_i a b hlist
    split at h
    · obtain ⟨-, rfl⟩ := Prod.mk.inj (Except.ok.inj h)
      simp_all
    · split at h
      · obtain ⟨-, rfl⟩ := Prod.mk.inj (Except.ok.inj h)
        simp_all
      · cases h
  · cases h

end Inference

namespace Outline

/-- The number of a variant is smaller than the number of the subschemas. -/
theorem lt_length_of_variant_mem {raw : Json} {i : Nat}
    (h : .variant i ∈ (parts raw).map (·.1)) : i < ((parts raw).map (·.1)).length := by
  rw [parts, List.map_append, List.mem_append] at h
  rw [parts, List.map_append, List.length_append]
  rcases h with h | h
  · obtain ⟨part, hpart, hvariant⟩ := List.mem_map.1 h
    obtain ⟨name, hname⟩ := propertyParts_property hpart
    rw [hname] at hvariant
    cases hvariant
  · rcases slots_itemParts raw with hslots | ⟨hslots, -⟩ | ⟨n, hslots, -⟩
    · simp [hslots] at h
    · simp [hslots] at h
    · simp only [hslots, List.mem_map, List.mem_range, Slot.variant.injEq, exists_eq_right] at h
      simp only [hslots, List.length_map, List.length_range]
      omega

end Outline

namespace Compilation

variable {settings : Settings} {cache : Enumeration.Cache} {raw : Json} {data : Option Json}
  {inlined : Json} {offer : String → Option (List Choice)} {derived : Schema} {c : Compiled}

/-- Where places can be counted by machine words, so can variants. -/
theorem Stages.short (h : Stages settings raw data inlined offer derived c)
    (distinct : raw.keysDistinct = true) (words : c.schema.places.length ≤ Number.indexBound) :
    c.schema.Short := by
  intro path u i hu hslot
  obtain ⟨v, hv, hslots, -⟩ := h.exists_derived hu
  obtain ⟨o, ho, hslots', -⟩ := h.exists_section hv
  obtain ⟨raw', -, rfl⟩ := h.exists_outline distinct ho
  have hparts : u.slots = (Outline.parts raw').map (·.1) := by
    rw [hslots, hslots', Outline.slots_build]
  have hi : i < u.slots.length := by
    rw [hparts] at hslot ⊢
    exact Outline.lt_length_of_variant_mem hslot
  have hlabels := Tree.length_labels_le_of_sub? hu
  rw [Tree.labels_eq_places c.schema, List.length_map] at hlabels
  have := u.length_slots_lt
  omega

/-- What a compilation without problems knows of the kinds of a place. -/
theorem exists_base_of_mem_places (h : (compile settings cache raw data).1 = .ok c)
    (valid : c.problems = []) {p : Tree.Place Attributes} (hp : p ∈ c.schema.places) :
    ∃ base, p.label.base = some base ∧
      Inference.baseType p.label.target = .ok (base, p.label.nullable) := by
  obtain ⟨inlined, offer, derived, stages, -, hvalid⟩ := exists_valid h valid
  have hcore : p.label.core ∈ (c.schema.map Attributes.core).labels := by
    rw [Tree.labels_map, Tree.labels_eq_places, List.map_map]
    exact List.mem_map.2 ⟨p, hp, rfl⟩
  rw [stages.map_core, Tree.labels_map] at hcore
  obtain ⟨s, hs, hlabel⟩ := List.mem_map.1 hcore
  obtain ⟨fields, hraw⟩ := (hvalid s hs).exists_fields
  obtain ⟨-, base, hpicked, hbase⟩ := (hvalid s hs).typed hraw
  rw [hlabel] at hpicked hbase
  exact ⟨base, hbase, hpicked⟩

/-- In a schema that compiles without problems every place has a base type among the one or two kinds
of its target and admits null as the target says; no two places have one pointer, and, as long as
places can be counted by machine words, the pointer of a place names it. -/
theorem places_of_compile (distinct : raw.keysDistinct = true)
    (compiled : (compile settings cache raw data).1 = .ok c) (valid : c.problems = []) :
    (∀ p ∈ c.schema.places,
      (∃ base, p.label.base = some base ∧ p.label.target.has base = true) ∧
        (p.label.target.toList.length = 1 ∨ p.label.target.toList.length = 2) ∧
          (p.label.nullable = true ↔ p.label.target.has .null = true)) ∧
      (c.schema.places.map fun p => p.label.pointer).Nodup ∧
        (c.schema.places.length ≤ Number.indexBound →
          ∀ p ∈ c.schema.places, c.schema.byPointer? p.label.pointer = some p) := by
  have regular := (wired_of_compile distinct compiled valid).toRegular
  obtain ⟨inlined, offer, derived, stages⟩ := exists_stages compiled
  refine ⟨fun p hp => ?_, regular.nodup_pointers, fun words p hp => ?_⟩
  · obtain ⟨base, hbase, hpicked⟩ := exists_base_of_mem_places compiled valid hp
    exact ⟨⟨base, hbase, Inference.has_of_baseType hpicked⟩, Inference.length_of_baseType hpicked,
      Inference.nullable_of_baseType hpicked⟩
  · exact regular.byPointer?_pointer (stages.short distinct words) hp

theorem places_of_compile_tags :
    Tags.schema.places.map (fun p => p.label.pointer) = ["", "/*0", "/*1"] ∧
      ["", "/*0", "/*1"].Nodup ∧
        ∀ p ∈ Tags.schema.places, Tags.schema.byPointer? p.label.pointer = some p := by
  have hpointers : Tags.schema.places.map (fun p => p.label.pointer) = ["", "/*0", "/*1"] := by
    decide
  obtain ⟨-, hnodup, hnamed⟩ := places_of_compile (by decide) Tags.run_eq rfl
  exact ⟨hpointers, hpointers ▸ hnodup, hnamed (by decide)⟩

end Compilation

end FormSchema
