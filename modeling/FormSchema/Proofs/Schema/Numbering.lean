import FormSchema.Proofs.Schema.Regular
import FormSchema.Proofs.Schema.Relabel
import FormSchema.Schema.Numbering
import Mathlib.Data.List.Infix

/-!
Numbers of schemas.  The subtrees of a tree are listed one after the other, each with its own ones
right behind it.  Hence what is counted from the number of a schema for the schemas in it are their
numbers.
-/

namespace FormSchema

namespace Tree

variable {α : Type} {t u : Tree α}

/-- All subtrees, each before those in it. -/
def subtrees (t : Tree α) : List (Tree α) := t.places.map Place.tree

theorem subtrees_eq (t : Tree α) :
    t.subtrees = t :: t.children.flatMap fun part => part.2.subtrees := by
  have main (above : List (Tree α)) (t : Tree α) :
      (extendAt Place.tree above t).labels = t.subtrees := by
    rw [subtrees, places, extend, ← labels_extendAt]
    generalize ([] : List (Tree α)) = above'
    induction t using induct generalizing above above' with
    | step t ih =>
      rw [labels_eq, labels_eq (extendAt _ above' t), label_extendAt, label_extendAt,
        children_extendAt, children_extendAt, List.flatMap_map, List.flatMap_map, List.flatMap_def,
        List.flatMap_def]
      exact congrArg (fun l => t :: List.flatten l) (List.map_congr_left fun part hpart =>
        ih part hpart _ _)
  rw [← main [] t, labels_eq, label_extendAt, children_extendAt, List.flatMap_map]
  exact congrArg (fun f => t :: t.children.flatMap f) (funext fun part => main _ _)

theorem length_subtrees (t : Tree α) : t.subtrees.length = t.labels.length := by
  rw [subtrees, List.length_map, labels_eq_places, List.length_map]

/-- A subtree stands in the list with its own subtrees right behind it. -/
theorem subtrees_prefix_drop {k : Nat} (h : t.subtrees[k]? = some u) :
    u.subtrees <+: t.subtrees.drop k := by
  induction t using induct generalizing k with
  | step t ih =>
    have parts (parts : List (Slot × Tree α)) (hparts : ∀ part ∈ parts, part ∈ t.children) {k : Nat}
        (h : (parts.flatMap fun part => part.2.subtrees)[k]? = some u) :
        u.subtrees <+: (parts.flatMap fun part => part.2.subtrees).drop k := by
      induction parts generalizing k with
      | nil => cases h
      | cons part parts ih' =>
        rw [List.flatMap_cons] at h ⊢
        by_cases hk : k < part.2.subtrees.length
        · rw [List.getElem?_append_left hk] at h
          rw [List.drop_append_of_le_length (Nat.le_of_lt hk)]
          exact (ih part (hparts part List.mem_cons_self) h).trans (List.prefix_append _ _)
        · have hk := Nat.le_of_not_lt hk
          rw [List.getElem?_append_right hk] at h
          rw [List.drop_append, List.drop_eq_nil_of_le hk, List.nil_append]
          exact ih' (fun p hp => hparts p (List.mem_cons_of_mem _ hp)) h
    have heq := t.subtrees_eq
    cases k with
    | zero =>
      rw [heq] at h
      obtain rfl := Option.some.inj h
      exact List.prefix_rfl
    | succ k =>
      rw [heq, List.getElem?_cons_succ] at h
      rw [heq, List.drop_succ_cons]
      exact parts t.children (fun _ hpart => hpart) h

end Tree

namespace Numbered

variable {s : Numbered} {slot : Slot}

theorem map_schema_ofChildren (start : Nat) (l : List (Slot × Schema)) :
    (ofChildren start l).map (fun part => (part.1, part.2.schema)) = l := by
  induction l generalizing start with
  | nil => rfl
  | cons part l ih => rw [ofChildren, List.map_cons, ih]

/-- The schemas in a numbered one are those in the schema. -/
theorem map_schema_children (s : Numbered) :
    s.children.map (fun part => (part.1, part.2.schema)) = s.schema.children :=
  map_schema_ofChildren _ _

theorem map_schema_at? (s : Numbered) (slot : Slot) :
    (s.at? slot).map schema = s.schema.at? slot := by
  rw [Tree.at?, ← map_schema_children]
  exact (Key.lookup_map_snd (fun _ => schema) s.children slot).symm

theorem map_schema_variants (s : Numbered) : s.variants.map schema = s.schema.variants := by
  rw [variants, Tree.variants, ← map_schema_children, List.filterMap_map, List.map_filterMap]
  refine List.filterMap_congr fun part _ => ?_
  obtain ⟨slot, child⟩ := part
  cases slot <;> rfl

theorem mem_children_of_mem_variants {v : Numbered} (h : v ∈ s.variants) :
    ∃ part ∈ s.children, part.2 = v := by
  obtain ⟨part, hpart, heq⟩ := List.mem_filterMap.1 h
  obtain ⟨slot, child⟩ := part
  cases slot with
  | variant i =>
    obtain rfl := Option.some.inj heq
    exact ⟨_, hpart, rfl⟩
  | _ => cases heq

end Numbered

namespace Compiled

variable {c : Compiled} {s t : Numbered}

theorem numbered?_eq (c : Compiled) (number : Nat) :
    c.numbered? number = (c.schema.subtrees[number]?).map fun t => ⟨number, t⟩ := by
  rw [numbered?, Tree.subtrees, List.getElem?_map, Option.map_map]
  rfl

/-- Whether a numbered schema is one of those in a compiled one. -/
def Numbers (c : Compiled) (s : Numbered) : Prop := c.numbered? s.number = some s

theorem numbers_of_numbered? {number : Nat} (h : c.numbered? number = some s) :
    s.number = number ∧ c.Numbers s := by
  have hnumber : s.number = number := by
    rw [numbered?_eq] at h
    obtain ⟨t, -, rfl⟩ := Option.map_eq_some_iff.1 h
    rfl
  subst hnumber
  exact ⟨rfl, h⟩

theorem numbers_iff : c.Numbers s ↔ c.schema.subtrees[s.number]? = some s.schema := by
  obtain ⟨number, schema⟩ := s
  simp [Numbers, numbered?_eq]

theorem numbers_root (c : Compiled) : c.Numbers c.root := by
  rw [numbers_iff, Tree.subtrees_eq]
  rfl

/-- The number of a schema in another one is its place in the list of all. -/
theorem Numbers.child (h : c.Numbers s) {slot : Slot} (hchild : (slot, t) ∈ s.children) :
    c.Numbers t := by
  have parts (l : List (Slot × Schema)) (start : Nat)
      (hl : (l.flatMap fun part => part.2.subtrees) <+: c.schema.subtrees.drop start)
      (hchild : (slot, t) ∈ Numbered.ofChildren start l) :
      t.schema.subtrees <+: c.schema.subtrees.drop t.number := by
    induction l generalizing start with
    | nil => cases hchild
    | cons part l ih =>
      rw [List.flatMap_cons] at hl
      rcases List.mem_cons.1 hchild with heq | hchild
      · obtain ⟨-, rfl⟩ := Prod.mk.inj heq
        exact (List.prefix_append _ _).trans hl
      · refine ih _ ?_ hchild
        have hrest := hl.drop part.2.subtrees.length
        rwa [List.drop_left, List.drop_drop, Tree.length_subtrees] at hrest
  have hs := Tree.subtrees_prefix_drop (numbers_iff.1 h)
  rw [Tree.subtrees_eq] at hs
  have hbelow := hs.drop 1
  rw [List.drop_succ_cons, List.drop_zero, List.drop_drop] at hbelow
  have hprefix := parts s.schema.children _ hbelow hchild
  rw [Tree.subtrees_eq] at hprefix
  obtain ⟨rest, hrest⟩ := hprefix
  rw [numbers_iff, ← Nat.add_zero t.number, ← List.getElem?_drop, ← hrest]
  rfl

theorem Numbers.at? (h : c.Numbers s) {slot : Slot} (hchild : s.at? slot = some t) :
    c.Numbers t := h.child (Key.mem_of_lookup hchild)

theorem Numbers.variant (h : c.Numbers s) (hchild : t ∈ s.variants) : c.Numbers t := by
  obtain ⟨part, hpart, rfl⟩ := Numbered.mem_children_of_mem_variants hchild
  exact h.child hpart

/-- A numbered schema hangs in the compiled one at some path. -/
theorem Numbers.exists_path (h : c.Numbers s) (distinct : c.schema.SlotsDistinct) :
    ∃ path, c.schema.sub? path = some s.schema := by
  rw [numbers_iff, Tree.subtrees, List.getElem?_map] at h
  obtain ⟨p, hp, hs⟩ := Option.map_eq_some_iff.1 h
  obtain ⟨path, hpath⟩ := Tree.exists_path_of_mem_places distinct (List.mem_of_getElem? hp)
  exact ⟨path, by rw [Tree.sub?_eq, hpath, ← hs]; rfl⟩

end Compiled

end FormSchema
