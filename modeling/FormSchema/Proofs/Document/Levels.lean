import FormSchema.Document.Edit
import FormSchema.Proofs.Document.Path

/-!
Subtrees level by level.  The levels of a subtree are its top and the levels of the subtrees of the
children side by side.
-/

namespace FormSchema.Place

variable {p q : Place} {places : List Place}

@[simp] theorem joinLevels_nil (levels : List (List Place)) : joinLevels levels [] = levels := by
  cases levels <;> rfl

theorem joinLevels_assoc (levels more rest : List (List Place)) :
    joinLevels (joinLevels levels more) rest = joinLevels levels (joinLevels more rest) := by
  induction levels generalizing more rest with
  | nil => simp [joinLevels]
  | cons level levels ih =>
    cases more with
    | nil => simp [joinLevels]
    | cons level' more => cases rest <;> simp [joinLevels, ih]

theorem mem_flatten_joinLevels {levels more : List (List Place)} :
    q ∈ (joinLevels levels more).flatten ↔ q ∈ levels.flatten ∨ q ∈ more.flatten := by
  induction levels generalizing more with
  | nil => simp [joinLevels]
  | cons level levels ih =>
    cases more with
    | nil => simp [joinLevels]
    | cons level' more =>
      simp only [joinLevels, List.flatten_cons, List.mem_append, ih]
      exact or_or_or_comm

/-- The levels of a subtree. -/
def levels (p : Place) : List (List Place) := levelsAt p.above p.node

/-- The levels of some subtrees side by side. -/
def jointLevels (places : List Place) : List (List Place) :=
  places.foldr (fun p => joinLevels p.levels) []

theorem jointLevels_cons (p : Place) (places : List Place) :
    jointLevels (p :: places) = joinLevels p.levels (jointLevels places) := rfl

theorem jointLevels_append (places more : List Place) :
    jointLevels (places ++ more) = joinLevels (jointLevels places) (jointLevels more) := by
  induction places with
  | nil => simp [jointLevels, joinLevels]
  | cons p places ih => rw [List.cons_append, jointLevels_cons, jointLevels_cons, ih, joinLevels_assoc]

theorem levelsItems_eq (parent : Node) (above : List (Key × Node)) (start : Nat)
    (items : List Node) :
    levelsItems parent above start items =
      jointLevels ((Key.ofItems start items).map (down ⟨parent, above⟩)) := by
  induction items generalizing start with
  | nil => rfl
  | cons item items ih =>
    rw [levelsItems, ih, Key.ofItems_cons]
    rfl

theorem levelsFields_eq (parent : Node) (above : List (Key × Node))
    (fields : List (String × Node)) :
    levelsFields parent above fields =
      jointLevels ((Key.ofFields fields).map (down ⟨parent, above⟩)) := by
  induction fields with
  | nil => rfl
  | cons field fields ih =>
    rw [levelsFields, ih]
    rfl

theorem levels_eq (p : Place) : p.levels = [p] :: jointLevels p.children := by
  obtain ⟨n, above⟩ := p
  cases n with
  | leaf tag v => rfl
  | list tag items => rw [levels, levelsAt, levelsItems_eq, children, Node.children_list]
  | record tag fields => rw [levels, levelsAt, levelsFields_eq, children, Node.children_record]

/-- Below some places come their children, level by level. -/
theorem jointLevels_eq (h : places ≠ []) :
    jointLevels places = places :: jointLevels (places.flatMap children) := by
  induction places with
  | nil => exact absurd rfl h
  | cons p places ih =>
    by_cases hplaces : places = []
    · rw [hplaces, jointLevels_cons, levels_eq, List.flatMap_singleton]
      exact joinLevels_nil _
    · rw [jointLevels_cons, levels_eq, ih hplaces, List.flatMap_cons, jointLevels_append]
      rfl

theorem mem_flatten_jointLevels :
    q ∈ (jointLevels places).flatten ↔ ∃ p ∈ places, q ∈ p.levels.flatten := by
  induction places with
  | nil => simp [jointLevels]
  | cons p places ih =>
    rw [jointLevels_cons, mem_flatten_joinLevels, ih]
    simp only [List.mem_cons, exists_eq_or_imp]

/-- The places of a subtree level by level are the places of the subtree. -/
theorem mem_breadthFirst : q ∈ p.breadthFirst ↔ q ∈ p.subtree := by
  have main : ∀ (n : Node) (above : List (Key × Node)),
      q ∈ (levels ⟨n, above⟩).flatten ↔ q ∈ subtree ⟨n, above⟩ := by
    intro n
    induction n using Node.induct with
    | step n ih =>
      intro above
      rw [levels_eq, List.flatten_cons, List.singleton_append, List.mem_cons,
        mem_flatten_jointLevels, subtree_eq, List.mem_cons, List.mem_flatMap, children]
      simp only [List.mem_map, exists_exists_and_eq_and]
      exact or_congr_right (exists_congr fun part => and_congr_right fun hpart => ih part hpart _)
  exact main p.node p.above

end FormSchema.Place
