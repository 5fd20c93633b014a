import FormSchema.Proofs.Store.Calls

/-!
Addresses in a store that comes about by calls.  The pointer of a node leads back to it, from the root
and, with a count of ancestors before it, from any other node; a pointer that climbs beyond the root
says how far it could have climbed.
-/

namespace FormSchema.Store

variable {s : Store} {d : Document}

/-- How pointers lead to the nodes of a store. -/
structure Addressed (s : Store) : Prop where
  byPointer : ∀ b, s.Live b → s.byPointer? (s.pointer b) = some b
  injective : ∀ a b, s.Live a → s.Live b → s.pointer a = s.pointer b → a = b
  /-- A pointer that climbs to an ancestor and goes down by the rest of the way leads to a node. -/
  climbs : ∀ a b, s.Live a → s.Live b → ∀ (n top : Nat) (tokens : List String),
    (a :: s.ancestors a)[n]? = some top → s.tokens b = s.tokens top ++ tokens →
      s.resolve a (n.repr ++ Pointer.join tokens) = .ok (some b)
  /-- A pointer that climbs beyond the root fails, however it is written. -/
  overflows : ∀ a, s.Live a → ∀ (n : Nat) (tokens : List String), (s.ancestors a).length < n →
    ∀ source, Pointer.parse source = .ok (.relative n tokens) →
      s.resolve a source = .error (.ancestorOverflow (n.repr ++ Pointer.join tokens) n
        (s.ancestors a).length)

/-- A store that holds a document is addressed as the document is. -/
theorem Holds.addressed (h : s.Holds d) (words : s.slots.length ≤ Number.indexBound) :
    s.Addressed := by
  rw [h.length] at words
  have haddressed := h.sound.addressed words
  have exists_mem {id : Nat} (hid : s.Live id) : ∃ p ∈ d.places, d.Has p ∧ p.id = id := by
    obtain ⟨p, hp, rfl⟩ := h.exists_place hid
    exact ⟨p, h.sound.mem_places_iff.2 hp, hp, rfl⟩
  constructor
  case byPointer =>
    intro b hb
    obtain ⟨q, hq, hhas, rfl⟩ := exists_mem hb
    rw [h.pointer_eq hhas, h.byPointer?_eq, haddressed.byPointer q hq]
    rfl
  case injective =>
    intro a b ha hb heq
    obtain ⟨p, hp, hhas, rfl⟩ := exists_mem ha
    obtain ⟨q, hq, hhas', rfl⟩ := exists_mem hb
    rw [h.pointer_eq hhas, h.pointer_eq hhas'] at heq
    rw [haddressed.injective p hp q hq heq]
  case climbs =>
    intro a b ha hb n top tokens htop htokens
    obtain ⟨p, hp, hhas, rfl⟩ := exists_mem ha
    obtain ⟨q, hq, hhas', rfl⟩ := exists_mem hb
    rw [h.ancestors_eq hhas, ← List.map_cons, List.getElem?_map, Option.map_eq_some_iff] at htop
    obtain ⟨r, hr, rfl⟩ := htop
    have hr' : d.Has r := by
      rcases List.mem_cons.1 (List.mem_of_getElem? hr) with rfl | hmem
      · exact hhas
      · exact hhas.ofAbove r hmem
    rw [h.tokens_eq hhas', h.tokens_eq hr'] at htokens
    rw [h.resolve_eq hhas, haddressed.climbs p hp q hq n r tokens hr htokens]
    rfl
  case overflows =>
    intro a ha n tokens hlt source hsource
    obtain ⟨p, hp, hhas, rfl⟩ := exists_mem ha
    rw [h.ancestors_eq hhas, List.length_map] at hlt ⊢
    rw [h.resolve_eq hhas, haddressed.overflows p hp n tokens hlt source hsource]
    rfl

/-- Whatever has been called, pointers lead to the nodes of a store. -/
theorem addressed_run (value : ProperJson) (calls : List Call) (s : Store)
    (hs : run value calls = some s) (words : s.slots.length ≤ Number.indexBound) :
    s.Addressed := by
  obtain ⟨d, hkeeps⟩ := keeps_run hs
  exact hkeeps.addressed words

namespace Shifted

def value : ProperJson :=
  ⟨.obj [("a/b", .arr [.null, .bool true, .obj [("", .null), ("0", .null)]])], by decide⟩

def calls : List Call := [.dangling (.detach 2)]

end Shifted

/-- The first item is taken away; pointers find the fields of the last one at its new position. -/
theorem addressed_run_shifted :
    ∃ s, run Shifted.value Shifted.calls = some s ∧ s.byPointer? "/a~1b/1/" = some 5 ∧
      s.resolve 6 "1/" = .ok (some 5) ∧
        s.resolve 6 "4/x" = .error (.ancestorOverflow "4/x" 4 3) := by
  refine ⟨(ofJson Shifted.value.1).drop 1 2, rfl, ?_⟩
  obtain ⟨hpointer, -, hclimbs, hoverflows⟩ :=
    addressed_run Shifted.value Shifted.calls _ rfl (by decide +kernel)
  refine ⟨?_, ?_, ?_⟩
  · exact hpointer 5 (by decide)
  · exact hclimbs 6 5 (by decide) (by decide) 1 _ [""] rfl rfl
  · exact hoverflows 6 (by decide) 4 ["x"] (by decide +kernel) "4/x" rfl

end FormSchema.Store
