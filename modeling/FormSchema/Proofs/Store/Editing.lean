import FormSchema.Proofs.Store.Refinement

/-!
Changes of a store are changes of its plain value, at the place of a node and nowhere else.  Nodes that
do not go keep their identities, and their values unless they lie above the change.  A change that is
refused leaves the store as it is.
-/

namespace FormSchema

open Document (Has)

namespace Store

variable {s s' : Store} {d d' : Document} {c : Compiled} {p q : Place} {id : Nat}

/-- Whether a node is another one or lies below it. -/
def Below (s : Store) (top id : Nat) : Prop := top ∈ id :: s.ancestors id

instance (s : Store) (top id : Nat) : Decidable (s.Below top id) :=
  inferInstanceAs (Decidable (top ∈ id :: s.ancestors id))

/-- Whether a change at a node leaves the other nodes alone: those that do not go keep their
identities, and their values unless they are that node or lie above it. -/
structure Spares (s s' : Store) (site : Nat) (gone : Nat → Prop) : Prop where
  live : ∀ i, s.Live i → (s'.Live i ↔ ¬ gone i)
  value : ∀ i, s.Live i → ¬ gone i → ¬ s.Below i site → s'.value? i = s.value? i

/-- Setting a value puts it where the node is, and only there: the parts of the node go, the node
and all others stay.  It is refused for the root and for what is no node. -/
structure Replaces (s : Store) (c : Compiled) (id : Nat) (v : ProperJson) : Prop where
  refused : id = 0 ∨ ¬ s.Live id →
    s.set c id v.1 = some (.error (if id = 0 then .rootChange else .unknownNode id), s)
  done : id ≠ 0 → s.Live id → ∀ out, s.set c id v.1 = some out →
    (∃ changed, out.1 = .ok changed) ∧
      out.2.value = s.value.modifyAt (fun _ => v.1) (s.path id) ∧
        out.2.value? id = some v.1 ∧ s.Spares out.2 id fun i => s.Below id i ∧ i ≠ id

/-- Pushing a value appends it to the array as a new node, and all others stay.  It is refused where
there is no array. -/
structure Appends (s : Store) (c : Compiled) (array : Nat) (v : ProperJson) : Prop where
  refused : s.kind? array ≠ some .array → s.push c array v.1 =
    some (.error (if s.Live array then .noArray (s.pointer array) else .unknownNode array), s)
  done : s.kind? array = some .array → ∀ out, s.push c array v.1 = some out →
    ∃ item, out.1 = .ok item ∧
      out.2.value = s.value.modifyAt (fun items => items.append v.1) (s.path array) ∧
        ¬ s.Live item ∧ out.2.value? item = some v.1 ∧ s.Spares out.2 array fun _ => False

/-- Detaching a node gives its value and takes it out of the node above: the node goes with its
parts, and all others stay.  It is refused for the root and for what is no node. -/
structure Removes (s : Store) (id : Nat) : Prop where
  refused : id = 0 ∨ ¬ s.Live id →
    s.detach id = (.error (if id = 0 then .rootChange else .unknownNode id), s)
  done : id ≠ 0 → s.Live id →
    ∃ s' v path key, s.path id = path ++ [key] ∧ s.value? id = some v ∧ s.detach id = (.ok v, s') ∧
      s'.value = s.value.modifyAt (fun part => part.drop key) path ∧ s.Spares s' id (s.Below id)

namespace Holds

theorem value?_eq_value? (h : s.Holds d) (id : Nat) : s.value? id = d.value? id := by
  by_cases hlive : s.Live id
  · obtain ⟨p, hp, rfl⟩ := h.exists_place hlive
    rw [h.value?_eq hp, h.sound.value?_eq_some_iff.2 ⟨p, hp, rfl, rfl⟩]
  · have hnone : s.content? id = none := by
      rw [Live, Option.not_isSome_iff_eq_none] at hlive
      rw [content?, hlive]
      rfl
    have hfind : d.find? id = none := by
      rwa [h.live_iff, Document.Live, Option.not_isSome_iff_eq_none] at hlive
    rw [value?, Document.value?, hfind]
    cases s.slots.length with
    | zero => rfl
    | succ fuel => rw [valueWithin, hnone]; rfl

theorem below_iff (h : s.Holds d) (hp : d.Has p) (hq : d.Has q) :
    s.Below p.id q.id ↔ p.Covers q := by
  rw [Below, h.ancestors_eq hq, ← List.map_cons, List.mem_map, hq.covers_iff_mem_ancestors]
  constructor
  · rintro ⟨r, hr, hid⟩
    have hr' : d.Has r := by
      rcases List.mem_cons.1 hr with rfl | hmem
      · exact hq
      · exact hq.ofAbove r hmem
    rwa [h.sound.eq_of_id_eq hp hr' hid.symm]
  · exact fun hmem => ⟨p, hmem, rfl⟩

/-- What a change of a document spares, a change of the store that holds it spares. -/
theorem spares (h : s.Holds d) (h' : s'.Holds d') (hp : d.Has p) {gone : Place → Prop}
    {gone' : Nat → Prop} (hspares : Document.Spares d d' p gone)
    (hgone : ∀ q, d.Has q → (gone' q.id ↔ gone q)) : s.Spares s' p.id gone' where
  live i hi := by
    obtain ⟨q, hq, rfl⟩ := h.exists_place hi
    rw [h'.live_iff, hgone q hq]
    exact hspares.live q (h.sound.mem_places_iff.2 hq)
  value i hi hstays hsite := by
    obtain ⟨q, hq, rfl⟩ := h.exists_place hi
    rw [hgone q hq] at hstays
    rw [h.below_iff hq hp] at hsite
    rw [h'.value?_eq_value?, h.value?_eq hq]
    exact hspares.value q (h.sound.mem_places_iff.2 hq) hstays hsite

end Holds

namespace Keeps

theorem replaces (h : s.Keeps d) (c : Compiled) (id : Nat) (v : ProperJson) :
    s.Replaces c id v where
  refused hbad := set_refused c v.1 hbad
  done hroot hlive out hset := by
    obtain ⟨p, hp, rfl⟩ := h.exists_place hlive
    obtain ⟨hlinks, hchanged⟩ := set_eq_some hroot hlive hset
    have h' := ((h.replace hp v.2).onlyLinks hlinks).toHolds
    refine ⟨hchanged, ?_, ?_, h.spares h' hp (h.sound.spares_fresh hp v.2) fun q hq => ?_⟩
    · rw [h'.value_eq, h.value_eq, h.path_eq hp, h.sound.value_fresh hp v.2]
    · rw [h'.value?_eq_value?, h.sound.value?_fresh hp v.2]
    · rw [h.below_iff hp hq]

theorem appends (h : s.Keeps d) (c : Compiled) (array : Nat) (v : ProperJson) :
    s.Appends c array v where
  refused hbad := push_refused c v.1 hbad
  done hkind out hpush := by
    obtain ⟨p, tag, items, hp, rfl, hnode⟩ := h.exists_array hkind
    obtain ⟨hlinks, hitem⟩ := push_eq_some hkind hpush
    have h' := ((h.extend hp hnode v.2).onlyLinks hlinks).toHolds
    have hspares := h.sound.spares_grown hp v.2 hnode
    rw [h.extend_eq] at hitem
    refine ⟨d.next, hitem, ?_, fun hnext => ?_, ?_, h.spares h' hp hspares fun _ _ => Iff.rfl⟩
    · rw [h'.value_eq, h.value_eq, h.path_eq hp, h.sound.value_grown hp v.2 hnode]
    · exact Nat.lt_irrefl _ (h.sound.lt_next (h.live_iff.1 hnext))
    · rw [h'.value?_eq_value?, h.sound.value?_grown hp v.2 hnode]

theorem removes (h : s.Keeps d) (id : Nat) : s.Removes id where
  refused hbad := detach_refused hbad
  done hroot hlive := by
    obtain ⟨n, key, parent, above, hp, rfl⟩ := h.exists_above hroot hlive
    have h' := (h.drop hp).toHolds
    have hpath : s.path n.id = Place.path ⟨parent, above⟩ ++ [key] :=
      (h.path_eq hp).trans (Place.path_mk_cons _ _ _)
    refine ⟨_, n.value, _, key, hpath, h.value?_eq hp, h.detach_eq hp, ?_,
      h.spares h' hp (h.sound.spares_drop hp) fun q hq => h.below_iff hp hq⟩
    rw [h'.value_eq, h.value_eq, h.sound.value_drop hp]

end Keeps

theorem Shows.exists_answers (h : s.Shows c d) (id : Nat) (v : ProperJson) :
    (s.set c id v.1).isSome ∧ (s.push c id v.1).isSome := by
  obtain ⟨_, hset, -⟩ := (h.set_agrees id v.2).exists_store
  obtain ⟨_, hpush, -⟩ := (h.push_agrees id v.2).exists_store
  constructor
  · rw [← Option.isSome_map, hset, Option.isSome_some]
  · rw [← Option.isSome_map, hpush, Option.isSome_some]

/-- A store that is made from a value has this value. -/
theorem value_ofJson (v : Json) : (ofJson v).value = v := by
  have hcarries : (ofJson v).Carries ((Node.ofJson ⟨0, none⟩ 1 v).entries none) :=
    fun i e => (slot?_ofJson v i e).2
  have hfuel : (Node.ofJson ⟨0, none⟩ 1 v).ids.length ≤ (ofJson v).slots.length := by
    have := v.size_pos
    rw [length_ofJson, Node.ids_ofJson, List.length_cons, List.length_range']
    omega
  have hvalue := valueWithin_eq hcarries hfuel
  rw [Node.id_ofJson, Node.value_ofJson] at hvalue
  rw [value, value?, hvalue]
  rfl

def threeFields : ProperJson :=
  ⟨.obj [("a", .null), ("b", .arr [.bool true]), ("c", .null)], by decide⟩

end Store

end FormSchema
