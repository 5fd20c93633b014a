import FormSchema.Proofs.Store.Refinement
import Mathlib.Logic.Relation

/-!
Who holds whom.  In a store that comes about by calls, every node but the root is a child of one node,
its parent, and only once; the nodes are those that children lead to from the root, and only they
have links.  A node that has gone never comes back.
-/

namespace FormSchema.Store

open Document (Later)

variable {s s' : Store} {d : Document}

/-- Whether one node is a child of another one. -/
def Contains (s : Store) (owner item : Nat) : Prop := item ∈ s.children owner

/-- The children of all slots, as often as they are children. -/
def contained (s : Store) : List Nat := (List.range s.slots.length).flatMap s.children

/-- How the nodes of a store hang together. -/
structure Owned (s : Store) : Prop where
  root : s.Live 0
  live_iff : ∀ id, s.Live id ↔ Relation.ReflTransGen s.Contains 0 id
  /-- Every node but the root is a child once. -/
  once : ∀ id, s.Live id → id ≠ 0 → s.contained.count id = 1
  root_apart : s.contained.count 0 = 0
  parent : ∀ owner item, s.Contains owner item → s.parent? item = some owner
  linked : ∀ id, s.links id ≠ none → s.Live id

namespace Holds

variable {owner item : Nat}

theorem root_live (h : s.Holds d) : s.Live 0 :=
  h.live_iff.2 (h.sound.live_iff.2 ⟨d.rootPlace, .root d, h.root⟩)

/-- A child of a node stands at a place right below it. -/
theorem exists_child (h : s.Holds d) (hitem : s.Contains owner item) :
    ∃ p q, d.Has p ∧ p.id = owner ∧ q ∈ p.children ∧ q.id = item := by
  have hlive : s.Live owner := by
    by_contra hdead
    rw [Live, Option.not_isSome_iff_eq_none] at hdead
    simp [Contains, children, content?, hdead] at hitem
  obtain ⟨p, hp, rfl⟩ := h.exists_place hlive
  rw [Contains, h.children_eq hp, ← p.map_id_children] at hitem
  obtain ⟨q, hq, rfl⟩ := List.mem_map.1 hitem
  exact ⟨p, q, hp, rfl, hq, rfl⟩

theorem live_of_contains (h : s.Holds d) (hitem : s.Contains owner item) : s.Live item := by
  obtain ⟨p, q, hp, -, hq, rfl⟩ := h.exists_child hitem
  exact h.live_iff.2 (h.sound.live_iff.2 ⟨q, h.sound.children hp hq, rfl⟩)

theorem parent?_of_contains (h : s.Holds d) (hitem : s.Contains owner item) :
    s.parent? item = some owner := by
  obtain ⟨p, q, hp, rfl, hq, rfl⟩ := h.exists_child hitem
  obtain ⟨part, -, rfl⟩ := List.mem_map.1 hq
  exact h.parent?_eq (h.sound.children hp hq)

/-- Children lead from the root to every node. -/
theorem reachable (h : s.Holds d) {p : Place} (hp : d.Has p) :
    Relation.ReflTransGen s.Contains 0 p.id := by
  induction hp with
  | refl =>
    have hroot : d.rootPlace.id = 0 := h.root
    rw [hroot]
  | @down p key child above step ih =>
    refine ih.tail ?_
    rw [Contains, h.children_eq above]
    exact List.mem_map_of_mem (Node.mem_parts_of_get? step)

theorem live_iff_reachable (h : s.Holds d) (id : Nat) :
    s.Live id ↔ Relation.ReflTransGen s.Contains 0 id := by
  constructor
  · intro hlive
    obtain ⟨p, hp, rfl⟩ := h.exists_place hlive
    exact h.reachable hp
  · intro hreach
    cases hreach with
    | refl => exact h.root_live
    | tail _ hlast => exact h.live_of_contains hlast

/-- No node is a child twice, for that it would need two parents or stand twice below one. -/
theorem nodup_contained (h : s.Holds d) : s.contained.Nodup := by
  rw [contained, List.nodup_flatMap]
  refine ⟨fun owner _ => ?_, List.nodup_range.imp fun {i j} hne item hi hj => hne ?_⟩
  · by_cases hlive : s.Live owner
    · obtain ⟨p, hp, rfl⟩ := h.exists_place hlive
      rw [h.children_eq hp]
      exact h.sound.nodup_parts hp
    · rw [Live, Option.not_isSome_iff_eq_none] at hlive
      simp [children, content?, hlive]
  · have hparent := h.parent?_of_contains (show s.Contains i item from hi)
    rw [h.parent?_of_contains (show s.Contains j item from hj)] at hparent
    exact (Option.some.inj hparent).symm

theorem parent?_root (h : s.Holds d) : s.parent? 0 = none := by
  have hparent := h.parent?_eq (.root d)
  have hroot : d.rootPlace.id = 0 := h.root
  rw [hroot] at hparent
  exact hparent

end Holds

theorem mem_contained {item : Nat} : item ∈ s.contained ↔ ∃ owner, s.Contains owner item := by
  rw [contained, List.mem_flatMap]
  refine exists_congr fun owner => and_iff_right_of_imp fun hitem => List.mem_range.2 ?_
  by_contra hle
  have hnone : s.slot? owner = none := by
    rw [slot?, List.getElem?_eq_none (Nat.le_of_not_lt hle)]
    rfl
  simp [children, content?, hnone] at hitem

theorem Keeps.owned (h : s.Keeps d) : s.Owned where
  root := h.root_live
  live_iff := h.live_iff_reachable
  once id hlive hne := by
    refine List.count_eq_one_of_mem h.nodup_contained (mem_contained.2 ?_)
    cases (h.live_iff_reachable id).1 hlive with
    | refl => exact absurd rfl hne
    | tail _ hlast => exact ⟨_, hlast⟩
  root_apart := by
    rw [List.count_eq_zero, mem_contained]
    rintro ⟨owner, hroot⟩
    have hparent := h.parent?_of_contains hroot
    rw [h.parent?_root] at hparent
    cases hparent
  parent _ _ := h.parent?_of_contains
  linked := h.linksLive

/-- What remains true of slots while a store changes: none is given up, and a node that comes in gets
a new one. -/
structure Succeeds (s s' : Store) : Prop where
  length_le : s.slots.length ≤ s'.slots.length
  fresh : ∀ {id}, s'.Live id → s.Live id ∨ s.slots.length ≤ id

/-- A node that has gone never comes back. -/
theorem Succeeds.dead {s'' : Store} (h : Succeeds s s') (h' : Succeeds s' s'') {id : Nat}
    (hlive : s.Live id) (hdead : ¬ s'.Live id) : ¬ s''.Live id := by
  intro hagain
  rcases h'.fresh hagain with hid | hle
  · exact hdead hid
  · have := lt_of_live hlive
    have := h.length_le
    omega

theorem succeeds_run {value : ProperJson} {calls more : List Call} (hs : run value calls = some s)
    (hs' : run value (calls ++ more) = some s') : Succeeds s s' := by
  obtain ⟨d, d', h, h', hlater⟩ := exists_later_run hs hs'
  constructor
  · rw [h.length, h'.length]
    exact hlater.next_le
  · intro id hlive
    rw [h.live_iff, h.length]
    exact hlater.live (h'.live_iff.1 hlive)

/-- Whatever is called, the nodes of a store hang together, a node that has gone stays away, and a
node that comes in has an identity that no node has had before.  With one compiled schema the calls
always lead to a store. -/
theorem owned_run (value : ProperJson) (calls : List Call) :
    (∀ c, (∀ call ∈ calls, call.compiled = c) → ∃ s, run value calls = some s) ∧
      ∀ s, run value calls = some s → s.Owned ∧
        (∀ more still s' s'', run value (calls ++ more) = some s' →
          run value (calls ++ more ++ still) = some s'' →
            ∀ id, s.Live id → ¬ s'.Live id → ¬ s''.Live id) ∧
        ∀ call s', run value (calls ++ [call]) = some s' → ∀ id, ¬ s.Live id → s'.Live id →
          s.slots.length ≤ id ∧
            ∀ earlier s₀, earlier <+: calls → run value earlier = some s₀ → ¬ s₀.Live id := by
  refine ⟨fun c hcalls => ?_, fun s hs => ⟨?_, ?_, ?_⟩⟩
  · obtain ⟨s, hs, -⟩ := exists_run value hcalls
    exact ⟨s, hs⟩
  · obtain ⟨d, hkeeps⟩ := keeps_run hs
    exact hkeeps.owned
  · intro more still s' s'' hs' hs'' id hlive hdead
    exact (succeeds_run hs hs').dead (succeeds_run hs' hs'') hlive hdead
  · intro call s' hs' id hdead hlive
    have hnew := ((succeeds_run hs hs').fresh hlive).resolve_left hdead
    refine ⟨hnew, ?_⟩
    rintro earlier s₀ ⟨rest, rfl⟩ hs₀ hearlier
    have := lt_of_live hearlier
    have := (succeeds_run hs₀ hs).length_le
    omega

namespace Superseded

def value : ProperJson := ⟨.arr [.null, .bool true], by decide⟩

def calls : List Call := [.dangling .link, .dangling (.detach 1), .dangling (.set 0 value)]

end Superseded

/-- The first item is taken away and a new one is pushed: the new one gets an identity of its own. -/
theorem owned_run_superseded :
    ∃ s s', run Superseded.value Superseded.calls = some s ∧
      run Superseded.value (Superseded.calls ++ [.dangling (.push 0 ⟨.null, rfl⟩)]) = some s' ∧
        s.contained.count 2 = 1 ∧ ¬ s.Live 1 ∧ s'.Live 3 ∧
          ¬ (ofJson Superseded.value.1).Live 3 := by
  have hbefore : (run Superseded.value Superseded.calls).any fun s =>
      decide (s.Live 2 ∧ ¬ s.Live 1 ∧ ¬ s.Live 3) := by
    decide +kernel
  have hafter : (run Superseded.value
      (Superseded.calls ++ [.dangling (.push 0 ⟨.null, rfl⟩)])).any fun s => decide (s.Live 3) := by
    decide +kernel
  rw [Option.any_eq_true] at hbefore hafter
  obtain ⟨s, hs, hbefore⟩ := hbefore
  obtain ⟨s', hs', hafter⟩ := hafter
  obtain ⟨hkept, hgone, hnew⟩ := of_decide_eq_true hbefore
  obtain ⟨howned, -, hfresh⟩ := (owned_run Superseded.value Superseded.calls).2 s hs
  obtain ⟨-, hnever⟩ := hfresh _ s' hs' 3 hnew (of_decide_eq_true hafter)
  exact ⟨s, s', hs, hs', howned.once 2 hkept (by decide), hgone, of_decide_eq_true hafter,
    hnever [] _ List.nil_prefix rfl⟩

end FormSchema.Store
