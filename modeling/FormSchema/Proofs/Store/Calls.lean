import FormSchema.Proofs.Document.Relinking
import FormSchema.Proofs.Schema.Numbering
import FormSchema.Proofs.Store.Changes

/-!
Calls.  A store is made from a value and then changed by calls, each with a compiled schema of its
own.  Linking writes links of nodes and nothing else, so that whatever is called, a store holds some
document, and none of its links is left behind by a node that has gone.
-/

namespace FormSchema

/-- A change together with the compiled schema that it is made with. -/
structure Call where
  compiled : Compiled
  change : Change
  /-- Compiled schemas come from compilation. -/
  compiles : ∃ (settings : Settings) (cache : Enumeration.Cache) (raw : ProperJson)
    (data : Option Json), (Compilation.compile settings cache raw.1 data).1 = .ok compiled

/-- A call with the compiled schema of an object that names a part that is not there. -/
def Call.dangling (change : Change) : Call where
  compiled := Compilation.Dangling.compiled
  change
  compiles := ⟨_, _, ⟨Compilation.Dangling.raw, by decide⟩, _, Compilation.Dangling.run_eq⟩

theorem Call.shaped (call : Call) : Schema.Shaped call.compiled.schema := by
  obtain ⟨settings, cache, raw, data, hcompile⟩ := call.compiles
  exact Compilation.shaped_of_compile raw.2 hcompile

namespace Store

open Document (Later)

variable {s s' s'' : Store} {d : Document} {p : Place} {c : Compiled} {id : Nat}

/-! ## Links -/

/-- Whether only nodes have links. -/
def LinksLive (s : Store) : Prop := ∀ id, s.links id ≠ none → s.Live id

theorem LinksLive.update (h : s.LinksLive) (id : Nat) (f : Content → Content) :
    (s.update id f).LinksLive := by
  intro i hi
  have hlive := h i hi
  rw [Live] at hlive ⊢
  rw [slot?_update]
  split
  · rwa [Option.isSome_map]
  · exact hlive

theorem LinksLive.append (h : s.LinksLive) (entries : List (Nat × Entry)) :
    (s.append entries).LinksLive := by
  intro i hi
  have hlive := h i hi
  rwa [Live, slot?, Store.append, List.getElem?_append_left (lt_of_live hlive)]

theorem LinksLive.cleared {ids : List Nat} (h : s.LinksLive) (hs : Cleared s s' ids) :
    s'.LinksLive := by
  intro i hi
  rw [hs.links] at hi
  rw [Live, hs.entry]
  split at hi
  · exact absurd rfl hi
  · rw [if_neg ‹_›]
    exact h i hi

/-- Whether a store is another one with other links, of which new ones are only those of nodes. -/
structure OnlyLinks (s s' : Store) : Prop where
  slots : s'.slots = s.slots
  links : ∀ id, s'.links id ≠ none → s.links id ≠ none ∨ s.Live id

theorem slot?_congr (h : s'.slots = s.slots) : s'.slot? = s.slot? := by
  funext id
  rw [slot?, slot?, h]

theorem live_congr (h : s'.slots = s.slots) : s'.Live id ↔ s.Live id := by
  rw [Live, Live, slot?_congr h]

theorem Holds.of_slots (h : s.Holds d) (hslots : s'.slots = s.slots) : s'.Holds d where
  sound := h.sound
  root := h.root
  length := by rw [hslots, h.length]
  entry := by
    rw [slot?_congr hslots]
    exact h.entry

namespace OnlyLinks

theorem refl (s : Store) : OnlyLinks s s := ⟨rfl, fun _ => .inl⟩

theorem trans (h : OnlyLinks s s') (h' : OnlyLinks s' s'') : OnlyLinks s s'' where
  slots := h'.slots.trans h.slots
  links id hid := by
    rcases h'.links id hid with hold | hlive
    · exact h.links id hold
    · exact .inr ((live_congr h.slots).1 hlive)

theorem linksLive (h : OnlyLinks s s') (hlive : s.LinksLive) : s'.LinksLive := fun id hid =>
  (live_congr h.slots).2 ((h.links id hid).elim (hlive id) fun hid => hid)

theorem setLink {number : Option Nat} (h : number ≠ none → s.Live id) :
    OnlyLinks s (s.setLink id number) where
  slots := rfl
  links i hi := by
    rw [links_setLink] at hi
    split at hi
    · exact .inr (‹i = id› ▸ h hi)
    · exact .inl hi

theorem foldl {α : Type} {f : Linked → α → Linked} (hf : ∀ out x, OnlyLinks out.1 (f out x).1)
    (out : Linked) (l : List α) : OnlyLinks out.1 (l.foldl f out).1 := by
  induction l generalizing out with
  | nil => exact refl _
  | cons x l ih => exact (hf out x).trans (ih _)

theorem linkItem {variants : List Numbered} {item : Nat} {link : Numbered → Linked → Linked}
    (hlink : ∀ variant out, OnlyLinks out.1 (link variant out).1) (out : Linked) :
    OnlyLinks out.1 (linkItem c variants item link out).1 := by
  rw [Store.linkItem]
  split
  · exact refl _
  · exact hlink _ out

theorem linkWithin (fuel : Nat) (schema : Numbered) (id : Nat) (out : Linked) :
    OnlyLinks out.1 (linkWithin c fuel schema id out).1 := by
  induction fuel generalizing schema id out with
  | zero => exact refl _
  | succ fuel ih =>
    obtain ⟨s, errors⟩ := out
    rw [Store.linkWithin]
    cases hcontent : s.content? id with
    | none => exact refl _
    | some content =>
      have hlive : s.Live id := by
        obtain ⟨e, he, -⟩ := Option.map_eq_some_iff.1 hcontent
        rw [Live, he]
        rfl
      have hfirst : OnlyLinks s (s.setLink id (some schema.number)) := setLink fun _ => hlive
      refine hfirst.trans ?_
      dsimp only
      split
      · cases content with
        | scalar value => exact refl _
        | object fields =>
          refine foldl (fun out field => ?_) (s.setLink id (some schema.number), errors) fields
          split
          · exact refl _
          · exact ih _ _ _
        | array items =>
          dsimp only
          split
          · exact foldl (fun out item => linkItem (fun variant => ih variant item) out)
              (s.setLink id (some schema.number), errors) items
          · split
            · exact refl _
            · exact foldl (fun out item => ih _ item out)
                (s.setLink id (some schema.number), errors) items
      · exact refl _

theorem unlinkWithin (fuel : Nat) (s : Store) (id : Nat) :
    OnlyLinks s (unlinkWithin fuel s id) := by
  induction fuel generalizing s id with
  | zero => exact refl _
  | succ fuel ih =>
    have hfirst : OnlyLinks s (s.setLink id none) := setLink fun hnone => absurd rfl hnone
    rw [Store.unlinkWithin]
    refine hfirst.trans ?_
    generalize s.setLink id none = s'
    induction s.children id generalizing s' with
    | nil => exact refl _
    | cons child children ih' => exact (ih s' child).trans (ih' _)

theorem link (s : Store) (c : Compiled) : OnlyLinks s (s.link c).1 where
  slots := (linkWithin s.slots.length c.root 0 ({ s with links := fun _ => none }, [])).slots
  links id hid := by
    rcases (linkWithin s.slots.length c.root 0 ({ s with links := fun _ => none }, [])).links id hid
      with hnone | hlive
    · exact absurd rfl hnone
    · exact .inr hlive

theorem relink {out : Linked} (h : s.relink c id = some out) : OnlyLinks s out.1 := by
  obtain ⟨variants?, -, h⟩ := Option.bind_eq_some_iff.1 h
  cases variants? with
  | some variants =>
    obtain rfl := Option.some.inj h
    exact (unlinkWithin _ s id).trans
      (linkItem (fun variant => linkWithin _ variant id) (s.unlink id, []))
  | none =>
    cases hnumber : s.links id with
    | none =>
      simp only [hnumber] at h
      obtain rfl := Option.some.inj h
      exact refl s
    | some number =>
      simp only [hnumber] at h
      obtain ⟨schema, -, h⟩ := Option.bind_eq_some_iff.1 h
      obtain rfl := Option.some.inj h
      exact (unlinkWithin _ s id).trans (linkWithin _ schema id (s.unlink id, []))

end OnlyLinks

/-! ## What changes come to -/

theorem set_refused (c : Compiled) (v : Json) (h : id = 0 ∨ ¬ s.Live id) :
    s.set c id v = some (.error (if id = 0 then .rootChange else .unknownNode id), s) := by
  rw [set]
  by_cases hroot : id = 0
  · rw [if_pos hroot, if_pos hroot]
  · have hdead := h.resolve_left hroot
    rw [Live, Option.not_isSome_iff_eq_none, ← Option.isNone_iff_eq_none] at hdead
    rw [if_neg hroot, if_neg hroot, if_pos hdead]

/-- To set a value is to replace the node and to link. -/
theorem set_eq_some {v : Json} (hroot : id ≠ 0) (hlive : s.Live id) {out : Result (List Nat)}
    (h : s.set c id v = some out) :
    OnlyLinks (s.replace id v) out.2 ∧ ∃ changed, out.1 = .ok changed := by
  have hnone : ¬ (s.slot? id).isNone = true := by
    rw [Option.isNone_iff_eq_none, ← Option.not_isSome_iff_eq_none]
    exact not_not.2 hlive
  rw [set, if_neg hroot, if_neg hnone] at h
  obtain ⟨linked, hrelink, h⟩ := Option.bind_eq_some_iff.1 h
  obtain ⟨changed, -, h⟩ := Option.bind_eq_some_iff.1 h
  obtain rfl := Option.some.inj h
  exact ⟨.relink hrelink, changed, rfl⟩

theorem detach_refused (h : id = 0 ∨ ¬ s.Live id) :
    s.detach id = (.error (if id = 0 then .rootChange else .unknownNode id), s) := by
  rw [detach]
  by_cases hroot : id = 0
  · rw [if_pos hroot, if_pos hroot]
  · have hdead := h.resolve_left hroot
    rw [Live, Option.not_isSome_iff_eq_none] at hdead
    rw [if_neg hroot, if_neg hroot, hdead]

theorem Holds.detach_eq {n : Node} {key : Key} {parent : Node} {above : List (Key × Node)}
    (h : s.Holds d) (hp : d.Has ⟨n, (key, parent) :: above⟩) :
    s.detach n.id = (.ok n.value, s.drop parent.id n.id) := by
  have hroot : n.id ≠ 0 := by
    intro hid
    have heq := h.sound.eq_of_id_eq hp (.root d) (hid.trans h.root.symm)
    cases congrArg Place.above heq
  have hentry : s.slot? n.id = some (Place.entry ⟨n, (key, parent) :: above⟩) := h.slot?_eq hp
  have hvalue : s.value? n.id = some n.value := h.value?_eq hp
  rw [detach, if_neg hroot, hentry, hvalue]
  rfl

theorem push_refused (c : Compiled) (v : Json) (h : s.kind? id ≠ some .array) :
    s.push c id v =
      some (.error (if s.Live id then .noArray (s.pointer id) else .unknownNode id), s) := by
  rw [kind?, content?] at h
  rw [push, content?]
  by_cases hlive : s.Live id
  · obtain ⟨e, he⟩ := Option.isSome_iff_exists.1 hlive
    rw [if_pos hlive, he, Option.map_some]
    rw [he] at h
    cases hcontent : e.content with
    | array items => exact absurd (by simp [hcontent, Content.kind]) h
    | _ => rfl
  · rw [if_neg hlive]
    rw [Live, Option.not_isSome_iff_eq_none] at hlive
    rw [hlive]
    rfl

/-- To push a value is to append an item and to link. -/
theorem push_eq_some {v : Json} (h : s.kind? id = some .array) {out : Result Nat}
    (hpush : s.push c id v = some out) :
    OnlyLinks (s.extend id v).2 out.2 ∧ out.1 = .ok (s.extend id v).1 := by
  obtain ⟨content, hcontent, hkind⟩ := Option.map_eq_some_iff.1 h
  rw [push, hcontent] at hpush
  cases content with
  | scalar value =>
    obtain ⟨tag, items, hleaf⟩ := (Node.kind_eq_array_iff (n := .leaf ⟨0, none⟩ value)).1 hkind
    cases hleaf
  | object fields => cases hkind
  | array items =>
    dsimp only at hpush
    split at hpush
    · obtain rfl := Option.some.inj hpush
      exact ⟨.refl _, rfl⟩
    · obtain ⟨linked, hrelink, hpush⟩ := Option.bind_eq_some_iff.1 hpush
      obtain rfl := Option.some.inj hpush
      exact ⟨.relink hrelink, rfl⟩

/-- No key stands twice in the value that a new item starts with. -/
theorem keysDistinct_newItem (shaped : Schema.Shaped c.schema) {v : Json}
    (h : s.newItem c id = some v) : v.keysDistinct = true := by
  rw [newItem] at h
  cases hnumber : s.links id with
  | none =>
    rw [hnumber] at h
    obtain rfl := Option.some.inj h
    rfl
  | some number =>
    rw [hnumber] at h
    obtain ⟨schema, hschema, rfl⟩ := Option.map_eq_some_iff.1 h
    have hnumbers := (Compiled.numbers_of_numbered? hschema).2
    have item {item : Numbered} (hitem : c.Numbers item) :
        (Schema.initial item.schema).keysDistinct = true := by
      obtain ⟨path, hpath⟩ := hitem.exists_path (shaped.slotsDistinct c.schema.sub?_nil)
      exact shaped.keysDistinct_initial hpath
    dsimp only
    split
    · cases hhead : schema.variants.head? with
      | none => rfl
      | some v => exact item (hnumbers.variant (List.mem_of_head? hhead))
    · cases hitem : schema.at? .item with
      | none => rfl
      | some v => exact item (hnumbers.at? hitem)

/-! ## Runs -/

/-- What holds of a store all along: it holds a document, and only nodes have links. -/
structure Keeps (s : Store) (d : Document) : Prop extends s.Holds d where
  linksLive : s.LinksLive

theorem keeps_ofJson {v : Json} (hv : v.keysDistinct = true) : (ofJson v).Keeps (.ofJson v) where
  toHolds := holds_ofJson hv
  linksLive id hid := by
    rw [ofJson, alloc_eq] at hid
    exact absurd rfl hid

namespace Keeps

theorem onlyLinks (h : s.Keeps d) (hs : OnlyLinks s s') : s'.Keeps d :=
  ⟨h.of_slots hs.slots, hs.linksLive h.linksLive⟩

theorem replace (h : s.Keeps d) (hp : d.Has p) {v : Json} (hv : v.keysDistinct = true) :
    (s.replace p.id v).Keeps (d.fresh p v) where
  toHolds := h.toHolds.replace hp hv
  linksLive := by
    rw [h.replace_eq hp]
    exact ((h.linksLive.cleared (h.cleared_parts hp)).append _).update _ _

theorem extend (h : s.Keeps d) (hp : d.Has p) {tag : Tag} {items : List Node}
    (hnode : p.node = .list tag items) {v : Json} (hv : v.keysDistinct = true) :
    (s.extend p.id v).2.Keeps (d.grown p tag items v) where
  toHolds := h.toHolds.extend hp hnode hv
  linksLive := by
    rw [h.extend_eq]
    exact (h.linksLive.append _).update _ _

theorem drop {n : Node} {key : Key} {parent : Node} {above : List (Key × Node)} (h : s.Keeps d)
    (hp : d.Has ⟨n, (key, parent) :: above⟩) :
    (s.drop parent.id n.id).Keeps (d.setAt ⟨parent, above⟩ (parent.drop key)) where
  toHolds := h.toHolds.drop hp
  linksLive := (h.linksLive.update _ _).cleared (h.cleared_drop hp)

/-- The place of a node, and the way to it if it is not the root. -/
theorem exists_above (h : s.Keeps d) (hroot : id ≠ 0) (hlive : s.Live id) :
    ∃ n key parent above, d.Has ⟨n, (key, parent) :: above⟩ ∧ n.id = id := by
  obtain ⟨⟨n, above⟩, hp, rfl⟩ := h.exists_place hlive
  cases above with
  | nil => exact absurd (congrArg Node.id hp.above_nil |>.trans h.root) hroot
  | cons step above => exact ⟨n, step.1, step.2, above, hp, rfl⟩

theorem exists_array (h : s.Keeps d) (hkind : s.kind? id = some .array) :
    ∃ p tag items, d.Has p ∧ p.id = id ∧ p.node = .list tag items := by
  have hlive : s.Live id := by
    rw [kind?, content?, Option.map_map] at hkind
    obtain ⟨e, he, -⟩ := Option.map_eq_some_iff.1 hkind
    rw [Live, he]
    rfl
  obtain ⟨p, hp, rfl⟩ := h.exists_place hlive
  rw [h.kind?_eq hp] at hkind
  obtain ⟨tag, items, hnode⟩ := Node.kind_eq_array_iff.1 (Option.some.inj hkind)
  exact ⟨p, tag, items, hp, rfl, hnode⟩

end Keeps

/-- The store after a call; there is none if a link is none of the compiled schema of the call. -/
def perform (s : Store) (call : Call) : Option Store :=
  match call.change with
  | .link => some (s.link call.compiled).1
  | .relink id => (s.relink call.compiled id).map (·.1)
  | .set id value => (s.set call.compiled id value.1).map (·.2)
  | .detach id => some (s.detach id).2
  | .push array value => (s.push call.compiled array value.1).map (·.2)
  | .pushNew array => (s.pushNew call.compiled array).map (·.2)

/-- The store that a value becomes by calls. -/
def run (value : ProperJson) (calls : List Call) : Option Store :=
  calls.foldlM perform (ofJson value.1)

theorem Keeps.push (h : s.Keeps d) {v : Json} (hv : v.keysDistinct = true) {out : Result Nat}
    (hpush : s.push c id v = some out) : ∃ d', Later d d' ∧ out.2.Keeps d' := by
  by_cases hkind : s.kind? id = some .array
  · obtain ⟨p, tag, items, hp, rfl, hnode⟩ := h.exists_array hkind
    have hlinks := (push_eq_some hkind hpush).1
    exact ⟨_, (Document.graft_grown h.sound hp hnode hv).later h.sound,
      (h.extend hp hnode hv).onlyLinks hlinks⟩
  · obtain rfl := Option.some.inj ((push_refused c v hkind).symm.trans hpush)
    exact ⟨d, .refl d, h⟩

/-- After a call, a store holds a later document. -/
theorem Keeps.perform (h : s.Keeps d) (call : Call) (hs : s.perform call = some s') :
    ∃ d', Later d d' ∧ s'.Keeps d' := by
  rw [Store.perform] at hs
  cases hchange : call.change with
  | link =>
    rw [hchange] at hs
    obtain rfl := Option.some.inj hs
    exact ⟨d, .refl d, h.onlyLinks (.link s _)⟩
  | relink id =>
    rw [hchange] at hs
    obtain ⟨out, hrelink, rfl⟩ := Option.map_eq_some_iff.1 hs
    exact ⟨d, .refl d, h.onlyLinks (.relink hrelink)⟩
  | set id value =>
    rw [hchange] at hs
    obtain ⟨out, hset, rfl⟩ := Option.map_eq_some_iff.1 hs
    by_cases hmade : id ≠ 0 ∧ s.Live id
    · obtain ⟨p, hp, rfl⟩ := h.exists_place hmade.2
      exact ⟨_, (Document.graft_fresh h.sound hp value.2).later h.sound,
        (h.replace hp value.2).onlyLinks (set_eq_some hmade.1 hmade.2 hset).1⟩
    · have hrefused := set_refused call.compiled value.1 (by rwa [not_and_or, not_not] at hmade)
      obtain rfl := Option.some.inj (hrefused.symm.trans hset)
      exact ⟨d, .refl d, h⟩
  | detach id =>
    rw [hchange] at hs
    obtain rfl := Option.some.inj hs
    by_cases hmade : id ≠ 0 ∧ s.Live id
    · obtain ⟨n, key, parent, above, hp, rfl⟩ := h.exists_above hmade.1 hmade.2
      rw [h.detach_eq hp]
      exact ⟨_, (Document.graft_drop h.sound hp.above_cons.1 key).later h.sound, h.drop hp⟩
    · rw [detach_refused (by rwa [not_and_or, not_not] at hmade)]
      exact ⟨d, .refl d, h⟩
  | push array value =>
    rw [hchange] at hs
    obtain ⟨out, hpush, rfl⟩ := Option.map_eq_some_iff.1 hs
    exact h.push value.2 hpush
  | pushNew array =>
    rw [hchange] at hs
    obtain ⟨out, hpush, rfl⟩ := Option.map_eq_some_iff.1 hs
    obtain ⟨v, hv, hpush⟩ := Option.bind_eq_some_iff.1 hpush
    exact h.push (keysDistinct_newItem call.shaped hv) hpush

theorem Keeps.foldlM_perform (h : s.Keeps d) (calls : List Call)
    (hs : calls.foldlM Store.perform s = some s') : ∃ d', Later d d' ∧ s'.Keeps d' := by
  induction calls generalizing s d with
  | nil =>
    obtain rfl := Option.some.inj hs
    exact ⟨d, .refl d, h⟩
  | cons call calls ih =>
    rw [List.foldlM_cons] at hs
    obtain ⟨s₁, hstep, hs⟩ := Option.bind_eq_some_iff.1 hs
    obtain ⟨d₁, hlater, hkeeps⟩ := h.perform call hstep
    obtain ⟨d', hlater', hkeeps'⟩ := ih hkeeps hs
    exact ⟨d', hlater.trans hlater', hkeeps'⟩

/-- Whatever is called, a store holds a document and only nodes have links. -/
theorem keeps_run {value : ProperJson} {calls : List Call} (hs : run value calls = some s) :
    ∃ d, s.Keeps d := by
  obtain ⟨d, -, hkeeps⟩ := (keeps_ofJson value.2).foldlM_perform calls hs
  exact ⟨d, hkeeps⟩

/-- What comes of more calls comes later. -/
theorem exists_later_run {value : ProperJson} {calls more : List Call} (hs : run value calls = some s)
    (hs' : run value (calls ++ more) = some s') : ∃ d d', s.Keeps d ∧ s'.Keeps d' ∧ Later d d' := by
  obtain ⟨d, hkeeps⟩ := keeps_run hs
  rw [run, List.foldlM_append, Option.bind_eq_bind, show calls.foldlM perform _ = some s from hs]
    at hs'
  obtain ⟨d', hlater, hkeeps'⟩ := hkeeps.foldlM_perform more hs'
  exact ⟨d, d', hkeeps, hkeeps', hlater⟩

end Store

end FormSchema
