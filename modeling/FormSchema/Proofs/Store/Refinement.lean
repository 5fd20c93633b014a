import FormSchema.Proofs.Store.Dependents

/-!
Changes of stores and of documents.  With one compiled schema, a change of a store always has an
answer, the one that the document gives; and the store shows the document after the change.
-/

namespace FormSchema

variable {c : Compiled} {s : Store} {d : Document} {id : Nat} {v : Json}

namespace Document

theorem removable_refused (h : id = d.root.id ∨ ¬ d.Live id) :
    d.removable id = .error (if id = d.root.id then .rootChange else .unknownNode id) := by
  rw [removable]
  split
  · rfl
  · rename_i hroot
    have hfind : d.find? id = none := by simpa [Live] using h.resolve_left hroot
    rw [hfind]

theorem Sound.removable_eq {n : Node} {key : Key} {parent : Node} {above : List (Key × Node)}
    (h : d.Sound) (hp : d.Has ⟨n, (key, parent) :: above⟩) :
    d.removable n.id = .ok ⟨n, (key, parent) :: above⟩ := by
  have hroot : n.id ≠ d.root.id := by
    intro hid
    cases congrArg Place.above (h.eq_of_id_eq hp (.root d) hid)
  have hfind := h.find?_eq_some_iff.2 ⟨hp, rfl⟩
  rw [removable, if_neg hroot, show d.find? n.id = _ from hfind]

theorem push_refused (h : ∀ p, d.find? id = some p → p.node.kind ≠ .array) :
    d.push c id v = .error (match d.find? id with
      | none => .unknownNode id
      | some p => .noArray p.pointer) := by
  rw [push]
  cases hfind : d.find? id with
  | none => rfl
  | some p =>
    have hkind := h p hfind
    obtain ⟨n, above⟩ := p
    cases n with
    | list tag items => exact absurd rfl hkind
    | _ => rfl

end Document

namespace Store

/-- Whether a change of a store has the answer that a change of a document has, and leaves a store
that shows what the latter leaves: the changed document, or the same one if it is refused. -/
def Agrees (c : Compiled) (d : Document) {α : Type} (out : Option (Result α)) :
    Except EditError (Document × α) → Prop
  | .ok (d', found) => ∃ s', out = some (.ok found, s') ∧ s'.Shows c d'
  | .error e => ∃ s', out = some (.error e, s') ∧ s'.Shows c d

theorem Agrees.exists_store {α : Type} {out : Option (Result α)}
    {answer : Except EditError (Document × α)} (h : Agrees c d out answer) :
    ∃ s', out.map (·.2) = some s' ∧ s'.Shows c (match answer.map (·.1) with
      | .ok d' => d'
      | .error _ => d) := by
  cases answer with
  | ok found =>
    obtain ⟨s', hout, hshows⟩ := h
    exact ⟨s', by rw [hout]; rfl, hshows⟩
  | error e =>
    obtain ⟨s', hout, hshows⟩ := h
    exact ⟨s', by rw [hout]; rfl, hshows⟩

namespace Shows

theorem set_agrees (h : s.Shows c d) (id : Nat) (hv : v.keysDistinct = true) :
    Agrees c d (s.set c id v) (d.set c id v) := by
  by_cases hmade : id ≠ 0 ∧ s.Live id
  · obtain ⟨n, key, parent, above, hp, rfl⟩ := h.exists_above hmade.1 hmade.2
    have hset : d.set c n.id v = .ok (((d.fresh ⟨n, (key, parent) :: above⟩ v).relink c n.id).1,
        ((d.fresh ⟨n, (key, parent) :: above⟩ v).relink c n.id).1.affected n.id) := by
      rw [Document.set, h.sound.removable_eq hp]
      rfl
    have hreplace := h.replace hp hv
    obtain ⟨out, hrelink, hlinked, -⟩ := hreplace.relink_eq n.id
    obtain ⟨p', hp', -, hid⟩ := hp.exists_fresh v
    have hlive : out.1.Live n.id := by
      rw [live_congr (OnlyLinks.relink hrelink).slots]
      exact hreplace.live_iff.2 (hreplace.sound.live_iff.2 ⟨p', hp', hid⟩)
    obtain ⟨q, hq, hqid⟩ := hlinked.exists_place hlive
    have haffected := hlinked.affected_eq hq
    rw [hqid] at haffected
    have hsome : ¬ (s.slot? n.id).isNone = true := by
      rw [Option.isNone_iff_eq_none, ← Option.not_isSome_iff_eq_none]
      exact not_not.2 hmade.2
    rw [hset]
    refine ⟨out.1, ?_, hlinked⟩
    have hreplaced : (s.replace n.id v).relink c n.id = some out := hrelink
    rw [set, if_neg hmade.1, if_neg hsome, hreplaced]
    simp only [Option.bind_eq_bind, Option.bind_some, haffected]
    rfl
  · rw [not_and_or, not_not] at hmade
    have hrefused : d.set c id v = .error (if id = 0 then .rootChange else .unknownNode id) := by
      rw [Document.set, Document.removable_refused (by rwa [h.root, ← h.live_iff]), h.root]
      rfl
    rw [hrefused]
    exact ⟨s, set_refused c v hmade, h⟩

theorem detach_agrees (h : s.Shows c d) (id : Nat) :
    Agrees c d (some (s.detach id)) (d.detach id) := by
  by_cases hmade : id ≠ 0 ∧ s.Live id
  · obtain ⟨n, key, parent, above, hp, rfl⟩ := h.exists_above hmade.1 hmade.2
    rw [Document.detach, h.sound.removable_eq hp, h.detach_eq hp]
    exact ⟨_, rfl, h.drop hp⟩
  · rw [not_and_or, not_not] at hmade
    rw [Document.detach, Document.removable_refused (by rwa [h.root, ← h.live_iff]), h.root,
      detach_refused hmade]
    exact ⟨s, rfl, h⟩

theorem push_agrees (h : s.Shows c d) (id : Nat) (hv : v.keysDistinct = true) :
    Agrees c d (s.push c id v) (d.push c id v) := by
  by_cases hkind : s.kind? id = some .array
  · obtain ⟨p, tag, items, hp, rfl, hnode⟩ := h.exists_array hkind
    have hfind : d.find? p.id = some p := h.sound.find?_eq_some_iff.2 ⟨hp, rfl⟩
    have hgrown := h.extend hp hnode hv
    have hcontent : s.content? p.id = some (.array (items.map Node.id)) := by
      rw [h.content?_eq hp, hnode]
      rfl
    have hitem : (s.extend p.id v).1 = d.next := by rw [h.extend_eq]
    have hnames : c.Names ((s.extend p.id v).2.links p.id) tag.schema := by
      have hnames := h.names hp
      rw [hnode] at hnames
      rw [h.extend_eq]
      exact hnames
    rw [push, hcontent, Document.push, hfind]
    simp only [hnode]
    generalize hnumber : (s.extend p.id v).2.links p.id = number, hschema : tag.schema = schema
      at hnames
    cases hnames with
    | unlinked =>
      simp only [hitem]
      exact ⟨_, rfl, hgrown⟩
    | @linked x hx =>
      obtain ⟨out, hrelink, hlinked, -⟩ := hgrown.relink_eq p.id
      simp only [hrelink, hitem]
      exact ⟨out.1, rfl, hlinked⟩
  · have hother (p : Place) (hfind : d.find? id = some p) : p.node.kind ≠ .array := by
      obtain ⟨hp, rfl⟩ := h.sound.find?_eq_some_iff.1 hfind
      rw [h.kind?_eq hp] at hkind
      exact fun heq => hkind (congrArg some heq)
    rw [Document.push_refused hother]
    refine ⟨s, (push_refused c v hkind).trans ?_, h⟩
    cases hfind : d.find? id with
    | none =>
      have hdead : ¬ s.Live id := by
        rw [h.live_iff, Document.Live, hfind]
        exact Bool.false_ne_true
      rw [if_neg hdead]
    | some p =>
      obtain ⟨hp, rfl⟩ := h.sound.find?_eq_some_iff.1 hfind
      rw [if_pos (h.live_iff.2 (h.sound.live_iff.2 ⟨p, hp, rfl⟩)), h.pointer_eq hp]

theorem pushNew_agrees (h : s.Shows c d) (shaped : Schema.Shaped c.schema) (id : Nat) :
    Agrees c d (s.pushNew c id) (d.pushNew c id) := by
  have hitem : s.newItem c id = some (d.newItem id) := by
    by_cases hlive : s.Live id
    · obtain ⟨p, hp, rfl⟩ := h.exists_place hlive
      exact h.newItem_eq hp
    · have hlinks : s.links id = none := by
        by_contra hne
        exact hlive (h.linksLive id hne)
      have hfind : d.find? id = none := by
        rw [h.live_iff, Document.Live, Option.not_isSome_iff_eq_none] at hlive
        exact hlive
      rw [newItem, hlinks, Document.newItem, hfind]
      rfl
  have hpush := h.push_agrees id (keysDistinct_newItem shaped hitem)
  rw [pushNew, hitem, Document.pushNew]
  exact hpush

/-- A call of a store does what the change of the document does. -/
theorem perform (h : s.Shows c d) (call : Call) (hcall : call.compiled = c) :
    ∃ s', s.perform call = some s' ∧ s'.Shows c (Document.attempt c d call.change) := by
  have shaped := call.shaped
  rw [hcall] at shaped
  rw [Store.perform, hcall, Document.attempt]
  cases call.change with
  | link => exact ⟨_, rfl, (h.link_eq c).1⟩
  | relink id =>
    obtain ⟨out, hrelink, hlinked, -⟩ := h.relink_eq id
    exact ⟨out.1, congrArg (Option.map (·.1)) hrelink, hlinked⟩
  | set id value => exact (h.set_agrees id value.2).exists_store
  | detach id => exact (h.detach_agrees id).exists_store
  | push array value => exact (h.push_agrees array value.2).exists_store
  | pushNew array => exact (h.pushNew_agrees shaped array).exists_store

theorem foldlM_perform (h : s.Shows c d) {calls : List Call}
    (hcalls : ∀ call ∈ calls, call.compiled = c) :
    ∃ s', calls.foldlM Store.perform s = some s' ∧
      s'.Shows c ((calls.map Call.change).foldl (Document.attempt c) d) := by
  induction calls generalizing s d with
  | nil => exact ⟨s, rfl, h⟩
  | cons call calls ih =>
    obtain ⟨s₁, hstep, hshows⟩ := h.perform call (hcalls call List.mem_cons_self)
    obtain ⟨s', hrun, hshows'⟩ := ih hshows fun other hother =>
      hcalls other (List.mem_cons_of_mem _ hother)
    refine ⟨s', ?_, hshows'⟩
    rw [List.foldlM_cons, hstep]
    exact hrun

end Shows

/-- Calls with one compiled schema never end without an answer, and lead to a store that shows the
document after the same changes. -/
theorem exists_run (value : ProperJson) {calls : List Call}
    (hcalls : ∀ call ∈ calls, call.compiled = c) :
    ∃ s, run value calls = some s ∧ s.Shows c
      ((calls.map Call.change).foldl (Document.attempt c) (.ofJson value.1)) :=
  (shows_ofJson c value.2).foldlM_perform hcalls

end Store

end FormSchema
