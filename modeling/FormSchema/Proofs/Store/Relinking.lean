import FormSchema.Proofs.Document.Editing
import FormSchema.Proofs.Store.Linking

/-!
Links of stores and of documents.  A store shows a document if it holds it and has its links, all of
them by numbers of one compiled schema.  It still does after either has been changed, and the same
goes wrong with the links of both.
-/

namespace FormSchema

open Document (Has Graft)

variable {c : Compiled} {s s' : Store} {d : Document} {p : Place}

/-- The nodes below a place are those that have one of its identities. -/
theorem Document.Sound.covers_of_mem_ids {q : Place} (h : d.Sound) (hp : d.Has p) (hq : d.Has q)
    (hid : q.id ∈ p.node.ids) : p.Covers q := by
  have hdistinct := h.distinct.at? hp.at?_path
  have hkeys : p.node.value.keysDistinct = true :=
    Node.keysDistinct_iff.2 fun _ _ hm => hdistinct.keys hm
  obtain ⟨path, m, hm, hmid⟩ := Node.exists_at?_of_mem_ids hkeys hid
  obtain ⟨r, hr, -, rfl⟩ := Place.Covers.exists_of_at? p hm
  obtain rfl := h.eq_of_id_eq (hp.trans hr) hq hmid
  exact hr

namespace Node

theorem schema?_of_at?_ofJson {tag : Tag} {next : Nat} {v : Json} {path : List Key} {x : Node}
    (htag : tag.schema = none) (h : (ofJson tag next v).at? path = some x) : x.schema? = none := by
  induction path generalizing tag next v with
  | nil =>
    obtain rfl := Option.some.inj h
    rw [schema?_ofJson, htag]
  | cons key path ih =>
    obtain ⟨child, hchild, h⟩ := Option.bind_eq_some_iff.1 h
    obtain ⟨tag', next', v', rfl, htag'⟩ := exists_of_get?_ofJson hchild
    exact ih htag' h

/-- The parts of a new node have new identities and no links. -/
theorem names_ofJson {tag : Tag} {next : Nat} {v : Json} {links : Nat → Option Nat}
    (htag : c.Names (links tag.id) tag.schema) (hnew : ∀ i, next ≤ i → links i = none)
    {path : List Key} {x : Node} (h : (ofJson tag next v).at? path = some x) :
    c.Names (links x.id) x.schema? := by
  cases path with
  | nil =>
    obtain rfl := Option.some.inj h
    rwa [id_ofJson, schema?_ofJson]
  | cons key path =>
    obtain ⟨child, hchild, hx⟩ := Option.bind_eq_some_iff.1 h
    have hids := ids_ofJson tag next v
    rw [ids_eq, id_ofJson] at hids
    have hmem : x.id ∈ List.range' next (v.size - 1) := by
      rw [← (List.cons.inj hids).2]
      exact List.mem_flatMap.2 ⟨_, Key.mem_of_lookup hchild, mem_ids_of_at? hx⟩
    obtain ⟨tag', next', v', rfl, htag'⟩ := exists_of_get?_ofJson hchild
    rw [hnew _ (List.mem_range'_1.1 hmem).1, schema?_of_at?_ofJson htag' hx]
    exact .unlinked

end Node

namespace Store

/-- Whether a store holds a document and has its links. -/
structure Shows (c : Compiled) (s : Store) (d : Document) : Prop extends s.Keeps d where
  names : ∀ {p}, d.Has p → c.Names (s.links p.id) p.node.schema?

/-- After a node has come in, a store shows the document if it has the links of the new node and still
those of the nodes beside it. -/
theorem Keeps.shows_graft {m : Node} {next : Nat} (h : s'.Keeps (d.graft p m next))
    (g : d.Graft p m next)
    (hbeside : ∀ q, d.Has q → ¬ p.Covers q → c.Names (s'.links q.id) q.node.schema?)
    (hnames : ∀ {path x}, m.at? path = some x → c.Names (s'.links x.id) x.schema?) :
    s'.Shows c (d.graft p m next) where
  toKeeps := h
  names {q} hq := by
    by_cases hpre : p.path <+: q.path
    · obtain ⟨more, hpath⟩ := hpre
      have hat := hq.at?_path
      rw [← hpath] at hat
      exact hnames ((Document.at?_setAt_self g.has m more).symm.trans hat)
    · obtain ⟨r, hr, hpath, htag, -⟩ := Document.exists_place_setAt g.has hq hpre
      have hnames := hbeside r hr fun hcovers => hpre (hpath ▸ (g.has.covers_iff hr).1 hcovers)
      rwa [Place.id, Node.id, Node.schema?, htag] at hnames

theorem shows_ofJson (c : Compiled) {v : Json} (hv : v.keysDistinct = true) :
    (ofJson v).Shows c (.ofJson v) where
  toKeeps := keeps_ofJson hv
  names {q} hq := by
    have hlinks : (ofJson v).links = fun _ => none := by
      rw [ofJson, alloc_eq]
      rfl
    refine Node.names_ofJson ?_ (fun i _ => ?_) hq.at?_path
    · rw [hlinks]
      exact .unlinked
    · rw [hlinks]

/-- An identity that has never been given away has no link. -/
theorem Keeps.links_new (h : s.Keeps d) {i : Nat} (hi : d.next ≤ i) : s.links i = none := by
  by_contra hne
  have := lt_of_live (h.linksLive i hne)
  rw [h.length] at this
  omega

namespace Shows

theorem replace (h : s.Shows c d) (hp : d.Has p) {v : Json} (hv : v.keysDistinct = true) :
    (s.replace p.id v).Shows c (d.fresh p v) := by
  have hlinks (i : Nat) : (s.replace p.id v).links i =
      if i ∈ p.node.parts.flatMap Node.ids then none else s.links i := by
    rw [h.replace_eq hp, links_update, links_append, (h.cleared_parts hp).links]
  refine (h.toKeeps.replace hp hv).shows_graft (Document.graft_fresh h.sound hp hv)
    (fun q hq hbeside => ?_) fun hx => Node.names_ofJson ?_ (fun i hi => ?_) hx
  · have hnot : q.id ∉ p.node.parts.flatMap Node.ids := fun hmem => by
      refine hbeside (h.sound.covers_of_mem_ids hp hq ?_)
      rw [p.ids_eq]
      exact List.mem_cons_of_mem _ hmem
    rw [hlinks, if_neg hnot]
    exact h.names hq
  · have hnot : p.node.tag.id ∉ p.node.parts.flatMap Node.ids := (h.nodup_ids hp).1
    rw [hlinks, if_neg hnot]
    exact h.names hp
  · rw [hlinks, h.links_new hi, ite_self]

theorem extend (h : s.Shows c d) (hp : d.Has p) {tag : Tag} {items : List Node}
    (hnode : p.node = .list tag items) {v : Json} (hv : v.keysDistinct = true) :
    (s.extend p.id v).2.Shows c (d.grown p tag items v) := by
  have hlinks : (s.extend p.id v).2.links = s.links := by rw [h.extend_eq]; rfl
  refine (h.toKeeps.extend hp hnode hv).shows_graft (Document.graft_grown h.sound hp hnode hv)
    (fun q hq _ => ?_) fun {path x} hx => ?_
  · rw [hlinks]
    exact h.names hq
  · rw [hlinks]
    have htop := h.names hp
    rcases Node.at?_of_append hx with ⟨-, rfl⟩ | ⟨-, hx⟩ | ⟨more, -, hx⟩
    · rwa [Place.id, hnode] at htop
    · rw [← hnode] at hx
      obtain ⟨q, hq, -, rfl⟩ := Place.Covers.exists_of_at? p hx
      exact h.names (hp.trans hq)
    · refine Node.names_ofJson ?_ (fun i hi => h.links_new (Nat.le_of_succ_le hi)) hx
      rw [h.links_new (Nat.le_refl _)]
      exact .unlinked

theorem drop {n : Node} {key : Key} {parent : Node} {above : List (Key × Node)} (h : s.Shows c d)
    (hp : d.Has ⟨n, (key, parent) :: above⟩) :
    (s.drop parent.id n.id).Shows c (d.setAt ⟨parent, above⟩ (parent.drop key)) := by
  have hparent := hp.above_cons.1
  have g := Document.graft_drop h.sound hparent key
  have hkeeps := h.toKeeps.drop hp
  have hcleared := h.cleared_drop hp
  -- What is still there has not been cleared.
  have hlinks {x : Node} {path : List Key} (hx : (parent.drop key).at? path = some x) :
      (s.drop parent.id n.id).links x.id = s.links x.id := by
    obtain ⟨q, hq, -, rfl⟩ := g.exists_part hx
    have hlive : (s.drop parent.id n.id).slot? q.id = some q.entry := hkeeps.slot?_eq hq
    have hnot : q.id ∉ n.ids := fun hmem => by
      rw [hcleared.entry, if_pos hmem] at hlive
      cases hlive
    exact (hcleared.links q.id).trans (if_neg hnot)
  refine hkeeps.shows_graft g (fun q hq hbeside => ?_) fun {path x} hx => ?_
  · have hnot : q.id ∉ n.ids := fun hmem =>
      hbeside ((Place.Covers.step hp.above_cons.2).trans (h.sound.covers_of_mem_ids hp hq hmem))
    rw [hcleared.links, if_neg hnot]
    exact h.names hq
  · rw [hlinks hx]
    rcases Node.at?_of_drop (h.sound.distinct.keys hparent.at?_path) hx with ⟨-, rfl⟩ | ⟨-, hx⟩
    · have htop := h.names hparent
      rwa [Node.id, Node.schema?, Node.tag_drop]
    · obtain ⟨q, hq, -, rfl⟩ := Place.Covers.exists_of_at? ⟨parent, above⟩ hx
      exact h.names (hparent.trans hq)

end Shows

/-! ## Links -/

/-- To relabel a node leaves the entries of all nodes as they are. -/
theorem Holds.relabel (h : s.Holds d) (hp : d.Has p) (l : Linking) (schema : Option Schema) :
    s.Holds (d.setAt p (Linking.link l schema p.above p.node)) := by
  refine h.graft (Document.graft_link h.sound hp l schema) h.length fun i e => ?_
  rw [Linking.entries_link]
  constructor
  · intro he
    by_cases hi : i ∈ p.node.ids
    · exact .inl ((h.carries hp).mem_of_mem_ids hi he)
    · exact .inr ⟨he, hi⟩
  · rintro (he | ⟨he, -⟩)
    · exact h.carries hp i e he
    · exact he

/-- To unlink a node is to take the links of all below it. -/
theorem Carries.links_unlinkWithin {n : Node} {parent : Option Nat} {fuel : Nat}
    (h : s.Carries (n.entries parent)) (hfuel : n.ids.length ≤ fuel) (i : Nat) :
    (unlinkWithin fuel s n.id).links i = if i ∈ n.ids then none else s.links i := by
  induction fuel generalizing s n parent with
  | zero =>
    have := n.length_ids_pos
    omega
  | succ fuel ih =>
    have hparts (parts : List Node) (hparts : parts ⊆ n.parts) (s' : Store)
        (hslots : s'.slots = s.slots) : ((parts.map Node.id).foldl (unlinkWithin fuel) s').links i =
          if i ∈ parts.flatMap Node.ids then none else s'.links i := by
      induction parts generalizing s' with
      | nil => simp
      | cons m parts ih' =>
        have hm : m ∈ n.parts := hparts List.mem_cons_self
        have hlt := length_ids_part_le hm
        have hcarries : s'.Carries (m.entries (some n.id)) := by
          intro j e he
          rw [slot?_congr hslots]
          exact h.part hm j e he
        rw [List.map_cons, List.foldl_cons, ih' fun x hx => hparts (List.mem_cons_of_mem _ hx),
          ih hcarries (by omega), List.flatMap_cons]
        · by_cases hi : i ∈ m.ids <;> simp [hi]
        · exact (OnlyLinks.unlinkWithin fuel s' m.id).slots.trans hslots
    rw [unlinkWithin, h.children_eq, hparts n.parts (fun _ hm => hm) (s.setLink n.id none) rfl,
      links_setLink, Node.ids_eq_parts]
    by_cases hi : i = n.id <;> simp [hi]

theorem Holds.links_unlink (h : s.Holds d) (hp : d.Has p) (i : Nat) :
    (s.unlink p.id).links i = if i ∈ p.node.ids then none else s.links i :=
  (h.carries hp).links_unlinkWithin (h.fuel hp) i

namespace Shows

/-- A store in which the links below a node have been written anew shows the document with them. -/
theorem relabel (h : s.Shows c d) (hp : d.Has p) {schema : Option Schema} {out : Linked}
    (hlinks : OnlyLinks s out.1) (hmarks : Marks c (s.unlink p.id, []) out (Place.subtree
      ⟨Linking.link ⟨d, c.userData⟩ schema p.above p.node, p.above⟩)) :
    out.1.Shows c (d.linkAt c p schema).1 ∧ out.2 = (d.linkAt c p schema).2 := by
  have hkeeps := h.toKeeps.onlyLinks hlinks
  refine ⟨Keeps.shows_graft ⟨hkeeps.toHolds.relabel hp _ _, hkeeps.linksLive⟩
    (Document.graft_link h.sound hp _ _) (fun q hq hbeside => ?_) fun hx => ?_, hmarks.errors⟩
  · have hnot : q.id ∉ p.node.ids := fun hmem => hbeside (h.sound.covers_of_mem_ids hp hq hmem)
    have hkept := hmarks.beside q.id (by rwa [Linking.map_id_subtree_link])
    rw [hkept, h.links_unlink hp, if_neg hnot]
    exact h.names hq
  · obtain ⟨r, hr, -, rfl⟩ := Place.Covers.exists_of_at?
      ⟨Linking.link ⟨d, c.userData⟩ schema p.above p.node, p.above⟩ hx
    exact hmarks.names r hr.mem_subtree

/-- The variants for an item are, by number, those that the document has for it. -/
theorem variants?_eq (h : s.Shows c d) (hp : d.Has p) : ∃ variants? : Option (List Numbered),
    s.variants? c p.id = some variants? ∧
      variants?.map (List.map Numbered.schema) = p.variants? ∧
        ∀ variants ∈ variants?, ∀ x ∈ variants, c.Numbers x := by
  have hnone : ∀ variants ∈ (none : Option (List Numbered)), ∀ x ∈ variants, c.Numbers x :=
    fun variants hv => by cases hv
  rw [variants?, Place.variants?, h.parent?_eq hp]
  cases hparent : p.parent? with
  | none => exact ⟨none, rfl, rfl, hnone⟩
  | some parent =>
    have hhas : d.Has parent := hp.ofAbove parent (List.mem_of_head? hparent)
    have hnames := h.names hhas
    simp only [Option.map_some]
    rw [h.kind?_eq hhas]
    generalize parent.id = id, parent.node = n at hnames
    cases n with
    | list tag items =>
      have hkind : some (Node.list tag items).kind = some Kind.array := rfl
      rw [if_pos hkind]
      generalize s.links id = number, (Node.list tag items).schema? = schema at hnames
      cases hnames with
      | unlinked => exact ⟨none, rfl, rfl, hnone⟩
      | @linked x hx =>
        have hfound : c.numbered? x.number = some x := hx
        simp only [hfound, Option.map_some]
        by_cases hmixed : x.label.mixed = true
        · refine ⟨some x.variants, by rw [if_pos hmixed], ?_, fun variants hv y hy => ?_⟩
          · rw [Option.map_some, x.map_schema_variants]
            exact (if_pos hmixed).symm
          · obtain rfl := Option.some.inj hv
            exact hx.variant hy
        · exact ⟨none, by rw [if_neg hmixed], (if_neg hmixed).symm, hnone⟩
    | record tag fields => exact ⟨none, rfl, rfl, hnone⟩
    | leaf tag v =>
      have hkind : (Node.leaf tag v).kind ≠ .array := fun hkind => by
        obtain ⟨_, _, hleaf⟩ := Node.kind_eq_array_iff.1 hkind
        cases hleaf
      rw [if_neg fun heq => hkind (Option.some.inj heq)]
      exact ⟨none, rfl, rfl, hnone⟩

/-- To link a node anew, with what is below for it if there is anything. -/
theorem relabel_elim (h : s.Shows c d) (hp : d.Has p) {y? : Option Numbered}
    (hnumbers : ∀ y ∈ y?, c.Numbers y) {out : Linked} (hlinks : OnlyLinks s out.1)
    (hout : out = y?.elim (s.unlink p.id, [])
      fun y => linkWithin c s.slots.length y p.id (s.unlink p.id, [])) :
    out.1.Shows c (d.linkAt c p (y?.map Numbered.schema)).1 ∧
      out.2 = (d.linkAt c p (y?.map Numbered.schema)).2 := by
  have hnone (i : Nat) (hi : i ∈ p.node.ids) : (s.unlink p.id).links i = none := by
    rw [h.links_unlink hp, if_pos hi]
  refine h.relabel hp hlinks ?_
  rw [hout]
  cases y? with
  | none =>
    refine .unlinked (fun q hq => Linking.schema?_of_mem_subtree_link hq) fun q hq => hnone _ ?_
    have hmem := List.mem_map_of_mem (f := Place.id) hq
    rwa [Option.map_none, Linking.map_id_subtree_link] at hmem
  | some y =>
    exact h.walks s.slots.length p y (s.unlink p.id, []) p.above {
      has := hp
      enough := h.fuel hp
      numbers := hnumbers y rfl
      slots := (OnlyLinks.unlinkWithin _ s p.id).slots
      links := hnone
      above_eq := rfl }

theorem parent?_of_dead {id : Nat} (hdead : ¬ s.Live id) : s.parent? id = none := by
  rw [Live, Option.not_isSome_iff_eq_none] at hdead
  rw [parent?, hdead]
  rfl

theorem pointer_of_dead {id : Nat} (hdead : ¬ s.Live id) : s.pointer id = "" := by
  have hparent := parent?_of_dead hdead
  have hancestors : s.ancestors id = [] := by
    rw [ancestors]
    cases s.slots.length with
    | zero => rfl
    | succ fuel => rw [ancestorsWithin, hparent]
  rw [pointer, tokens, path, hancestors]
  simp [key?, hparent]
  rfl

/-- Relinking a store is relinking the document. -/
theorem relink_eq (h : s.Shows c d) (id : Nat) : ∃ out, s.relink c id = some out ∧
    out.1.Shows c (d.relink c id).1 ∧ out.2 = (d.relink c id).2 := by
  by_cases hlive : s.Live id
  · obtain ⟨p, hp, rfl⟩ := h.exists_place hlive
    have hfind : d.find? p.id = some p := h.sound.find?_eq_some_iff.2 ⟨hp, rfl⟩
    obtain ⟨variants?, hvariants, hschemas, hnumbers⟩ := h.variants?_eq hp
    have hunlink : (s.unlink p.id).Holds d := h.of_slots (OnlyLinks.unlinkWithin _ s p.id).slots
    rw [Document.relink, hfind]
    dsimp only
    rw [← hschemas]
    cases variants? with
    | some variants =>
      have hrelink : s.relink c p.id = some (linkItem c variants p.id
          (fun variant => linkWithin c s.slots.length variant p.id) (s.unlink p.id, [])) := by
        rw [relink, hvariants]
        rfl
      have hmatching := hunlink.map_schema_matching hp c variants
      dsimp only [Option.map_some]
      rw [← hmatching, List.head?_map]
      refine ⟨_, hrelink, h.relabel_elim hp (fun y hy => ?_) (.relink hrelink) ?_⟩
      · exact hnumbers variants rfl y (List.mem_of_mem_filter (List.mem_of_head? hy))
      · rw [linkItem]
        cases ((s.unlink p.id).matching c variants p.id).head? <;> rfl
    | none =>
      have hnames := h.names hp
      dsimp only [Option.map_none]
      generalize hnumber : s.links p.id = number, p.node.schema? = schema at hnames
      cases hnames with
      | unlinked =>
        have hrelink : s.relink c p.id = some (s, [⟨s.pointer p.id, .noSchema⟩]) := by
          rw [relink, hvariants]
          simp only [Option.bind_eq_bind, Option.bind_some, hnumber]
          rfl
        exact ⟨_, hrelink, h, by rw [h.pointer_eq hp]⟩
      | @linked x hx =>
        have hfound : c.numbered? x.number = some x := hx
        have hrelink : s.relink c p.id = some
            (linkWithin c s.slots.length x p.id (s.unlink p.id, [])) := by
          rw [relink, hvariants]
          simp only [Option.bind_eq_bind, Option.bind_some, hnumber, hfound]
          rfl
        refine ⟨_, hrelink, h.relabel_elim hp
          (show ∀ y ∈ some x, c.Numbers y from ?_) (.relink hrelink) rfl⟩
        rintro y ⟨rfl⟩
        exact hx
  · have hfind : d.find? id = none := by
      rw [h.live_iff, Document.Live, Option.not_isSome_iff_eq_none] at hlive
      exact hlive
    have hlinks : s.links id = none := by
      by_contra hne
      exact hlive (h.linksLive id hne)
    rw [Document.relink, hfind, relink, variants?, parent?_of_dead hlive]
    simp only [Option.bind_eq_bind, Option.bind_some, hlinks]
    exact ⟨_, rfl, h, by rw [pointer_of_dead hlive]⟩

end Shows

/-- Linking a store is linking the document, whatever links there have been before. -/
theorem Keeps.link_eq (h : s.Keeps d) (c : Compiled) :
    (s.link c).1.Shows c (d.link c).1 ∧ (s.link c).2 = (d.link c).2 := by
  have hroot : d.rootPlace.id = 0 := h.root
  have hblank : ({ s with links := fun _ => none } : Store).Holds d := h.of_slots rfl
  have hmarks := hblank.walks s.slots.length d.rootPlace c.root
    ({ s with links := fun _ => none }, []) [] {
      has := .root d
      enough := h.fuel (.root d)
      numbers := c.numbers_root
      slots := rfl
      links := fun _ _ => rfl
      above_eq := rfl }
  rw [hroot] at hmarks
  have hkeeps := h.onlyLinks (.link s c)
  refine ⟨Keeps.shows_graft ⟨hkeeps.toHolds.relabel (.root d) _ _, hkeeps.linksLive⟩
    (Document.graft_link h.sound (.root d) _ _) (fun q hq hbeside => absurd hq hbeside) fun hx => ?_,
    hmarks.errors⟩
  obtain ⟨r, hr, -, rfl⟩ := Place.Covers.exists_of_at?
    ⟨Linking.link ⟨d, c.userData⟩ (some c.schema) [] d.root, []⟩ hx
  exact hmarks.names r hr.mem_subtree

end Store

end FormSchema
