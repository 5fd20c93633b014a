import FormSchema.Proofs.Document.History
import FormSchema.Proofs.Schema.Run

/-!
Variants of items.  An item among variants is linked to the first variant that matches it, as of the
last change that linked the item anew.  Other changes leave the link as it is, even if another
variant matches by then.
-/

namespace FormSchema

/-- The variants that the items of a node are told apart by. -/
def variantsBelow? (holder : Tag × Kind) : Option (List Schema) :=
  if holder.2 = .array then
    holder.1.schema.bind fun u => if u.label.mixed then some u.variants else none
  else none

theorem Place.variants?_eq (p : Place) : p.variants? = p.holder?.bind variantsBelow? := by
  obtain ⟨n, above⟩ := p
  cases above with
  | nil => rfl
  | cons step above =>
    obtain ⟨key, parent⟩ := step
    simp only [variants?, parent?, ancestors, ofAbove, List.head?_cons, holder?, Option.map_some,
      Option.bind_some, variantsBelow?]
    by_cases h : parent.kind = .array
    · obtain ⟨tag, items, rfl⟩ := Node.kind_eq_array_iff.1 h
      rw [if_pos h]
      cases hschema : tag.schema <;> simp [Node.schema?, Node.tag, hschema]
    · rw [if_neg h]
      cases parent with
      | list tag items => exact absurd rfl h
      | _ => rfl

namespace Linking

/-- Which variants match depends on the plain value and on the path to the place. -/
theorem matching_congr {d d' : Document} {p q : Place} (hvalue : d.value = d'.value)
    (hp : d.Has p) (hq : d'.Has q) (hpath : p.path = q.path) (userData : Json)
    (variants : List Schema) :
    matching ⟨d, userData⟩ variants p = matching ⟨d', userData⟩ variants q := by
  rw [matching, matching]
  simp only [Document.evaluateAs_eq hp, Document.evaluateAs_eq hq, hvalue, hpath]

end Linking

namespace Document

variable {d d' e : Document} {c : Compiled} {p q : Place}

/-- Whether an item among variants is linked to the first one that matches now. -/
def Picks (c : Compiled) (d : Document) (q : Place) : Prop :=
  ∀ variants, q.variants? = some variants →
    q.node.schema? = (Linking.matching ⟨d, c.userData⟩ variants q).head?

/-- The node above a place that lies properly below another one. -/
theorem exists_parent_of_prefix (hq : d.Has q) (hpre : p.path <+: q.path) (hne : q.path ≠ p.path) :
    ∃ key parent above, q.above = (key, parent) :: above ∧ d.Has ⟨parent, above⟩ ∧
      parent.get? key = some q.node ∧ p.path <+: Place.path ⟨parent, above⟩ := by
  obtain ⟨n, above⟩ := q
  cases above with
  | nil => exact absurd (List.prefix_nil.1 hpre).symm hne
  | cons step above =>
    obtain ⟨key, parent⟩ := step
    rw [Place.path_mk_cons] at hpre hne
    refine ⟨key, parent, above, rfl, hq.above_cons.1, hq.above_cons.2, ?_⟩
    exact (List.prefix_concat_iff.1 hpre).resolve_left fun h => hne h.symm

theorem Intact.variants?_of_unlinked {schema : Schema} (h : d.Intact schema) (hp : d.Has p)
    (hschema : p.node.schema? = none) (hq : d.Has q) (hpre : p.path <+: q.path)
    (hne : q.path ≠ p.path) : q.variants? = none := by
  obtain ⟨key, parent, above, habove, hparent, -, hpre⟩ := exists_parent_of_prefix hq hpre hne
  have := h.schema?_of_covers hp hschema ((hp.covers_iff hparent).2 hpre)
  rw [Place.variants?_eq, Place.holder?, habove, List.head?_cons, Option.map_some, Option.bind_some,
    variantsBelow?, show parent.tag.schema = none from this]
  simp

/-- Below a node that has been linked anew, every item picks its variant. -/
theorem picks_below_link (regular : Schema.Regular c.schema) {s : Option Schema}
    (h : (d.setAt p (Linking.link ⟨d, c.userData⟩ s p.above p.node)).Intact c.schema)
    (hp : d.Has p) (hq : (d.setAt p (Linking.link ⟨d, c.userData⟩ s p.above p.node)).Has q)
    (hpre : p.path <+: q.path) (hne : q.path ≠ p.path) :
    Picks c (d.setAt p (Linking.link ⟨d, c.userData⟩ s p.above p.node)) q := by
  intro variants hvariants
  obtain ⟨key, parent, above, habove, hparent, hget, hpre⟩ := exists_parent_of_prefix hq hpre hne
  obtain ⟨key', tag, items, above', u, habove', hu, hmixed, rfl⟩ :=
    exists_parent_of_variants? hvariants
  obtain ⟨hstep, rfl⟩ := List.cons.inj (habove.symm.trans habove')
  obtain ⟨rfl, rfl⟩ := Prod.mk.inj hstep
  obtain ⟨path, hpath, -⟩ := h.coherent.exists_path regular.shaped hparent hu
  obtain ⟨more, hmore⟩ := hpre
  have hat := hparent.at?_path
  rw [← hmore, at?_setAt_self hp] at hat
  obtain ⟨r, s', hr, hrpath, hlink⟩ := Linking.exists_of_at?_link hat
  have hs' : s' = some u := by
    have := congrArg Node.schema? hlink
    rw [Linking.schema?_link] at this
    exact this.symm.trans hu
  have hkind : r.node.kind = .array := by
    have := congrArg Node.kind hlink
    rw [Linking.kind_link] at this
    exact this.symm
  have hcompatible : u.label.compatible r.node.kind = true := by
    rw [Attributes.compatible, (regular.orderly hpath).mixed hmixed, hkind]
    rfl
  change Node.list tag items = Linking.link _ s' r.above r.node at hlink
  rw [hlink, Linking.get?_link] at hget
  obtain ⟨m, hm, hnode⟩ := Option.map_eq_some_iff.1 hget
  cases key with
  | name name =>
    obtain ⟨tag', items', hlist⟩ := Node.kind_eq_array_iff.1 hkind
    rw [hlist, Node.get?_list_name] at hm
    cases hm
  | index i =>
    have hdown : d.Has (r.down (.index i, m)) := hp.trans (hr.down hm)
    have hqpath : (r.down (.index i, m)).path = q.path := by
      obtain ⟨n, above''⟩ := q
      obtain rfl : above'' = (.index i, .list tag items) :: above := habove
      rw [Place.path_down, Place.path_mk_cons, hrpath, hmore]
    have hlinked : (Linking.link ⟨d, c.userData⟩ s p.above p.node).value = p.value :=
      Linking.value_link
    have hvalue := value_setAt hp hlinked
    rw [← hnode, Linking.schema?_link, hs', Linking.below?, Option.bind_some, if_pos hcompatible,
      Linking.childSchema?, ← Linking.matching_congr hvalue.symm hdown hq hqpath]
    simp [Place.key?, Place.down, hmixed]

/-- Once a node has been linked anew, it and every item below it picks its variant. -/
theorem picks_relink (regular : Schema.Regular c.schema) (h : e.Intact c.schema) (hp : e.Has p)
    (hq : (e.relink c p.id).1.Has q) (hpre : p.path <+: q.path) :
    Picks c (e.relink c p.id).1 q := by
  have hintact := h.relink regular.shaped c p.id
  rcases relink_cases h.sound hp c with ⟨found, hfound, heq⟩ | ⟨hnone, -, heq⟩ | ⟨hnone, hunlinked, heq⟩
  · rw [heq] at hq hintact ⊢
    by_cases hpath : q.path = p.path
    · have hlinked : (Linking.link ⟨e, c.userData⟩
          (Linking.matching ⟨e, c.userData⟩ found p).head? p.above p.node).value = p.value :=
        Linking.value_link
      have hnode := hq.at?_path
      rw [hpath, ← List.append_nil p.path, at?_setAt_self hp] at hnode
      intro variants hvariants
      rw [Place.variants?_eq, holder?_setAt_self hp hq hpath, ← Place.variants?_eq,
        hfound] at hvariants
      obtain rfl := Option.some.inj hvariants
      have hmatch := Linking.matching_congr (value_setAt hp hlinked).symm hp hq hpath.symm
        c.userData found
      rw [← Option.some.inj hnode, Linking.schema?_link]
      exact congrArg List.head? hmatch
    · exact picks_below_link regular hintact hp hq hpre hpath
  · rw [heq] at hq hintact ⊢
    by_cases hpath : q.path = p.path
    · intro variants hvariants
      rw [Place.variants?_eq, holder?_setAt_self hp hq hpath, ← Place.variants?_eq,
        hnone] at hvariants
      cases hvariants
    · exact picks_below_link regular hintact hp hq hpre hpath
  · rw [heq] at hq ⊢
    intro variants hvariants
    by_cases hpath : q.path = p.path
    · rw [hq.eq_of_path_eq hp hpath, hnone] at hvariants
      cases hvariants
    · rw [h.variants?_of_unlinked hp hunlinked hq hpre hpath] at hvariants
      cases hvariants

/-- Whether a place has been there before, with the same identity and schema and among the same
variants. -/
def Carries (d : Document) (q : Place) : Prop :=
  ∃ r, d.Has r ∧ r.node.tag = q.node.tag ∧ r.holder? = q.holder?

theorem carries_setAt (hp : d.Has p) {m : Node} (hq : (d.setAt p m).Has q)
    (apart : ¬ p.path <+: q.path) : Carries d q := by
  obtain ⟨r, hr, -, htag, hholder⟩ := exists_place_setAt hp hq apart
  exact ⟨r, hr, htag, hholder⟩

/-- What lies beside a relinked node has been there before. -/
theorem exists_place_relink (h : e.Sound) (hp : e.Has p) (hq : (e.relink c p.id).1.Has q)
    (apart : ¬ p.path <+: q.path) :
    ∃ r, e.Has r ∧ r.path = q.path ∧ r.node.tag = q.node.tag ∧ r.holder? = q.holder? := by
  rcases relink_cases h hp c with ⟨variants, -, heq⟩ | ⟨-, -, heq⟩ | ⟨-, -, heq⟩
  · exact exists_place_setAt hp (heq ▸ hq) apart
  · exact exists_place_setAt hp (heq ▸ hq) apart
  · exact ⟨q, heq ▸ hq, rfl, rfl, rfl⟩

theorem Has.holder?_eq (h : d.Has p) {path : List Key} {key : Key} (hpath : p.path = path ++ [key]) :
    p.holder? = (d.root.at? path).map fun n => (n.tag, n.kind) := by
  obtain ⟨n, above⟩ := p
  cases above with
  | nil => simp at hpath
  | cons step above =>
    rw [Place.path_mk_cons] at hpath
    obtain ⟨rfl, -⟩ := List.append_inj' hpath rfl
    rw [h.above_cons.1.at?_path]
    rfl

/-- What is left when a part of a node has been taken away has been there before. -/
theorem carries_drop (h : d.Sound) (hp : d.Has p) (gone : Key)
    (hq : (d.setAt p (p.node.drop gone)).Has q) : Carries d q := by
  by_cases hpre : p.path <+: q.path
  · obtain ⟨more, hmore⟩ := hpre
    have keys := h.distinct.keys hp.at?_path
    have hnode := hq.at?_path
    rw [← hmore, at?_setAt_self hp] at hnode
    rcases Node.at?_of_drop keys hnode with ⟨rfl, hdrop⟩ | ⟨hne, hold⟩
    · rw [List.append_nil] at hmore
      exact ⟨p, hp, by rw [hdrop, Node.tag_drop], (holder?_setAt_self hp hq hmore.symm).symm⟩
    · obtain ⟨r, hr, hrpath, hrnode⟩ := Has.exists_of_at? (Node.at?_append_of hp.at?_path hold)
      refine ⟨r, hr, by rw [hrnode], ?_⟩
      obtain ⟨front, last, rfl⟩ := List.eq_nil_or_concat more |>.resolve_left hne
      rw [List.concat_eq_append] at hmore hrpath hnode
      have hqholder := hq.holder?_eq (hmore.symm.trans (List.append_assoc _ _ _).symm)
      rw [at?_setAt_self hp] at hqholder
      cases front with
      | nil =>
        rw [hqholder, hr.holder?_eq hrpath, hp.at?_path, Node.at?_nil, Option.map_some,
          Option.map_some, Node.tag_drop, Node.kind_drop]
      | cons key front =>
        have hrpath : r.path = (p.path ++ gone.before key :: front) ++ [last] := by
          rw [hrpath, List.append_assoc]
          rfl
        rw [hqholder, hr.holder?_eq hrpath, Node.at?_append, hp.at?_path, Option.bind_some]
        obtain ⟨x, hx⟩ : ∃ x, (p.node.drop gone).at? (key :: front) = some x := by
          rw [Node.at?_append, Option.bind_eq_some_iff] at hnode
          exact ⟨_, hnode.choose_spec.1⟩
        rcases Node.at?_of_drop keys hx with ⟨hnil, -⟩ | ⟨-, hx'⟩
        · cases hnil
        · rw [hx]
          exact congrArg (Option.map fun n : Node => (n.tag, n.kind)) hx'
  · exact carries_setAt hp hq hpre

/-- The node that a change links anew, together with all nodes below it. -/
def relinked? (d : Document) : Change → Option Nat
  | .link => some d.root.id
  | .relink id | .set id _ => some id
  | .detach _ => none
  | .push array _ | .pushNew array =>
    ((d.find? array).bind fun place => place.node.schema?).map fun _ => array

/-- The identities of the nodes that a change has linked anew. -/
def relinkedIds (d : Document) (change : Change) (d' : Document) : List Nat :=
  match (d.relinked? change).bind d'.find? with
  | some top => top.subtree.map Place.id
  | none => []

theorem mem_relinkedIds_iff (h : d'.Sound) {change : Change} (hq : d'.Has q) :
    q.id ∈ d.relinkedIds change d' ↔
      ∃ top, d'.Has top ∧ d.relinked? change = some top.id ∧ top.path <+: q.path := by
  have covered {top : Place} (htop : d'.Has top) : q.id ∈ top.subtree.map Place.id ↔ top.Covers q := by
    have hdistinct : top.node.value.keysDistinct = true :=
      Node.keysDistinct_iff.2 fun _ _ hm => (h.distinct.at? htop.at?_path).keys hm
    rw [List.mem_map]
    constructor
    · rintro ⟨r, hr, hid⟩
      have hr := (Place.mem_subtree_iff hdistinct).1 hr
      rwa [h.eq_of_id_eq (htop.trans hr) hq hid] at hr
    · exact fun hcovers => ⟨q, hcovers.mem_subtree, rfl⟩
  rw [relinkedIds]
  cases hrelinked : d.relinked? change with
  | none => simp
  | some id =>
    rw [Option.bind_some]
    cases hfind : d'.find? id with
    | none =>
      refine iff_of_false (by simp) ?_
      rintro ⟨top, htop, hid, -⟩
      rw [h.find?_eq_some_iff.2 ⟨htop, (Option.some.inj hid).symm⟩] at hfind
      cases hfind
    | some top =>
      obtain ⟨htop, rfl⟩ := h.find?_eq_some_iff.1 hfind
      rw [covered htop, htop.covers_iff hq]
      constructor
      · exact fun hpre => ⟨top, htop, rfl, hpre⟩
      · rintro ⟨top', htop', hid, hpre⟩
        rwa [h.eq_of_id_eq htop htop' (Option.some.inj hid)]

/-- Relinking one node, after what came before it has been put in. -/
theorem picks_or_carries_relink (regular : Schema.Regular c.schema) (h : e.Intact c.schema)
    (hp : e.Has p) {change : Change} (hrelinked : d.relinked? change = some p.id)
    (hq : (e.relink c p.id).1.Has q)
    (carried : ∀ r, e.Has r → ¬ p.path <+: r.path → Carries d r) :
    if q.id ∈ d.relinkedIds change (e.relink c p.id).1 then Picks c (e.relink c p.id).1 q
    else Carries d q := by
  have hsound := (h.relink regular.shaped c p.id).sound
  obtain ⟨top, htop, hpath, hid⟩ := exists_relinked h.sound hp c
  split
  · rename_i hmem
    obtain ⟨top', htop', hrelinked', hpre⟩ := (mem_relinkedIds_iff hsound hq).1 hmem
    rw [hrelinked, ← hid] at hrelinked'
    rw [← hsound.eq_of_id_eq htop htop' (Option.some.inj hrelinked'), hpath] at hpre
    exact picks_relink regular h hp hq hpre
  · rename_i hmem
    have apart : ¬ p.path <+: q.path := fun hpre =>
      hmem ((mem_relinkedIds_iff hsound hq).2 ⟨top, htop, by rw [hrelinked, hid], hpath ▸ hpre⟩)
    obtain ⟨r, hr, hrpath, htag, hholder⟩ := exists_place_relink h.sound hp hq apart
    obtain ⟨r', hr', htag', hholder'⟩ := carried r hr (hrpath ▸ apart)
    exact ⟨r', hr', htag'.trans htag, hholder'.trans hholder⟩

theorem link_eq (d : Document) (c : Compiled) :
    (d.link c).1 = d.setAt d.rootPlace (Linking.link ⟨d, c.userData⟩ (some c.schema)
      d.rootPlace.above d.rootPlace.node) := rfl

/-- Linking a document makes every item pick its variant. -/
theorem picks_link (regular : Schema.Regular c.schema) (h : d.Sound) (hq : (d.link c).1.Has q) :
    Picks c (d.link c).1 q := by
  by_cases hpath : q.path = []
  · intro variants hvariants
    obtain ⟨key, tag, items, above, u, habove, -⟩ := exists_parent_of_variants? hvariants
    simp [Place.path, habove] at hpath
  · have hintact := intact_link h c
    rw [link_eq] at hq hintact ⊢
    exact picks_below_link regular hintact (.root d) hq List.nil_prefix hpath

theorem picks_or_carries_push (regular : Schema.Regular c.schema) (h : d.Intact c.schema)
    {change : Change} {array : Nat} {v : Json} (hv : v.keysDistinct = true)
    (hrelinked : d.relinked? change =
      ((d.find? array).bind fun place => place.node.schema?).map fun _ => array)
    {out : Document × Nat} (hok : d.push c array v = .ok out) (hq : out.1.Has q) :
    if q.id ∈ d.relinkedIds change out.1 then Picks c out.1 q
    else Carries d q ∨ q.variants? = none := by
  obtain ⟨p, tag, items, hp, rfl, hnode, hout⟩ := push_eq_ok h.sound hok
  have hgrown := h.grown hp hnode hv
  obtain ⟨p', hp', hpath', htag'⟩ := hp.exists_grown hnode v
  have hid : p'.id = p.id := congrArg Tag.id htag'
  have hschema : p.node.schema? = tag.schema := by rw [hnode]; rfl
  rw [h.sound.find?_eq_some_iff.2 ⟨hp, rfl⟩, Option.bind_some, hschema] at hrelinked
  cases htag : tag.schema with
  | some u =>
    rw [htag, Option.isSome_some, if_pos rfl, ← hid] at hout
    rw [htag, Option.map_some, ← hid] at hrelinked
    rw [hout] at hq ⊢
    have := picks_or_carries_relink regular hgrown hp' hrelinked hq fun r hr apart =>
      carries_setAt hp hr (hpath' ▸ apart)
    split
    · rwa [if_pos ‹_›] at this
    · rw [if_neg ‹_›] at this
      exact .inl this
  | none =>
    rw [htag, Option.isSome_none, if_neg (by simp)] at hout
    rw [hout] at hq ⊢
    rw [relinkedIds, hrelinked, htag]
    simp only [Option.map_none, Option.bind_none, List.not_mem_nil, if_false]
    by_cases hpre : p.path <+: q.path
    · by_cases hpath : q.path = p.path
      · have hqp := hq.eq_of_path_eq hp' (hpath.trans hpath'.symm)
        refine .inl ⟨p, hp, ?_, (holder?_setAt_self hp hq hpath).symm⟩
        rw [hqp, htag']
      · refine .inr (hgrown.variants?_of_unlinked hp' ?_ hq (hpath' ▸ hpre) (hpath' ▸ hpath))
        rw [Node.schema?, htag']
        exact hschema.trans htag
    · exact .inl (carries_setAt hp hq hpre)

/-- Whatever a change links anew picks its variants, and everything else has been there before. -/
theorem picks_or_carries (regular : Schema.Regular c.schema) (h : d.Intact c.schema)
    (change : Change) (hok : d.apply c change = .ok d') (hq : d'.Has q) :
    if q.id ∈ d.relinkedIds change d' then Picks c d' q else Carries d q ∨ q.variants? = none := by
  cases change with
  | link =>
    obtain rfl := Except.ok.inj hok
    split
    · exact picks_link regular h.sound hq
    · rename_i hmem
      refine absurd ((mem_relinkedIds_iff (intact_link h.sound c).sound hq).2 ?_) hmem
      exact ⟨(d.link c).1.rootPlace, .root _, congrArg some Linking.id_link.symm, List.nil_prefix⟩
  | relink id =>
    obtain rfl := Except.ok.inj hok
    cases hfind : d.find? id with
    | none =>
      have hsame : (d.relink c id).1 = d := by rw [relink, hfind]
      rw [hsame] at hq ⊢
      have hnone : d.relinkedIds (.relink id) d = [] := by
        rw [relinkedIds, relinked?, Option.bind_some, hfind]
      rw [hnone, if_neg List.not_mem_nil]
      exact .inl ⟨q, hq, rfl, rfl⟩
    | some p =>
      obtain ⟨hp, rfl⟩ := h.sound.find?_eq_some_iff.1 hfind
      have hrelinked : d.relinked? (.relink p.id) = some p.id := rfl
      have := picks_or_carries_relink regular h hp hrelinked hq fun r hr _ => ⟨r, hr, rfl, rfl⟩
      split
      · rwa [if_pos ‹_›] at this
      · rw [if_neg ‹_›] at this
        exact .inl this
  | set id value =>
    obtain ⟨out, hset, rfl⟩ := map_eq_ok.1 hok
    obtain ⟨p, hp, rfl, -, hout, -⟩ := set_eq_ok h.sound hset
    obtain ⟨p', hp', hpath, hid⟩ := hp.exists_fresh value.1
    rw [← hid] at hout
    rw [hout] at hq ⊢
    have hrelinked : d.relinked? (.set p.id value) = some p'.id := congrArg some hid.symm
    have := picks_or_carries_relink regular (h.fresh hp value.2) hp' hrelinked hq fun r hr apart =>
      carries_setAt hp hr (hpath ▸ apart)
    split
    · rwa [if_pos ‹_›] at this
    · rw [if_neg ‹_›] at this
      exact .inl this
  | detach id =>
    obtain ⟨out, hdetach, rfl⟩ := map_eq_ok.1 hok
    obtain ⟨n, key, parent, above, hp, -, hout⟩ := detach_eq_ok h.sound hdetach
    rw [hout] at hq
    have hnone : d.relinkedIds (.detach id) out.1 = [] := rfl
    rw [hnone, if_neg List.not_mem_nil]
    exact .inl (carries_drop h.sound hp.above_cons.1 key hq)
  | push array value =>
    obtain ⟨out, hpush, rfl⟩ := map_eq_ok.1 hok
    exact picks_or_carries_push regular h value.2 rfl hpush hq
  | pushNew array =>
    obtain ⟨out, hpush, rfl⟩ := map_eq_ok.1 hok
    exact picks_or_carries_push regular h (h.keysDistinct_newItem regular.shaped array) rfl hpush hq

/-- The documents of a history, each with the document right after the last change that linked a
node anew, for every identity. -/
inductive Run (c : Compiled) : Document → (Nat → Document) → Prop where
  | link (value : ProperJson) :
    Run c ((ofJson value.1).link c).1 fun _ => ((ofJson value.1).link c).1
  | change {d d' : Document} {last : Nat → Document} (change : Change) (before : Run c d last)
      (step : d.apply c change = .ok d') :
    Run c d' fun id => if id ∈ d.relinkedIds change d' then d' else last id

theorem Run.reachable {last : Nat → Document} (run : Run c d last) : Reachable c d := by
  induction run with
  | link value => exact .link value
  | change change _ step ih => exact ih.change change step

/-- All along a run, an item is linked as its variants matched when it was linked last. -/
theorem Run.picks (regular : Schema.Regular c.schema) {last : Nat → Document} (run : Run c d last)
    (hq : d.Has q) {variants : List Schema} (hvariants : q.variants? = some variants) :
    ∃ r, (last q.id).Sound ∧ (last q.id).Has r ∧ r.id = q.id ∧
      q.node.schema? = (Linking.matching ⟨last q.id, c.userData⟩ variants r).head? := by
  induction run generalizing q with
  | link value =>
    exact ⟨q, (intact_link (sound_ofJson value.2) c).sound, hq, rfl,
      picks_link regular (sound_ofJson value.2) hq variants hvariants⟩
  | @change d d' last change before step ih =>
    have h := before.reachable.intact regular
    have := picks_or_carries regular h change step hq
    by_cases hmem : q.id ∈ d.relinkedIds change d'
    · rw [if_pos hmem] at this
      simp only [hmem, if_true]
      exact ⟨q, (h.apply regular.shaped change step).sound, hq, rfl, this variants hvariants⟩
    · rw [if_neg hmem] at this
      simp only [hmem, if_false]
      rcases this with ⟨r, hr, htag, hholder⟩ | hnone
      · have hid : r.id = q.id := congrArg Tag.id htag
        rw [Place.variants?_eq, ← hholder, ← Place.variants?_eq] at hvariants
        obtain ⟨r', hsound, hr', hid', hschema⟩ := ih hr hvariants
        rw [← hid]
        exact ⟨r', hsound, hr', hid', by rw [← hschema, Node.schema?, Node.schema?, htag]⟩
      · rw [hnone] at hvariants
        cases hvariants

/-- Every item among variants is linked to the first variant that matched it in the document right
after the last change that linked it anew, and to none if none matched; changes that do not link it
anew leave it so. -/
theorem variant_of_last_relink {settings : Settings} {raw : Json} {data : Option Json}
    (distinct : raw.keysDistinct = true) (compiled : Compilation.run settings raw data = .ok c)
    (valid : c.problems = []) {last : Nat → Document} (run : Run c d last) {item : Place}
    (hitem : item ∈ d.places) {variants : List Schema} (hvariants : item.variants? = some variants) :
    ∃ q ∈ (last item.id).places, q.id = item.id ∧
      item.node.schema? = (Linking.matching ⟨last item.id, c.userData⟩ variants q).head? := by
  have regular := (Compilation.wired_of_run distinct compiled valid).toRegular
  have hq := (run.reachable.intact regular).mem_places_iff.1 hitem
  obtain ⟨q, hsound, hq, hid, hschema⟩ := run.picks regular hq hvariants
  exact ⟨q, hsound.mem_places_iff.2 hq, hid, hschema⟩

/-! An array whose items look at the second one. -/

namespace SecondItem

/-- The variant for all items as long as the second one is `a`. -/
def first : Json := .obj [("type", .str "string"), ("case", .str "parent['1'] === 'a'")]

def second : Json := .obj [("type", .str "string")]

def raw : Json :=
  .obj [("type", .str "array"), ("items", .obj [("oneOf", .arr [first, second])])]

/-- The evaluator of the first variant's `case`. -/
def case : Evaluator :=
  ⟨.boolean, some "parent['1'] === 'a'", .expression
    (.binary .strictEq (.index (.name .parent) (.literal (.str "1"))) (.literal (.str "a")))⟩

/-- The schema whose first variant has these evaluators. -/
def schemaWith (evaluators : List (Keyword × Evaluator)) : Schema :=
  .node { Compilation.typedAs .array ⟨[], raw, true⟩ with widget := "variant-array" }
    [(.variant 0, .node { Compilation.typedAs .string ⟨[.variant 0], first, false⟩ with
        widget := "string", evaluators := evaluators } []),
      (.variant 1, .node { Compilation.typedAs .string ⟨[.variant 1], second, false⟩ with
        widget := "string" } [])]

def schema : Schema := schemaWith [(.case, case)]

def compiled : Compiled := ⟨schema, [], .null⟩

theorem run_eq : Compilation.run {} raw none = .ok compiled := by
  have inline_eq : Definitions.inline .draft7 raw = .ok (raw, []) := by cbv
  have derive_eq : Compilation.derive none ((schemaWith []).map Compilation.underived) =
      .ok (schemaWith [], []) := by cbv
  have wire_eq : Wiring.wire (schemaWith []) = (schema, []) := by cbv
  exact Compilation.run_eq_of_derived inline_eq (by cbv) (by decide +kernel) rfl derive_eq wire_eq
    (by cbv)

/-- Both items are linked to the first variant, and then the second one changes. -/
def before : Document := ((ofJson (.arr [.str "x", .str "a"])).link compiled).1

def change : Change := .set 2 ⟨.str "b", rfl⟩

/-- The path to the schema of a node and the path to the variant that it would pick now. -/
def standing (d : Document) (id : Nat) : Option (Option (List Slot) × Option (List Slot)) := do
  let item ← d.find? id
  let variants ← item.variants?
  return (item.node.schema?.map fun s => s.label.path,
    (Linking.matching ⟨d, compiled.userData⟩ variants item).head?.map fun s => s.label.path)

theorem standing_after :
    (before.apply compiled change).toOption.bind (standing · 1) =
      some (some [.variant 0], some [.variant 1]) := by decide +kernel

/-- The first item stays with its variant, even though another one matches it by then. -/
theorem exists_item :
    ∃ d, before.apply compiled change = .ok d ∧ ∃ item ∈ d.places, ∃ variants,
      item.variants? = some variants ∧
        item.node.schema?.map (fun s => s.label.path) = some [.variant 0] ∧
        (Linking.matching ⟨d, compiled.userData⟩ variants item).head?.map (fun s => s.label.path) =
          some [.variant 1] := by
  obtain ⟨d, hstep, hstanding⟩ := Option.bind_eq_some_iff.1 standing_after
  obtain ⟨item, hitem, hstanding⟩ := Option.bind_eq_some_iff.1 hstanding
  obtain ⟨variants, hvariants, hstanding⟩ := Option.bind_eq_some_iff.1 hstanding
  obtain ⟨hlinked, hpicked⟩ := Prod.mk.inj (Option.some.inj hstanding)
  cases hok : before.apply compiled change with
  | error e =>
    rw [hok] at hstep
    cases hstep
  | ok d' =>
    rw [hok] at hstep
    obtain rfl := Option.some.inj hstep
    exact ⟨d', rfl, item, List.mem_of_find?_eq_some hitem, variants, hvariants, hlinked, hpicked⟩

end SecondItem

/-- After a change of another item, an item can be linked to a variant that matches no more. -/
theorem exists_stale_variant :
    Compilation.run {} SecondItem.raw none = .ok SecondItem.compiled ∧
      SecondItem.compiled.problems = [] ∧
      ∃ d, Reachable SecondItem.compiled d ∧ ∃ item ∈ d.places, ∃ variants,
        item.variants? = some variants ∧
          item.node.schema? ≠
            (Linking.matching ⟨d, SecondItem.compiled.userData⟩ variants item).head? := by
  obtain ⟨d, hstep, item, hitem, variants, hvariants, hlinked, hpicked⟩ := SecondItem.exists_item
  refine ⟨SecondItem.run_eq, rfl, d, .change _ (.link ⟨_, rfl⟩) hstep, item, hitem, variants,
    hvariants, fun heq => ?_⟩
  rw [heq, hpicked] at hlinked
  cases hlinked

/-- The item that keeps its variant was linked last when the whole document was. -/
theorem variant_of_last_relink_item :
    ∃ d last, Run SecondItem.compiled d last ∧ ∃ item ∈ d.places, ∃ variants,
      item.variants? = some variants ∧ ∃ q ∈ (last item.id).places, q.id = item.id ∧
        item.node.schema? =
          (Linking.matching ⟨last item.id, SecondItem.compiled.userData⟩ variants q).head? := by
  obtain ⟨d, hstep, item, hitem, variants, hvariants, -⟩ := SecondItem.exists_item
  have run := Run.change _ (.link ⟨.arr [.str "x", .str "a"], rfl⟩) hstep
  exact ⟨d, _, run, item, hitem, variants, hvariants,
    variant_of_last_relink (by decide) SecondItem.run_eq rfl run hitem hvariants⟩

end Document

end FormSchema
