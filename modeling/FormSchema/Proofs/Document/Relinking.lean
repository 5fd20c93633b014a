import FormSchema.Proofs.Document.History
import FormSchema.Proofs.Schema.Observers

/-!
Linking step by step.  Where no items are told apart by variants, the schema of a node follows from
the schema of the node above it.  Changes link anew only what they touch; still every link follows
from the one above all along, so that to link the whole document again changes nothing.
-/

namespace FormSchema

/-- The schema of all parts at a key, where no variants are told apart. -/
def Schema.part? (u : Schema) : Key → Option Schema
  | .name name => u.at? (.property name)
  | .index _ => u.at? .item

/-- Whether no items are told apart by variants, neither here nor below. -/
def Schema.Unmixed (schema : Schema) : Prop :=
  ∀ path u, schema.sub? path = some u → u.label.mixed = false

namespace Schema

variable {schema u s : Schema} {key : Key}

theorem Unmixed.sub? (h : Unmixed schema) {path : List Slot} (hu : schema.sub? path = some u) :
    Unmixed u := by
  intro more v hv
  refine h (path ++ more) v ?_
  rw [Tree.sub?_append, hu]
  exact hv

theorem exists_slot_of_part? (h : part? u key = some s) :
    ∃ slot : Slot, slot.Fits key ∧ u.at? slot = some s := by
  cases key with
  | name name => exact ⟨.property name, rfl, h⟩
  | index i => exact ⟨.item, trivial, h⟩

theorem Unmixed.part? (h : Unmixed u) (hs : Schema.part? u key = some s) : Unmixed s := by
  obtain ⟨slot, -, hat⟩ := exists_slot_of_part? hs
  have hsub : u.sub? [slot] = some s := by
    rw [Tree.sub?_cons, hat]
    rfl
  exact h.sub? hsub

theorem unmixed_of_places (h : ∀ p ∈ schema.places, p.label.mixed = false) : Unmixed schema := by
  intro path u hu
  obtain ⟨p, hp, rfl⟩ := Tree.exists_place_of_sub? hu
  exact h p (Tree.mem_places_of_place? hp)

theorem part?_before (u : Schema) (gone key : Key) :
    Schema.part? u (gone.before key) = Schema.part? u key := by
  cases gone with
  | name s => rfl
  | index i =>
    cases key with
    | name s => rfl
    | index j =>
      rw [Key.before]
      split <;> rfl

end Schema

/-- The schema that follows for the child at a key of a node that has a schema and a kind. -/
def Schema.following? (schema : Option Schema) (kind : Kind) (key : Key) : Option Schema :=
  schema.bind fun u => if u.label.compatible kind then Schema.part? u key else none

/-- What follows for a child has no variants if what is above it has none. -/
theorem Schema.unmixed_of_following? {schema : Option Schema} {kind : Kind} {key : Key} {s : Schema}
    (unmixed : ∀ u, schema = some u → Schema.Unmixed u)
    (h : Schema.following? schema kind key = some s) : Schema.Unmixed s := by
  obtain ⟨u, hu, h⟩ := Option.bind_eq_some_iff.1 h
  split at h
  · exact (unmixed u hu).part? h
  · cases h

theorem Schema.following?_before (schema : Option Schema) (kind : Kind) (gone key : Key) :
    Schema.following? schema kind (gone.before key) = Schema.following? schema kind key := by
  simp only [Schema.following?, Schema.part?_before]

namespace Node

/-- Whether a schema is the one that follows from the node above. -/
def Follows (parent : Node) (key : Key) (schema : Option Schema) : Prop :=
  schema = Schema.following? parent.schema? parent.kind key

variable {n : Node} {key gone : Key} {schema : Option Schema}

theorem Follows.congr {parent parent' : Node} (h : parent.Follows key schema)
    (htag : parent.tag = parent'.tag) (hkind : parent.kind = parent'.kind) :
    parent'.Follows key schema := by
  rwa [Follows, schema?, ← htag, ← hkind]

theorem Follows.drop (h : n.Follows (gone.before key) schema) :
    (n.drop gone).Follows key schema := by
  rw [Follows, Schema.following?_before] at h
  rwa [Follows, schema?, tag_drop, kind_drop]

theorem follows_none (h : n.schema? = none) : n.Follows key none := by
  rw [Follows, h]
  rfl

end Node

namespace Linking

variable {l : Linking} {schema : Option Schema}

/-- Where no variants are told apart, a child gets the schema that follows. -/
theorem below?_eq (unmixed : ∀ u, schema = some u → Schema.Unmixed u) (p : Place)
    (part : Key × Node) :
    l.below? schema p.node (p.down part) = Schema.following? schema p.node.kind part.1 := by
  cases schema with
  | none => rfl
  | some u =>
    have hmixed : u.label.mixed = false := unmixed u rfl [] u rfl
    obtain ⟨key, child⟩ := part
    cases key with
    | name name => rfl
    | index i => simp [below?, childSchema?, Place.key?, Place.down, hmixed, Schema.following?,
        Schema.part?]

/-- Below a linked node, every schema follows from the one above. -/
theorem follows_link (unmixed : ∀ u, schema = some u → Schema.Unmixed u) (p : Place) :
    (link l schema p.above p.node).Throughout Node.Follows := by
  intro path
  induction path generalizing schema p with
  | nil =>
    intro key parent child hparent hchild
    obtain rfl := Option.some.inj hparent
    rw [get?_link] at hchild
    obtain ⟨m, -, rfl⟩ := Option.map_eq_some_iff.1 hchild
    rw [Node.Follows, schema?_link, schema?_link, kind_link]
    exact below?_eq unmixed p (key, m)
  | cons step path ih =>
    intro key parent child hparent hchild
    rw [Node.at?_cons, get?_link, Option.bind_eq_some_iff] at hparent
    obtain ⟨below, hbelow, hparent⟩ := hparent
    obtain ⟨m, -, rfl⟩ := Option.map_eq_some_iff.1 hbelow
    refine ih (fun u hu => ?_) (p.down (step, m)) hparent hchild
    rw [below?_eq unmixed p (step, m)] at hu
    exact Schema.unmixed_of_following? unmixed hu

/-- To link a node anew changes nothing if every schema below it follows from the one above. -/
theorem link_eq_self {n : Node} (distinct : n.Distinct)
    (unmixed : ∀ u, n.schema? = some u → Schema.Unmixed u) (follows : n.Throughout Node.Follows)
    (above : List (Key × Node)) : link l n.schema? above n = n := by
  induction n using Node.induct generalizing above with
  | step n ih =>
    -- A child gets the schema that follows, which it has already.
    have part (part : Key × Node) (hpart : part ∈ n.children) :
        link l (l.below? n.schema? n ⟨part.2, (part.1, n) :: above⟩) ((part.1, n) :: above) part.2 =
          part.2 := by
      have hget : n.get? part.1 = some part.2 :=
        Key.lookup_eq_some_of_mem (distinct.keys n.at?_nil) hpart
      have hat : n.at? [part.1] = some part.2 := by rw [Node.at?_cons, hget]; rfl
      have hfollows := follows n.at?_nil hget
      rw [show l.below? n.schema? n ⟨part.2, (part.1, n) :: above⟩ = _ from
        below?_eq unmixed ⟨n, above⟩ part, ← hfollows]
      refine ih part hpart (distinct.at? hat) (fun u hu => ?_) (follows.at? hat) _
      exact Schema.unmixed_of_following? unmixed (hfollows.symm.trans hu)
    have children : (link l n.schema? above n).children = n.children := by
      rw [children_link]
      conv_rhs => rw [← List.map_id n.children]
      exact List.map_congr_left fun p hp => Prod.ext rfl (part p hp)
    cases n with
    | leaf tag v => rfl
    | list tag items =>
      rw [link, Node.children_list, Node.children_list] at children
      have hitems := congrArg (List.map (·.2)) children
      rw [Key.map_snd_ofItems, Key.map_snd_ofItems] at hitems
      rw [link, hitems]
      rfl
    | record tag fields =>
      rw [link, Node.children_record, Node.children_record] at children
      rw [link, List.map_injective_iff.2 (fun a b h => by simpa [Prod.ext_iff] using h) children]
      rfl

end Linking

namespace Document

variable {d d' : Document} {p : Place} {c : Compiled}

/-- Below an unlinked node every schema follows, since there are none. -/
theorem Intact.follows_of_unlinked {schema : Schema} (h : d.Intact schema) (hp : d.Has p)
    (hschema : p.node.schema? = none) : p.node.Throughout Node.Follows := by
  intro path key parent child hparent hchild
  have unlinked {more : List Key} {m : Node} (hm : p.node.at? more = some m) : m.schema? = none := by
    obtain ⟨q, hq, -, rfl⟩ := Place.Covers.exists_of_at? p hm
    exact h.schema?_of_covers hp hschema hq
  have hat : p.node.at? (path ++ [key]) = some child := by
    rw [Node.at?_concat, hparent]
    exact hchild
  rw [unlinked hat]
  exact Node.follows_none (unlinked hparent)

/-- A new node with the link of the one that it stands for leaves the links beside it following. -/
theorem beside_of_same_link (follows : d.root.Throughout Node.Follows) (hp : d.Has p) {m : Node}
    (hschema : m.schema? = p.node.schema?) : (d.setAt p m).Beside Node.Follows p.path :=
  beside_setAt (fun htag hkind h => h.congr htag hkind) (beside_of_throughout follows p.path) hp
    fun _ _ _ habove => hschema ▸ hp.of_beside (beside_of_throughout follows p.path) habove

/-- To take a child away leaves all links following. -/
theorem follows_drop (h : d.Sound) (follows : d.root.Throughout Node.Follows) (hp : d.Has p)
    (gone : Key) : (d.setAt p (p.node.drop gone)).root.Throughout Node.Follows := by
  refine throughout_setAt (fun htag hkind h => h.congr htag hkind)
    (beside_of_throughout follows p.path) hp ?_ fun _ _ _ habove => ?_
  · exact Node.Throughout.drop (follows.at? hp.at?_path) gone (h.distinct.keys hp.at?_path)
      fun h => h.drop
  · rw [Node.schema?, Node.tag_drop]
    exact hp.of_beside (beside_of_throughout follows p.path) habove

section

variable (shaped : Schema.Shaped c.schema) (unmixed : Schema.Unmixed c.schema)

include shaped unmixed

namespace Intact

theorem unmixed_of_linked (h : d.Intact c.schema) (hp : d.Has p) :
    ∀ u, p.node.schema? = some u → Schema.Unmixed u := by
  intro u hu
  obtain ⟨path, hsub, -⟩ := h.coherent.exists_path shaped hp hu
  exact unmixed.sub? hsub

theorem variants?_eq_none (h : d.Intact c.schema) (hp : d.Has p) : p.variants? = none := by
  cases hvariants : p.variants? with
  | none => rfl
  | some variants =>
    obtain ⟨key, tag, items, above, u, habove, hu, hmixed, -⟩ :=
      exists_parent_of_variants? hvariants
    obtain ⟨n, above'⟩ := p
    obtain rfl : above' = (key, .list tag items) :: above := habove
    have hunmixed := h.unmixed_of_linked shaped unmixed hp.above_cons.1 u hu
    rw [hunmixed [] u rfl] at hmixed
    cases hmixed

/-- Where the links beside a node follow, all links follow once the node is linked anew. -/
theorem follows_relink (h : d.Intact c.schema) (hp : d.Has p)
    (beside : d.Beside Node.Follows p.path) :
    (d.relink c p.id).1.root.Throughout Node.Follows := by
  rcases relink_cases h.sound hp c with ⟨variants, hvariants, -⟩ | ⟨-, -, heq⟩ | ⟨-, hschema, heq⟩
  · rw [h.variants?_eq_none shaped unmixed hp] at hvariants
    cases hvariants
  · rw [heq]
    refine throughout_setAt (fun htag hkind h => h.congr htag hkind) beside hp
      (Linking.follows_link (h.unmixed_of_linked shaped unmixed hp) p) fun _ _ _ habove => ?_
    rw [Linking.schema?_link]
    exact hp.of_beside beside habove
  · -- The node stays unlinked, and so does what has come in below it.
    rw [heq]
    exact throughout_of_beside hp beside (h.follows_of_unlinked hp hschema)

theorem follows_push (h : d.Intact c.schema) (follows : d.root.Throughout Node.Follows)
    {array : Nat} {v : Json} (hv : v.keysDistinct = true) {out : Document × Nat}
    (hok : d.push c array v = .ok out) : out.1.root.Throughout Node.Follows := by
  obtain ⟨p, tag, items, hp, rfl, hnode, hout⟩ := push_eq_ok h.sound hok
  have hgrown := h.grown hp hnode hv
  obtain ⟨p', hp', hpath, htag⟩ := hp.exists_grown hnode v
  have beside : (d.grown p tag items v).Beside Node.Follows p'.path :=
    hpath ▸ beside_of_same_link follows hp (by rw [hnode]; rfl)
  rw [hout]
  split
  · rw [show p.id = p'.id from (congrArg Tag.id htag).symm]
    exact hgrown.follows_relink shaped unmixed hp' beside
  · rename_i hunlinked
    refine throughout_of_beside hp' beside (hgrown.follows_of_unlinked hp' ?_)
    rw [Node.schema?, htag, hnode]
    exact Option.not_isSome_iff_eq_none.1 hunlinked

/-- After every change, all links follow from those above them. -/
theorem follows_apply (h : d.Intact c.schema) (follows : d.root.Throughout Node.Follows)
    (change : Change) (hok : d.apply c change = .ok d') : d'.root.Throughout Node.Follows := by
  cases change with
  | link =>
    obtain rfl := Except.ok.inj hok
    exact Linking.follows_link (fun u hu => Option.some.inj hu ▸ unmixed) d.rootPlace
  | relink id =>
    obtain rfl := Except.ok.inj hok
    cases hfind : d.find? id with
    | none =>
      rw [Document.relink, hfind]
      exact follows
    | some p =>
      obtain ⟨hp, rfl⟩ := h.sound.find?_eq_some_iff.1 hfind
      exact h.follows_relink shaped unmixed hp (beside_of_throughout follows p.path)
  | set id value =>
    obtain ⟨out, hset, rfl⟩ := map_eq_ok.1 hok
    obtain ⟨p, hp, rfl, -, hout, -⟩ := set_eq_ok h.sound hset
    obtain ⟨p', hp', hpath, hid⟩ := hp.exists_fresh value.1
    have beside : (d.fresh p value.1).Beside Node.Follows p'.path :=
      hpath ▸ beside_of_same_link follows hp (Node.schema?_ofJson _ _ _)
    rw [hout, ← hid]
    exact (h.fresh hp value.2).follows_relink shaped unmixed hp' beside
  | detach id =>
    obtain ⟨out, hdetach, rfl⟩ := map_eq_ok.1 hok
    obtain ⟨n, key, parent, above, hp, -, hout⟩ := detach_eq_ok h.sound hdetach
    rw [hout]
    exact follows_drop h.sound follows hp.above_cons.1 key
  | push array value =>
    obtain ⟨out, hpush, rfl⟩ := map_eq_ok.1 hok
    exact h.follows_push shaped unmixed follows value.2 hpush
  | pushNew array =>
    obtain ⟨out, hpush, rfl⟩ := map_eq_ok.1 hok
    exact h.follows_push shaped unmixed follows (h.keysDistinct_newItem shaped array) hpush

end Intact

theorem Reachable.follows (h : Reachable c d) : d.root.Throughout Node.Follows := by
  induction h with
  | link value =>
    exact Linking.follows_link (fun u hu => Option.some.inj hu ▸ unmixed) (ofJson value.1).rootPlace
  | change change before step ih =>
    exact (before.intact_of_shaped shaped).follows_apply shaped unmixed ih change step

/-- To link a document again changes nothing, if no items are told apart by variants. -/
theorem Reachable.link_eq_self (h : Reachable c d) : (d.link c).1 = d := by
  have intact := h.intact_of_shaped shaped
  have hroot : Linking.link ⟨d, c.userData⟩ (some c.schema) [] d.root = d.root := by
    rw [← intact.coherent.root]
    exact Linking.link_eq_self intact.sound.distinct
      (intact.unmixed_of_linked shaped unmixed (.root d)) (h.follows shaped unmixed) []
  rw [Document.link, hroot]

end

/-- The document after a change, or as it was if the change cannot be made. -/
def attempt (c : Compiled) (d : Document) (change : Change) : Document :=
  match d.apply c change with
  | .ok d' => d'
  | .error _ => d

theorem Reachable.attempt (h : Reachable c d) (change : Change) :
    Reachable c (attempt c d change) := by
  rw [Document.attempt]
  split
  · rename_i d' hstep
    exact h.change change hstep
  · exact h

theorem Reachable.foldl_attempt (h : Reachable c d) (changes : List Change) :
    Reachable c (changes.foldl (Document.attempt c) d) := by
  induction changes generalizing d with
  | nil => exact h
  | cons change changes ih => exact ih (h.attempt change)

/-- Where no items are told apart by variants, a document that has been linked once and then changed
step by step is linked as if it were linked now. -/
theorem link_foldl_attempt {settings : Settings} {cache : Enumeration.Cache} {raw : Json}
    {data : Option Json} (distinct : raw.keysDistinct = true)
    (compiled : (Compilation.compile settings cache raw data).1 = .ok c)
    (unmixed : ∀ p ∈ c.schema.places, p.label.mixed = false) (value : ProperJson)
    (changes : List Change) :
    ((changes.foldl (attempt c) ((ofJson value.1).link c).1).link c).1 =
      changes.foldl (attempt c) ((ofJson value.1).link c).1 :=
  ((Reachable.link value).foldl_attempt changes).link_eq_self
    (Compilation.shaped_of_compile distinct compiled) (Schema.unmixed_of_places unmixed)

/-! A document both parts of which get values of other kinds; then one of them grows by an item, the
other one refuses to, and goes. -/

namespace Mismatched

def value : ProperJson := ⟨.obj [("a", .str "u"), ("b", .str "s")], by decide⟩

def changes : List Change :=
  [.set 1 ⟨.arr [.null], rfl⟩, .set 2 ⟨.bool true, rfl⟩, .push 1 ⟨.str "x", rfl⟩,
    .push 2 ⟨.null, rfl⟩, .detach 2]

def after : Document :=
  changes.foldl (attempt Compilation.Dangling.compiled)
    ((ofJson value.1).link Compilation.Dangling.compiled).1

end Mismatched

/-- Nothing links the items of a value that ought to be a text, neither then nor now. -/
theorem link_foldl_attempt_mismatched :
    Mismatched.after.places.map (fun p => (p.pointer, p.node.schema?.map fun s => s.label.path)) =
        [("", some []), ("/a", some [.property "a"]), ("/a/0", none), ("/a/1", none)] ∧
      (Mismatched.after.link Compilation.Dangling.compiled).1 = Mismatched.after :=
  ⟨by decide +kernel, link_foldl_attempt (by decide) Compilation.Dangling.run_eq
    (by decide +kernel) Mismatched.value Mismatched.changes⟩

end Document

end FormSchema
