import FormSchema.Proofs.Document.Dependents
import FormSchema.Proofs.Pointer.Text
import Mathlib.Algebra.BigOperators.Group.List.Basic
import Mathlib.Algebra.GroupWithZero.Nat
import Mathlib.Algebra.Order.BigOperators.Group.List
import Mathlib.Algebra.Order.Group.Nat
import Mathlib.Data.List.Perm.Subperm

/-!
Addresses.  The pointer of a node leads back to it, from the root and, with a count of ancestors
before it, from any other node, as long as positions and counts fit into machine words.  A pointer
that climbs beyond the root says how far it could have climbed.
-/

namespace FormSchema

namespace Node

variable {n m : Node} {key : Key}

theorem length_ids_pos (n : Node) : 0 < n.ids.length := by
  rw [ids_eq]
  exact Nat.succ_pos _

theorem length_ids_eq (n : Node) :
    n.ids.length = (n.children.map fun part => part.2.ids.length).sum + 1 := by
  rw [ids_eq, List.length_cons, List.length_flatMap]

theorem length_ids_lt (h : n.get? key = some m) : m.ids.length < n.ids.length := by
  have hmem := List.mem_map_of_mem (f := fun part : Key × Node => part.2.ids.length)
    (Key.mem_of_lookup h)
  have := List.le_sum_of_mem hmem
  rw [length_ids_eq n]
  exact Nat.lt_succ_of_le this

/-- The position of an item stays below the number of nodes. -/
theorem index_lt_length_ids {i : Nat} (h : n.get? (.index i) = some m) : i < n.ids.length := by
  obtain ⟨tag, items, rfl⟩ := exists_of_get?_index h
  rw [get?_list] at h
  obtain ⟨hlt, -⟩ := List.getElem?_eq_some_iff.1 h
  have := List.length_le_sum_of_one_le
    ((list tag items).children.map fun part => part.2.ids.length)
    (List.forall_mem_map.2 fun part _ => length_ids_pos part.2)
  rw [List.length_map, children_list, Key.ofItems, List.length_mapIdx] at this
  rw [length_ids_eq, children_list, Key.ofItems]
  omega

/-- The ways to the parts of a node are not longer than the node has parts. -/
theorem lt_length_ids_of_at? {path : List Key} (h : n.at? path = some m) :
    path.length < n.ids.length ∧ ∀ i, .index i ∈ path → i < n.ids.length := by
  induction path generalizing n with
  | nil => exact ⟨length_ids_pos n, fun _ hi => by cases hi⟩
  | cons key path ih =>
    obtain ⟨child, hchild, h⟩ := Option.bind_eq_some_iff.1 h
    obtain ⟨hlength, hindex⟩ := ih h
    have hlt := length_ids_lt hchild
    refine ⟨by rw [List.length_cons]; omega, fun i hi => ?_⟩
    rcases List.mem_cons.1 hi with rfl | hi
    · exact index_lt_length_ids hchild
    · exact Nat.lt_trans (hindex i hi) hlt

end Node

namespace Document

variable {d : Document} {a b p : Place}

theorem Sound.length_ids_le (h : d.Sound) : d.root.ids.length ≤ d.next := by
  have hsub : d.root.ids ⊆ List.range d.next := by
    intro id hid
    obtain ⟨path, m, hm, rfl⟩ := Node.exists_at?_of_mem_ids h.keysDistinct hid
    exact List.mem_range.2 (h.fresh hm)
  have := (h.nodup_ids.subperm hsub).length_le
  rwa [List.length_range] at this

/-- Where identities fit into machine words, so do the positions of items and the depths of nodes. -/
theorem Sound.fits (h : d.Sound) (words : d.next ≤ Number.indexBound) (hp : d.Has p) :
    p.path.length < Number.indexBound ∧ ∀ key ∈ p.path, key.IsShort := by
  have hle := Nat.le_trans h.length_ids_le words
  obtain ⟨hlength, hindex⟩ := Node.lt_length_ids_of_at? hp.at?_path
  refine ⟨Nat.lt_of_lt_of_le hlength hle, fun key hkey => ?_⟩
  cases key with
  | name s => trivial
  | index i => exact Nat.lt_of_lt_of_le (hindex i hkey) hle

/-- The tokens of a node lead to it from the root. -/
theorem Has.descend_tokens (hp : d.Has p) (short : ∀ key ∈ p.path, key.IsShort) :
    Pointer.descend d.navigation d.rootPlace p.tokens = some p := by
  induction hp with
  | refl => rfl
  | @down p key child hp step ih =>
    rw [Place.path_down] at short
    rw [Place.tokens_eq, Place.path_down, List.map_append, Pointer.descend_append,
      ← Place.tokens_eq, ih fun key hkey => short key (List.mem_append_left _ hkey)]
    have hkey : key.IsShort := short key (by simp)
    have hchild : p.child? key.token = some (p.down (key, child)) := by
      rw [Place.child?, Node.child?_token step hkey]
      rfl
    exact congrArg (fun next : Option Place => next.bind some) hchild

theorem length_ancestors (p : Place) : p.ancestors.length = p.path.length := by
  have := congrArg List.length p.map_path_ancestors
  simpa [Pointer.above] using this

/-- How pointers lead to the nodes of a document. -/
structure Addressed (d : Document) : Prop where
  byPointer : ∀ b ∈ d.places, d.byPointer? b.pointer = some b
  injective : ∀ a ∈ d.places, ∀ b ∈ d.places, a.pointer = b.pointer → a = b
  /-- A pointer that climbs to an ancestor and goes down by the rest of the way leads to a node. -/
  climbs : ∀ a ∈ d.places, ∀ b ∈ d.places, ∀ (n : Nat) (top : Place) (tokens : List String),
    (a :: a.ancestors)[n]? = some top → b.tokens = top.tokens ++ tokens →
      d.resolve a (n.repr ++ Pointer.join tokens) = .ok (some b)
  /-- A pointer that climbs beyond the root fails, however it is written. -/
  overflows : ∀ a ∈ d.places, ∀ (n : Nat) (tokens : List String), a.ancestors.length < n →
    ∀ source, Pointer.parse source = .ok (.relative n tokens) →
      d.resolve a source = .error (.ancestorOverflow (n.repr ++ Pointer.join tokens) n
        a.ancestors.length)

section Words

variable (h : d.Sound) (words : d.next ≤ Number.indexBound)

include h words

theorem Sound.descend_tokens (hb : b ∈ d.places) :
    Pointer.descend d.navigation d.rootPlace b.tokens = some b := by
  have hb := h.mem_places_iff.1 hb
  exact hb.descend_tokens (h.fits words hb).2

theorem Sound.byPointer?_pointer (hb : b ∈ d.places) : d.byPointer? b.pointer = some b := by
  have hresolve : d.resolve d.rootPlace b.pointer = .ok (some b) := by
    rw [resolve, Pointer.resolveText, Place.pointer, Pointer.parse_join]
    exact congrArg Except.ok (h.descend_tokens words hb)
  rw [byPointer?, hresolve]

theorem Sound.resolve_of_above (ha : a ∈ d.places) (hb : b ∈ d.places) {n : Nat} {top : Place}
    {tokens : List String} (htop : (a :: a.ancestors)[n]? = some top)
    (htokens : b.tokens = top.tokens ++ tokens) :
    d.resolve a (n.repr ++ Pointer.join tokens) = .ok (some b) := by
  have hn : n < Number.indexBound := by
    obtain ⟨hlt, -⟩ := List.getElem?_eq_some_iff.1 htop
    have := (h.fits words (h.mem_places_iff.1 ha)).1
    rw [List.length_cons, length_ancestors] at hlt
    omega
  have htop' : top ∈ d.places := by
    have hancestors := (h.mem_places_iff.1 ha).ofAbove
    rcases List.mem_cons.1 (List.mem_of_getElem? htop) with rfl | hmem
    · exact ha
    · exact h.mem_places_iff.2 (hancestors top hmem)
  have hrest : Pointer.descend d.navigation top tokens = some b := by
    have := h.descend_tokens words hb
    rwa [htokens, Pointer.descend_append, h.descend_tokens words htop'] at this
  rw [resolve, Pointer.resolveText, Pointer.parse_relative hn]
  change Pointer.resolve d.navigation a (.relative n tokens) = _
  exact Pointer.resolve_eq_ok_iff.2 ⟨top, htop, hrest⟩

end Words

theorem resolve_eq_overflow {n : Nat} {tokens : List String} {source : String}
    (hlt : a.ancestors.length < n) (hsource : Pointer.parse source = .ok (.relative n tokens)) :
    d.resolve a source =
      .error (.ancestorOverflow (n.repr ++ Pointer.join tokens) n a.ancestors.length) := by
  have hnone : (a :: a.ancestors)[n]? = none := by
    rw [List.getElem?_eq_none_iff, List.length_cons]
    omega
  rw [resolve, Pointer.resolveText, hsource]
  change Pointer.resolve d.navigation a (.relative n tokens) = _
  rw [Pointer.resolve]
  simp only [navigation, hnone, Pointer.text]

theorem Sound.addressed (h : d.Sound) (words : d.next ≤ Number.indexBound) : d.Addressed where
  byPointer _ := h.byPointer?_pointer words
  injective _ ha _ hb := (h.mem_places_iff.1 ha).eq_of_pointer_eq (h.mem_places_iff.1 hb)
  climbs _ ha _ hb _ _ _ htop htokens := h.resolve_of_above words ha hb htop htokens
  overflows _ _ _ _ hlt _ hsource := resolve_eq_overflow hlt hsource

end Document

end FormSchema
