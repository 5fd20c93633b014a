import FormSchema.Proofs.Document.Relinking
import FormSchema.Proofs.Schema.Run

/-!
The values that new instances start with.  If no schema says itself what its instances start with,
they start with a value that fits, part by part, and a new item of an array is linked without
complaint.
-/

namespace FormSchema

namespace Attributes

variable {a : Attributes} {children : List (Slot × Json)}

/-- What a schema starts with by itself has a kind that fits. -/
theorem compatible_initial (hdefault : a.keyword? "default" = none)
    (hconst : a.keyword? "const" = none) (children : List (Slot × Json)) :
    a.compatible (Kind.ofJson (a.initial children)) = true := by
  rw [compatible, initial, hdefault, hconst]
  cases hbase : a.base with
  | none => rfl
  | some base =>
    dsimp only
    cases a.nullable with
    | true => exact Bool.or_true _
    | false => cases base <;> rfl

/-- What a schema starts with by itself has no other parts than its properties. -/
theorem exists_property_of_initial (hdefault : a.keyword? "default" = none)
    (hconst : a.keyword? "const" = none) {part : Key × Json}
    (h : part ∈ (a.initial children).children) :
    ∃ name, part.1 = .name name ∧ (.property name, part.2) ∈ children := by
  rw [initial, hdefault, hconst] at h
  dsimp only at h
  split at h
  · cases h
  · split at h
    · rw [filterMap_eq_named (fun _ _ => rfl) (fun _ => rfl) fun _ _ => rfl] at h
      obtain ⟨field, hfield, rfl⟩ := List.mem_map.1 h
      exact ⟨field.1, rfl, mem_named_iff.1 hfield⟩
    all_goals cases h

end Attributes

namespace Schema

variable {s t : Schema}

/-- Whether neither a schema nor one below it says itself what its instances start with. -/
def Unset (s : Schema) : Prop :=
  ∀ a ∈ s.labels, a.keyword? "default" = none ∧ a.keyword? "const" = none

theorem Unset.label (h : Unset s) :
    s.label.keyword? "default" = none ∧ s.label.keyword? "const" = none :=
  h _ (by rw [Tree.labels_eq]; exact List.mem_cons_self)

theorem Unset.child (h : Unset s) {part : Slot × Schema} (hpart : part ∈ s.children) :
    Unset part.2 := by
  intro a ha
  refine h a ?_
  rw [Tree.labels_eq]
  exact List.mem_cons_of_mem _ (List.mem_flatMap.2 ⟨part, hpart, ha⟩)

theorem Unset.compatible (h : Unset s) : s.label.compatible (Kind.ofJson (initial s)) = true := by
  rw [initial, Tree.fold_eq]
  exact Attributes.compatible_initial h.label.1 h.label.2 _

/-- The parts of what a schema starts with are what its properties start with. -/
theorem Unset.exists_property (h : Unset s) {part : Key × Json}
    (hpart : part ∈ (initial s).children) :
    ∃ name t, part = (.name name, initial t) ∧ (.property name, t) ∈ s.children := by
  rw [initial, Tree.fold_eq] at hpart
  obtain ⟨name, hkey, hmem⟩ := Attributes.exists_property_of_initial h.label.1 h.label.2 hpart
  obtain ⟨child, hchild, heq⟩ := List.mem_map.1 hmem
  obtain ⟨hslot, hvalue⟩ := Prod.mk.inj heq
  refine ⟨name, child.2, Prod.ext hkey hvalue.symm, ?_⟩
  rw [← hslot]
  exact hchild

end Schema

namespace Linking

/-- A node with the value that a schema starts with fits the schema when it is linked to it, and so
does everything below. -/
theorem mismatches_link_initial (l : Linking) {s : Schema} (distinct : s.SlotsDistinct)
    (unset : Schema.Unset s) {n : Node} (hvalue : n.value = Schema.initial s)
    (above above' : List (Key × Node)) :
    Place.mismatches ⟨link l (some s) above n, above'⟩ = [] := by
  induction s using Tree.induct generalizing n above above' with
  | step s ih =>
    have compatible : s.label.compatible n.kind = true := by
      rw [Node.kind_eq, hvalue]
      exact unset.compatible
    rw [Place.mismatches, List.filterMap_eq_nil_iff, Place.subtree_eq, List.forall_mem_cons]
    constructor
    · simp [Place.mismatch?, compatible]
    · rw [List.forall_mem_flatMap, children_link, List.forall_mem_map]
      rintro ⟨key, child⟩ hpart
      have hinitial : (key, child.value) ∈ (Schema.initial s).children := by
        rw [← hvalue, Node.children_value]
        exact List.mem_map_of_mem hpart
      obtain ⟨name, t, heq, ht⟩ := unset.exists_property hinitial
      obtain ⟨rfl, hchild⟩ := Prod.mk.inj heq
      have hbelow : l.below? (some s) n ⟨child, (.name name, n) :: above⟩ = some t := by
        rw [below?, Option.bind_some, if_pos compatible]
        exact distinct.at? ht
      rw [hbelow]
      exact List.filterMap_eq_nil_iff.1
        (ih _ ht (distinct.child ht) (unset.child ht) hchild _ _)

end Linking

namespace Place

theorem pointer_of_mismatch? {p : Place} {e : LinkError} (h : p.mismatch? = some e) :
    e.pointer = p.pointer := by
  rw [mismatch?] at h
  split at h
  · cases h
  · split at h
    · cases h
    · rw [← Option.some.inj h]

end Place

namespace Document

variable {d : Document} {c : Compiled} {array : Place} {u s : Schema}

/-- To relink a linked node gives everything below it the schemas that follow from its own. -/
theorem Intact.relink_eq (shaped : Schema.Shaped c.schema) (unmixed : Schema.Unmixed c.schema)
    (h : d.Intact c.schema) {p : Place} (hp : d.Has p) (hu : p.node.schema? = some u) :
    (d.relink c p.id).1 =
      d.setAt p (Linking.link ⟨d, c.userData⟩ (some u) p.above p.node) := by
  rcases relink_cases h.sound hp c with ⟨variants, hvariants, -⟩ | ⟨-, -, heq⟩ | ⟨-, hnone, -⟩
  · rw [h.variants?_eq_none shaped unmixed hp] at hvariants
    cases hvariants
  · rw [heq, hu]
  · rw [hu] at hnone
    cases hnone

/-- A value that is pushed to an array with one schema for all items becomes the last item and is
linked to that schema. -/
theorem Intact.exists_pushed (shaped : Schema.Shaped c.schema) (unmixed : Schema.Unmixed c.schema)
    (h : d.Intact c.schema) (harray : d.Has array) {tag : Tag} {items : List Node}
    (hnode : array.node = .list tag items) (hu : array.node.schema? = some u)
    (compatible : u.label.compatible .array = true) (hitem : u.at? .item = some s) {v : Json}
    (hv : v.keysDistinct = true) :
    ∃ d' item, d.push c array.id v = .ok (d', item.id) ∧ d'.Has item ∧
      item.path = array.path ++ [.index items.length] ∧ item.value = v ∧
      item.node.schema? = some s := by
  have hgrown := h.grown harray hnode hv
  have hfind : d.find? array.id = some array := h.sound.find?_eq_some_iff.2 ⟨harray, rfl⟩
  have hlinked : tag.schema = some u := by
    rw [hnode] at hu
    exact hu
  obtain ⟨p, hp, hpath, hp'⟩ : ∃ p, (d.grown array tag items v).Has p ∧ p.path = array.path ∧
      p.node = .list tag (items ++ [Node.ofJson ⟨d.next, none⟩ (d.next + 1) v]) :=
    harray.setAt_self _
  have hid : p.id = array.id := by rw [Place.id, Place.id, hp', hnode]; rfl
  have hschema : p.node.schema? = some u := by rw [hp']; exact hlinked
  have hkind : p.node.kind = .array := by rw [hp']; rfl
  have hget : p.node.get? (.index items.length) =
      some (Node.ofJson ⟨d.next, none⟩ (d.next + 1) v) := by
    rw [hp', Node.get?_list, List.getElem?_concat_length]
  have hpush : d.push c array.id v =
      .ok (((d.grown array tag items v).relink c p.id).1, d.next) := by
    rw [Document.push, hfind, hid]
    simp only [hnode, hlinked]
    rfl
  rw [hgrown.relink_eq shaped unmixed hp hschema] at hpush
  -- The item gets the schema that follows below the array.
  have hat := at?_setAt_self hp (Linking.link ⟨d.grown array tag items v, c.userData⟩ (some u)
    p.above p.node) [.index items.length]
  have unmixed' : ∀ t, some u = some t → Schema.Unmixed t :=
    hschema ▸ hgrown.unmixed_of_linked shaped unmixed hp
  rw [Node.at?_cons, Linking.get?_link, hget, Option.map_some, Option.bind_some, Node.at?_nil,
    Linking.below?_eq unmixed', hkind, Schema.following?, Option.bind_some, if_pos compatible,
    Schema.part?, hitem] at hat
  obtain ⟨item, hitem, hitemPath, hitemNode⟩ := Has.exists_of_at? hat
  refine ⟨_, item, ?_, hitem, ?_, ?_, ?_⟩
  · rw [hpush, Place.id, hitemNode, Linking.id_link, Node.id_ofJson]
  · rw [hitemPath, hpath]
  · rw [Place.value, hitemNode, Linking.value_link, Node.value_ofJson]
  · rw [hitemNode, Linking.schema?_link]

/-- A new item starts with what its schema starts with. -/
theorem newItem_eq (hfind : d.find? array.id = some array) (hu : array.node.schema? = some u)
    (hmixed : u.label.mixed = false) (hitem : u.at? .item = some s) :
    d.newItem array.id = Schema.initial s := by
  rw [newItem, hfind]
  simp [hu, hmixed, hitem]

/-- Where no variants are told apart, the complaints of a whole link about a linked subtree are those
of the subtree. -/
theorem Reachable.not_mem_link_of_mismatches (shaped : Schema.Shaped c.schema)
    (unmixed : Schema.Unmixed c.schema) (h : Reachable c d) {top : Place} (htop : d.Has top)
    (fits : top.mismatches = []) {e : LinkError} (he : e ∈ (d.link c).2) {q : Place}
    (hq : q ∈ top.subtree) : e.pointer ≠ q.pointer := by
  intro hpointer
  have sound := (h.intact_of_shaped shaped).sound
  have herrors : (d.link c).2 = (d.link c).1.rootPlace.mismatches := rfl
  rw [herrors, h.link_eq_self shaped unmixed] at he
  obtain ⟨r, hr, hmismatch⟩ := List.mem_filterMap.1 he
  have hqd : d.Has q :=
    sound.mem_places_iff.1 (Place.mem_subtree_trans (sound.mem_places_iff.2 htop) hq)
  rw [Place.pointer_of_mismatch? hmismatch] at hpointer
  obtain rfl := (sound.mem_places_iff.1 hr).eq_of_pointer_eq hqd hpointer
  rw [List.filterMap_eq_nil_iff.1 fits r hq] at hmismatch
  cases hmismatch

/-- A node with the value that its schema starts with fits, with everything below it. -/
theorem Reachable.mismatches_eq_nil (shaped : Schema.Shaped c.schema)
    (unmixed : Schema.Unmixed c.schema) (h : Reachable c d) {top : Place} (htop : d.Has top)
    (hs : top.node.schema? = some s) (unset : Schema.Unset s)
    (hvalue : top.value = Schema.initial s) : top.mismatches = [] := by
  have intact := h.intact_of_shaped shaped
  obtain ⟨path, hsub, -⟩ := intact.coherent.exists_path shaped htop hs
  have hself := Linking.link_eq_self (l := ⟨d, c.userData⟩)
    (intact.sound.distinct.at? htop.at?_path) (intact.unmixed_of_linked shaped unmixed htop)
    ((h.follows shaped unmixed).at? htop.at?_path) top.above
  have hfits := Linking.mismatches_link_initial ⟨d, c.userData⟩ (shaped.slotsDistinct hsub) unset
    hvalue top.above top.above
  rw [hs] at hself
  rwa [hself] at hfits

/-- If nothing is said of what the instances of a schema start with, neither there nor below, then
what they start with is linked to the schema without complaint.  So is a new item of an array, where
no items are told apart by variants: it comes last, it is linked to the schema of all items, and to
link the whole document again leads to no complaint about it or about anything below it. -/
theorem initial_fits {settings : Settings} {cache : Enumeration.Cache} {raw : Json}
    {data : Option Json} (distinct : raw.keysDistinct = true)
    (compiled : (Compilation.compile settings cache raw data).1 = .ok c) (valid : c.problems = [])
    {place : Tree.Place Attributes} (hplace : place ∈ c.schema.places)
    (unset : ∀ a ∈ place.tree.labels, a.keyword? "default" = none ∧ a.keyword? "const" = none) :
    (∀ (d : Document) (p : Place), p.value = Schema.initial place.tree →
      (d.linkAt c p (some place.tree)).2 = []) ∧
    ((∀ q ∈ c.schema.places, q.label.mixed = false) → ∀ d, Reachable c d → ∀ array ∈ d.places,
      array.node.kind = .array → ∀ u, array.node.schema? = some u →
      u.at? .item = some place.tree →
        ∃ d' item, d.pushNew c array.id = .ok (d', item.id) ∧ item ∈ d'.places ∧
          item.path = array.path ++ [.index array.node.children.length] ∧
          item.value = Schema.initial place.tree ∧ item.node.schema? = some place.tree ∧
          (d'.link c).1 = d' ∧ ∀ e ∈ (d'.link c).2, ∀ q ∈ item.subtree, e.pointer ≠ q.pointer) := by
  obtain ⟨_, _, _, passes⟩ := Compilation.exists_passes compiled valid
  have regular := passes.regular distinct
  have shaped := regular.shaped
  constructor
  · intro d p hvalue
    have hsub := (shaped.hasAt_of_mem_places hplace).sub?
    exact Linking.mismatches_link_initial _ (shaped.slotsDistinct hsub) unset hvalue _ _
  · intro plain d reachable array harray hkind u hu hitem
    have unmixed := Schema.unmixed_of_places plain
    have intact := reachable.intact regular
    have harray := intact.mem_places_iff.1 harray
    obtain ⟨tag, items, hnode⟩ := Node.kind_eq_array_iff.1 hkind
    obtain ⟨path, hsub, -⟩ := intact.coherent.exists_path shaped harray hu
    have hmem := Tree.mem_slots_of_at? hitem
    have compatible : u.label.compatible .array = true := by
      rw [Attributes.compatible, (regular.orderly hsub).base _ hmem]
      rfl
    have hnew : d.newItem array.id = Schema.initial place.tree :=
      newItem_eq (intact.sound.find?_eq_some_iff.2 ⟨harray, rfl⟩) hu
        ((regular.orderly hsub).item hmem) hitem
    obtain ⟨d', item, hpush, hitem', hpath, hvalue, hschema⟩ :=
      intact.exists_pushed shaped unmixed harray hnode hu compatible hitem
        (hnew ▸ intact.keysDistinct_newItem shaped array.id)
    have hpushNew : d.pushNew c array.id = .ok (d', item.id) := by
      rw [pushNew, hnew]
      exact hpush
    have reachable' : Reachable c d' :=
      reachable.change (.pushNew array.id) (map_eq_ok.2 ⟨_, hpushNew, rfl⟩)
    have hlength : array.node.children.length = items.length := by
      rw [hnode]
      simp [Node.children]
    refine ⟨d', item, hpushNew, (reachable'.intact regular).mem_places_iff.2 hitem', ?_, hvalue,
      hschema, reachable'.link_eq_self shaped unmixed, ?_⟩
    · rw [hpath, hlength]
    · intro e he q hq
      exact reachable'.not_mem_link_of_mismatches shaped unmixed hitem'
        (reachable'.mismatches_eq_nil shaped unmixed hitem' hschema unset hvalue) he hq

/-! An array of rows.  What a row is made of follows from other keywords than `type`. -/

namespace Rows

def name : Json := .obj [("type", .ofStrings ["string", "null"])]

def count : Json := .obj [("minimum", .ofNat 1)]

def row : Json := .obj [("properties", .obj [("name", name), ("count", count)])]

def raw : Json := .obj [("type", .str "array"), ("items", row)]

def typedTop : Attributes := Compilation.typedAs .array ⟨[], raw, false⟩

def typedRow : Attributes := Compilation.typedAs .object ⟨[.item], row, false⟩

def typedName : Attributes where
  toSection := ⟨[.item, .property "name"], name, false⟩
  target := .ofList [.string, .null]
  base := some .string
  nullable := true

def typedCount : Attributes := Compilation.typedAs .number ⟨[.item, .property "count"], count, false⟩

/-- The schema of a row. -/
def item : Schema :=
  .node { typedRow with
    widget := "object"
    seats := [⟨"name", 0, none, none, none, none⟩, ⟨"count", 1, none, none, none, none⟩] } [
    (.property "name", .node { typedName with widget := "string" } []),
    (.property "count", .node { typedCount with widget := "number" } [])]

def schema : Schema := .node { typedTop with widget := "array" } [(.item, item)]

def compiled : Compiled := ⟨schema, [], .null⟩

theorem run_eq : Compilation.run {} raw none = .ok compiled := by
  have inline_eq : Definitions.inline .draft7 raw = .ok (raw, []) := by cbv
  have derive_eq : Compilation.derive none (schema.map Compilation.underived) = .ok (schema, []) := by cbv
  have wire_eq : Wiring.wire schema = (schema, []) := rfl
  exact Compilation.run_eq_of_derived inline_eq (by cbv) (by decide +kernel) rfl derive_eq wire_eq
    (by cbv)

/-- The document without rows. -/
def empty : Document := ((ofJson (.arr [])).link compiled).1

/-- What a row starts with. -/
def start : Json := .obj [("name", .null), ("count", .ofNat 0)]

end Rows

/-- A row starts without a name and with a count of zero.  That the least count is one is nothing that
a link would complain about. -/
theorem initial_fits_row :
    ((ofJson Rows.start).linkAt Rows.compiled (ofJson Rows.start).rootPlace (some Rows.item)).2 = [] ∧
      ∃ (d' : Document) (item : Place), Rows.empty.pushNew Rows.compiled 0 = .ok (d', item.id) ∧
        item.path = [.index 0] ∧ item.value = Rows.start ∧ item.node.schema? = some Rows.item ∧
        ∀ e ∈ (d'.link Rows.compiled).2, ∀ q ∈ item.subtree, e.pointer ≠ q.pointer := by
  have hplace : (⟨Rows.item, [Rows.schema]⟩ : Tree.Place Attributes) ∈ Rows.schema.places :=
    .tail _ (.head _)
  have unset : ∀ a ∈ Rows.item.labels, a.keyword? "default" = none ∧ a.keyword? "const" = none :=
    List.forall_mem_cons.2 ⟨⟨rfl, rfl⟩, List.forall_mem_cons.2 ⟨⟨rfl, rfl⟩,
      List.forall_mem_singleton.2 ⟨rfl, rfl⟩⟩⟩
  obtain ⟨hlinks, hpushes⟩ := initial_fits (by decide) Rows.run_eq rfl hplace unset
  obtain ⟨d', item, hpush, -, hpath, hvalue, hschema, -, herrors⟩ :=
    hpushes (by decide +kernel) Rows.empty (.link ⟨.arr [], rfl⟩) Rows.empty.rootPlace (.head _) rfl
      Rows.schema rfl rfl
  exact ⟨hlinks _ _ rfl, d', item, hpush, hpath, hvalue, hschema, herrors⟩

end Document

end FormSchema
