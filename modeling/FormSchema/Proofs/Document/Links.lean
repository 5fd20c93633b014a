import FormSchema.Proofs.Document.Readers
import FormSchema.Proofs.Document.Variants

/-!
What a link stands for.  Whatever has been done to a document since it was linked, a node is linked
only where the schema of the node above declares one for it, and the pointers of its expressions
lead the document where they lead the schema.
-/

namespace FormSchema

/-- Whether a schema declares another one for the child of a node at a key. -/
def Schema.Declares (u : Schema) (parent : Node) (key : Key) (s : Schema) : Prop :=
  match parent, key with
  | .record _ _, .name name => u.at? (.property name) = some s
  | .list _ _, .index _ => if u.label.mixed then s ∈ u.variants else u.at? .item = some s
  | _, _ => False

/-- What hangs in a slot that fits the key of a child is declared for the child. -/
theorem Schema.Formed.declares {u s : Schema} (h : Schema.Formed u) {parent child : Node} {key : Key}
    (hchild : parent.get? key = some child) {slot : Slot} (hfits : slot.Fits key)
    (hpart : (slot, s) ∈ u.children) : u.Declares parent key s := by
  have hat : u.at? slot = some s := Key.lookup_eq_some_of_mem h.nodup hpart
  have hslot : slot ∈ u.slots := Tree.mem_slots_of_at? hat
  cases parent with
  | leaf tag v => cases hchild
  | list tag items =>
    cases key with
    | name name => simp [Node.get?_list_name] at hchild
    | index i =>
      cases slot with
      | property name => exact hfits.elim
      | item => simpa [Declares, h.item hslot] using hat
      | variant j => simpa [Declares, h.variant j hslot] using Linking.mem_variants_iff.2 ⟨j, hpart⟩
  | record tag fields =>
    cases key with
    | index i => simp [Node.get?_record_index] at hchild
    | name name =>
      cases slot with
      | property name' =>
        obtain rfl : name' = name := hfits
        exact hat
      | _ => exact hfits.elim

namespace Document

variable {d : Document} {c : Compiled} {settings : Settings} {cache : Enumeration.Cache} {raw : Json}
  {data : Option Json}

/-- A linked node hangs below a linked one, whose schema declares its own. -/
theorem Intact.declares {schema : Schema} (shaped : Schema.Shaped schema) (h : d.Intact schema)
    {p parent : Place} (hp : d.Has p) (hparent : p.parent? = some parent) {s : Schema}
    (hs : p.node.schema? = some s) :
    ∃ u key, parent.node.schema? = some u ∧ u.label.compatible parent.node.kind = true ∧
      p.key? = some key ∧ u.Declares parent.node key s := by
  obtain ⟨n, above⟩ := p
  cases above with
  | nil => cases hparent
  | cons step above =>
    obtain ⟨key, node⟩ := step
    obtain rfl := Option.some.inj hparent
    obtain ⟨hnode, hget⟩ := hp.above_cons
    obtain ⟨u, hu, hcompatible, slot, hfits, hpart⟩ := h.coherent.node hnode.at?_path hget s hs
    obtain ⟨path, hsub, -⟩ := h.coherent.exists_path shaped hnode hu
    exact ⟨u, key, hu, hcompatible, rfl, (shaped.formed hsub).declares hget hfits hpart⟩

/-- The links of a document, however it has been changed since it was linked: the root has the root
schema, only nodes that are still there have one, and a node below the root has one only if the node
above has one that fits its kind and declares it. -/
theorem linked_as_declared (distinct : raw.keysDistinct = true)
    (compiled : (Compilation.compile settings cache raw data).1 = .ok c) (h : Reachable c d) :
    d.root.schema? = some c.schema ∧
      (∀ id s, (d.place id).node.schema? = some s → ∃ p ∈ d.places, p.id = id) ∧
      ∀ p ∈ d.places, ∀ s, p.node.schema? = some s → ∀ parent, p.parent? = some parent →
        ∃ u key, parent.node.schema? = some u ∧ u.label.compatible parent.node.kind = true ∧
          p.key? = some key ∧ u.Declares parent.node key s := by
  have shaped := Compilation.shaped_of_compile distinct compiled
  have intact := h.intact_of_shaped shaped
  refine ⟨intact.coherent.root, fun id s hs => ?_, fun p hp s hs parent hparent => ?_⟩
  · rw [place] at hs
    cases hfind : d.find? id with
    | none =>
      rw [hfind] at hs
      cases hs
    | some p =>
      obtain ⟨hp, hid⟩ := intact.sound.find?_eq_some_iff.1 hfind
      exact ⟨p, intact.mem_places_iff.2 hp, hid⟩
  · exact intact.declares shaped (intact.mem_places_iff.1 hp) hparent hs

/-- After the change, the first of the items is still below a linked array that has its variant. -/
theorem linked_as_declared_second_item :
    ∃ d, Reachable SecondItem.compiled d ∧ ∃ item ∈ d.places, ∃ array u s,
      item.parent? = some array ∧ array.node.schema? = some u ∧ item.node.schema? = some s ∧
        s ∈ u.variants := by
  obtain ⟨d, hstep, item, hitem, variants, hvariants, hlinked, -⟩ := SecondItem.exists_item
  have reachable := Reachable.change _ (.link ⟨.arr [.str "x", .str "a"], rfl⟩) hstep
  obtain ⟨key, tag, items, above, u, habove, hu, hmixed, -⟩ := exists_parent_of_variants? hvariants
  obtain ⟨s, hs, -⟩ := Option.map_eq_some_iff.1 hlinked
  have hparent : item.parent? = some ⟨.list tag items, above⟩ := by
    rw [Place.parent?, Place.ancestors, habove]
    rfl
  obtain ⟨-, -, hdeclared⟩ := linked_as_declared (by decide) SecondItem.run_eq reachable
  obtain ⟨u', key', hu', -, hkey, hdeclares⟩ := hdeclared item hitem s hs _ hparent
  obtain rfl := Option.some.inj (hu.symm.trans hu')
  refine ⟨d, reachable, item, hitem, _, u, s, hparent, hu, hs, ?_⟩
  cases key' with
  | name name => exact hdeclares.elim
  | index i => simpa [Schema.Declares, hmixed] using hdeclares

/-- A pointer that an expression mentions makes no mistake at any node of its schema, and the linked
nodes that it leads to are nodes of the schema that it names. -/
theorem Intact.exists_target {schema : Schema} (wired : Schema.Wired schema) (h : d.Intact schema)
    {reader : Place} (hreader : d.Has reader) {s : Schema} (hs : reader.node.schema? = some s)
    {keyword : Keyword} {pointer : String} (hpointer : pointer ∈ s.label.pointers keyword) :
    ∃ found path, d.target reader pointer = .ok found ∧
      Pointer.resolveText schema.slotNavigation s.label.path.dropLast pointer = .ok (some path) ∧
      ∀ target, found = some target →
        d.Has target ∧ ∀ t, target.node.schema? = some t → t.label.path = path := by
  have regular := wired.toRegular
  obtain ⟨hlinked, hsub⟩ := h.coherent.linkedAt regular hreader hs
  obtain ⟨path, hpath⟩ := wired.named hsub hpointer
  have hcontainer := hlinked.dropLast regular h.coherent
  obtain ⟨_, hend⟩ := hcontainer.exists_resolve regular h.coherent hpath
  rw [← hreader.target_path] at hend
  obtain ⟨found, hfound, -⟩ := map_eq_ok.1 hend
  refine ⟨found, path, hfound, hpath, ?_⟩
  rintro target rfl
  have htarget := hreader.target_has hfound
  refine ⟨htarget, fun t ht => ?_⟩
  obtain ⟨hlinked', -⟩ := h.coherent.linkedAt regular htarget ht
  have hdata := hreader.target_path pointer
  rw [hfound] at hdata
  exact (hcontainer.resolve_eq regular h.coherent hlinked' hdata.symm hpath).symm

/-- What a pointer of an expression names when the schema is compiled, it names in a document as
well: seen from a node of the schema that mentions it, it makes no mistake, and if it leads to a
linked node, the schema of that node is the one that it has led to. -/
theorem target_schema_eq (distinct : raw.keysDistinct = true)
    (compiled : (Compilation.compile settings cache raw data).1 = .ok c) (valid : c.problems = [])
    (h : Reachable c d) {reader : Place} (hreader : reader ∈ d.places) {s : Schema}
    (hs : reader.node.schema? = some s) {keyword : Keyword} {source pointer : String}
    (hsource : (s.label.evaluator keyword).source = some source)
    (hpointer : pointer ∈ Expr.mentioned source) :
    ∃ found, d.target reader pointer = .ok found ∧
      ∃ seen ∈ c.schema.places, seen.tree = s ∧ ∃ named ∈ c.schema.places,
        Pointer.resolveText c.schema.navigation seen.container pointer = .ok (some named) ∧
          ∀ target, found = some target →
            target ∈ d.places ∧ ∀ t, target.node.schema? = some t → t = named.tree := by
  have wired := Compilation.wired_of_compile distinct compiled valid
  have labelled := wired.labelled
  have intact := h.intact wired.toRegular
  have hmentioned := Attributes.mem_pointers_iff.2 ⟨source, hsource, hpointer⟩
  have hhas := intact.mem_places_iff.1 hreader
  obtain ⟨found, path, hfound, hpath, htarget⟩ := intact.exists_target wired hhas hs hmentioned
  obtain ⟨-, hsub⟩ := intact.coherent.linkedAt wired.toRegular hhas hs
  obtain ⟨seen, hseen, rfl⟩ := Tree.exists_place_of_sub? hsub
  have hat := labelled.hasAt hseen
  obtain ⟨named, hnamedAt, rfl, hnamed⟩ := labelled.exists_resolve_container hat hpath
  refine ⟨found, hfound, seen, Tree.mem_places_of_place? hseen, rfl, named,
    Tree.mem_places_of_place? hnamedAt, hnamed, fun target heq => ?_⟩
  obtain ⟨hhas', hschema⟩ := htarget target heq
  refine ⟨intact.mem_places_iff.2 hhas', fun t ht => ?_⟩
  obtain ⟨-, hsub'⟩ := intact.coherent.linkedAt wired.toRegular hhas' ht
  rw [hschema t ht] at hsub'
  exact Option.some.inj (hsub'.symm.trans hnamedAt.sub?)

/-- From the second item, the pointer leads to the first one, whose schema is the one of all items. -/
theorem target_schema_eq_first_item :
    FirstItem.document.target FirstItem.reader "/0" = .ok (some FirstItem.target) ∧
      ∃ named ∈ FirstItem.schema.places, FirstItem.target.node.schema? = some named.tree := by
  have hfound : FirstItem.document.target FirstItem.reader "/0" = .ok (some FirstItem.target) := rfl
  obtain ⟨found, hfound', -, -, -, named, hnamed, -, htarget⟩ :=
    target_schema_eq (by decide) FirstItem.run_eq rfl FirstItem.reachable
      (.tail _ (.tail _ (.head _))) (rfl : FirstItem.reader.node.schema? = _)
      (rfl : (FirstItem.known.evaluator .visible).source = _) (by decide +kernel : "/0" ∈ _)
  obtain rfl := Except.ok.inj (hfound.symm.trans hfound')
  obtain ⟨-, hschema⟩ := htarget _ rfl
  have hlinked : FirstItem.target.node.schema? = some (.node FirstItem.known []) := rfl
  exact ⟨hfound, named, hnamed, hschema _ hlinked ▸ hlinked⟩

end Document

end FormSchema
