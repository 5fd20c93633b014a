import FormSchema.Proofs.Document.Dependents
import FormSchema.Proofs.Schema.Run

/-!
Readers and dependents.  Among the nodes whose expressions read a node, those are its dependents
that lie in the same items as far as their schemas hang together.  Where expressions read declared
properties alone, the dependents are exactly the readers.
-/

namespace FormSchema

namespace Slot

variable {schema observer front : List Slot} {data reader keys : List Key}

theorem reaches_append (hlength : front.length = keys.length)
    (h : Reaches schema data observer reader) :
    Reaches (front ++ schema) (keys ++ data) (front ++ observer) (keys ++ reader) := by
  induction front generalizing keys with
  | nil =>
    obtain rfl := List.eq_nil_of_length_eq_zero hlength.symm
    exact h
  | cons s front ih =>
    cases keys with
    | nil => simp at hlength
    | cons key keys => exact reaches_self.2 ⟨rfl, ih (by simpa using hlength)⟩

theorem reaches_of_properties {names : List String}
    (hdata : List.Forall₂ Fits (names.map property) data)
    (hreader : List.Forall₂ Fits observer reader) (plain : ∀ slot ∈ observer, slot.Plain) :
    Reaches (names.map property) data observer reader := by
  induction names generalizing data observer reader with
  | nil => simpa [Reaches] using plain
  | cons name names ih =>
    obtain ⟨key, data, hkey, hrest, rfl⟩ := List.forall₂_cons_left_iff.1 hdata
    cases hreader with
    | nil => simp [Reaches]
    | @cons o l observer reader hl hreader =>
      by_cases heq : property name = o
      · subst heq
        refine reaches_self.2 ⟨?_, ih hrest hreader fun slot h => plain slot (List.mem_cons_of_mem _ h)⟩
        cases key with
        | index i => exact hkey.elim
        | name s =>
          cases l with
          | index i => exact hl.elim
          | name s' => exact congrArg Key.name (hkey.symm.trans hl)
      · exact (reaches_of_ne heq).2 plain

/-- Two ways that begin in the same slots begin at the same keys. -/
theorem Reaches.take_eq (hdata : data.length = (front ++ schema).length)
    (hreader : reader.length = (front ++ observer).length)
    (h : Reaches (front ++ schema) data (front ++ observer) reader) :
    data.take front.length = reader.take front.length := by
  induction front generalizing data reader with
  | nil => rfl
  | cons s front ih =>
    cases data with
    | nil => simp at hdata
    | cons key data =>
      cases reader with
      | nil => simp at hreader
      | cons l reader =>
        obtain ⟨rfl, hrest⟩ := reaches_self.1 h
        rw [List.length_cons, List.take_succ_cons, List.take_succ_cons,
          ih (by simpa using hdata) (by simpa using hreader) hrest]

end Slot

namespace Schema

/-- Pointers lead from path to path by way of declared properties alone. -/
def propertyNavigation (schema : Schema) : Pointer.Navigation (List Slot) :=
  Pointer.pathNavigation fun path token =>
    (schema.sub? path).bind fun u => (u.at? (.property token)).map fun _ => .property token

/-- Whether expressions read declared properties alone, none of which has a name that begins like
the token of items. -/
structure ReadsProperties (schema : Schema) : Prop where
  plain : ∀ {path u}, schema.sub? path = some u → ∀ slot ∈ u.slots, slot.Plain
  declared : ∀ {path u keyword pointer}, schema.sub? path = some u →
    pointer ∈ u.label.pointers keyword → ∃ target,
      Pointer.resolveText schema.propertyNavigation path.dropLast pointer = .ok (some target)

variable {schema u : Schema} {path target : List Slot} {tokens : List String} {pointer : String}

theorem ReadsProperties.plain_of_mem (h : ReadsProperties schema) (hu : schema.sub? path = some u) :
    ∀ slot ∈ path, slot.Plain := by
  induction path using List.reverseRecOn generalizing u with
  | nil => simp
  | append_singleton path slot ih =>
    rw [Tree.sub?_concat, Option.bind_eq_some_iff] at hu
    obtain ⟨v, hv, hat⟩ := hu
    intro slot' hslot
    rcases List.mem_append.1 hslot with hmem | hmem
    · exact ih hv slot' hmem
    · rw [List.mem_singleton.1 hmem]
      exact h.plain hv slot (Tree.mem_slots_of_at? hat)

instance (slot : Slot) : Decidable slot.Plain :=
  match slot with
  | .property name => inferInstanceAs (Decidable (name.toList.head? ≠ some '*'))
  | .item | .variant _ => isTrue trivial

/-- It is enough to look at all places. -/
theorem readsProperties_of_places (regular : Regular schema)
    (h : ∀ p ∈ schema.places, (∀ slot ∈ p.tree.slots, slot.Plain) ∧
      ∀ keyword ∈ Keyword.all, ∀ pointer ∈ p.label.pointers keyword,
        (Pointer.resolveText schema.propertyNavigation p.label.path.dropLast
          pointer).toOption.join.isSome) :
    ReadsProperties schema where
  plain {path u} hu := by
    obtain ⟨p, hp, rfl⟩ := Tree.exists_place_of_sub? hu
    exact (h p (Tree.mem_places_of_place? hp)).1
  declared {path u keyword pointer} hu hpointer := by
    obtain ⟨p, hp, rfl⟩ := Tree.exists_place_of_sub? hu
    have hresolve := (h p (Tree.mem_places_of_place? hp)).2 keyword keyword.mem_all pointer hpointer
    rw [show p.label.path = path from regular.labelled.path_eq hp] at hresolve
    generalize Pointer.resolveText schema.propertyNavigation path.dropLast pointer = found at *
    cases found with
    | error e => cases hresolve
    | ok found =>
      cases found with
      | none => cases hresolve
      | some target => exact ⟨target, rfl⟩

/-- The way down by properties is the way down. -/
theorem descend_propertyNavigation
    (h : Pointer.descend schema.propertyNavigation path tokens = some target) :
    target = path ++ tokens.map .property ∧
      Pointer.descend schema.slotNavigation path tokens = some target := by
  induction tokens generalizing path with
  | nil =>
    obtain rfl := Option.some.inj h
    exact ⟨(List.append_nil _).symm, rfl⟩
  | cons token tokens ih =>
    obtain ⟨next, hnext, h⟩ := Option.bind_eq_some_iff.1 h
    obtain ⟨slot, hslot, rfl⟩ := Option.map_eq_some_iff.1 hnext
    obtain ⟨u, hu, hslot⟩ := Option.bind_eq_some_iff.1 hslot
    obtain ⟨child, hchild, rfl⟩ := Option.map_eq_some_iff.1 hslot
    obtain ⟨htarget, hdescend⟩ := ih h
    refine ⟨by rw [htarget, List.append_assoc]; rfl, Option.bind_eq_some_iff.2 ⟨_, ?_, hdescend⟩⟩
    refine Option.map_eq_some_iff.2 ⟨.property token, Option.bind_eq_some_iff.2 ⟨u, hu, ?_⟩, rfl⟩
    rw [Tree.slot?, hchild]

/-- Where a pointer to declared properties starts and ends. -/
theorem resolve_propertyNavigation
    (h : Pointer.resolveText schema.propertyNavigation path pointer = .ok (some target)) :
    ∃ parsed front, Pointer.parse pointer = .ok parsed ∧
      Pointer.start? schema.slotNavigation path parsed = some front ∧
      target = front ++ parsed.tokens.map .property ∧
      Pointer.resolveText schema.slotNavigation path pointer = .ok (some target) := by
  obtain ⟨parsed, hparsed, h⟩ := bind_eq_ok.1 h
  obtain ⟨front, hfront, h⟩ := Pointer.resolve_eq_ok_iff.1 h
  obtain ⟨htarget, hdescend⟩ := descend_propertyNavigation h
  have hstart : Pointer.start? schema.slotNavigation path parsed = some front := by
    cases parsed <;> exact hfront
  exact ⟨parsed, front, hparsed, hstart, htarget,
    bind_eq_ok.2 ⟨parsed, hparsed, Pointer.resolve_eq_ok_iff.2 ⟨front, hstart, hdescend⟩⟩⟩

end Schema

/-- Names that lead somewhere lead there as tokens. -/
theorem Json.descend_names {v w : Json} {path : List Key} {tokens : List String}
    (h : v.at? (path ++ tokens.map .name) = some w) :
    Pointer.descend v.navigation path tokens = some (path ++ tokens.map .name) := by
  induction tokens generalizing path with
  | nil => rw [List.map_nil, List.append_nil, Pointer.descend_nil]
  | cons token tokens ih =>
    rw [List.map_cons, List.append_cons] at h ⊢
    rw [Pointer.descend_cons, Option.bind_eq_some_iff]
    refine ⟨path ++ [Key.name token], ?_, ih h⟩
    refine Option.map_eq_some_iff.2 ⟨.name token, ?_, rfl⟩
    rw [at?_append, Option.bind_eq_some_iff] at h
    obtain ⟨x, hx, -⟩ := h
    rw [at?_concat, Option.bind_eq_some_iff] at hx
    obtain ⟨part, hpart, hget⟩ := hx
    rw [step?, hpart, Option.bind_some]
    cases part with
    | obj fields =>
      have htoken : Key.ofToken? (Kind.ofJson (.obj fields)) token = some (.name token) := rfl
      rw [htoken, Option.bind_some, hget]
      rfl
    | arr items =>
      have : (Json.arr items).get? (.name token) = none := Key.lookup_name_ofItems ..
      rw [this] at hget
      cases hget
    | _ => cases hget

namespace Document

section

variable {schema : Schema} {d : Document} {c : Compiled} {reader target : Place} {s t : Schema}

/-- Where a pointer starts from the container of a linked node. -/
theorem LinkedAt.start?_dropLast (regular : Schema.Regular schema) (coherent : d.Coherent schema)
    {path : List Key} {slots front : List Slot} {parsed : Pointer} (h : LinkedAt schema d path slots)
    (hfront : Pointer.start? schema.slotNavigation slots.dropLast parsed = some front) :
    ∃ keys data rest, path = keys ++ data ∧ slots = front ++ rest ∧ front.length = keys.length ∧
      Pointer.start? d.value.navigation path.dropLast parsed = some keys := by
  have hdrop := h.dropLast regular coherent
  obtain ⟨hpre, hstart⟩ := hdrop.start?_eq regular coherent hfront
  have hlength := (hdrop.take regular coherent front.length).length_eq regular coherent
  rw [← List.prefix_iff_eq_take.1 hpre] at hlength
  obtain ⟨rest, hrest⟩ := hpre.trans (List.dropLast_prefix slots)
  obtain ⟨data, hdata⟩ :=
    (List.take_prefix front.length path.dropLast).trans (List.dropLast_prefix path)
  exact ⟨_, data, rest, hdata.symm, hrest.symm, hlength, hstart⟩

/-- A node that is read by way of properties is seen from by its readers. -/
theorem Reads.reaches (wired : Schema.Wired schema) (properties : Schema.ReadsProperties schema)
    (coherent : d.Coherent schema) (hreader : d.Has reader) (htarget : d.Has target)
    (hs : reader.node.schema? = some s) (ht : target.node.schema? = some t)
    (reads : d.Reads reader target) :
    Slot.Reaches t.label.path target.path s.label.path reader.path := by
  have regular := wired.toRegular
  obtain ⟨hlinked, hsub⟩ := coherent.linkedAt regular hreader hs
  obtain ⟨hlinked', -⟩ := coherent.linkedAt regular htarget ht
  obtain ⟨keyword, pointer, hpointer, hdata, hschema⟩ :=
    reads.exists_pointer wired coherent hreader htarget hs ht
  obtain ⟨found, hfound⟩ := properties.declared hsub hpointer
  obtain ⟨parsed, front, hparsed, hfront, hnames, hfound⟩ := Schema.resolve_propertyNavigation hfound
  obtain rfl := Option.some.inj (Except.ok.inj (hfound.symm.trans hschema))
  obtain ⟨keys, more, rest, hmore, hrest, hlength, hstart⟩ :=
    hlinked.start?_dropLast regular coherent hfront
  obtain ⟨parsed', hparsed', hdata⟩ := bind_eq_ok.1 hdata
  obtain rfl := Except.ok.inj (hparsed.symm.trans hparsed')
  obtain ⟨start, hstart', hdata⟩ := Pointer.resolve_eq_ok_iff.1 hdata
  obtain rfl := Option.some.inj (hstart.symm.trans hstart')
  obtain ⟨data, hdata⟩ := Pointer.prefix_of_descend hdata
  have plain := properties.plain_of_mem hsub
  have hfits := hlinked.fits regular coherent
  have hfits' := hlinked'.fits regular coherent
  rw [hrest, hmore] at hfits
  rw [hnames, ← hdata] at hfits'
  rw [hrest] at plain
  rw [hnames, ← hdata, hrest, hmore]
  refine Slot.reaches_append hlength (Slot.reaches_of_properties ?_ ?_ fun slot hslot => ?_)
  · have := List.forall₂_drop_append _ _ _ hfits'
    rwa [← hlength, List.drop_left] at this
  · have := List.forall₂_drop_append _ _ _ hfits
    rwa [← hlength, List.drop_left] at this
  · exact plain slot (List.mem_append_right front hslot)

theorem eq_names_of_fits {names : List String} {data : List Key}
    (h : List.Forall₂ Slot.Fits (names.map .property) data) : data = names.map .name := by
  induction names generalizing data with
  | nil => exact List.forall₂_nil_left_iff.1 h
  | cons name names ih =>
    obtain ⟨key, data, hkey, hrest, rfl⟩ := List.forall₂_cons_left_iff.1 h
    cases key with
    | index i => exact hkey.elim
    | name s => rw [List.map_cons, ih hrest, show name = s from hkey]

/-- A node is read by those whose schemas read its schema by way of properties, if they are seen
from the node. -/
theorem reads_of_reaches (wired : Schema.Wired schema) (properties : Schema.ReadsProperties schema)
    (coherent : d.Coherent schema) (hreader : d.Has reader) (htarget : d.Has target)
    (hs : reader.node.schema? = some s) (ht : target.node.schema? = some t)
    (hobserver : s.label.tokens ∈ t.label.observers)
    (reaches : Slot.Reaches t.label.path target.path s.label.path reader.path) :
    d.Reads reader target := by
  have regular := wired.toRegular
  obtain ⟨hlinked, hsub⟩ := coherent.linkedAt regular hreader hs
  obtain ⟨hlinked', hsub'⟩ := coherent.linkedAt regular htarget ht
  obtain ⟨path, v, hv, htokens, keyword, pointer, hpointer, hschema⟩ :=
    (wired.observed hsub').1 hobserver
  obtain rfl := wired.eq_of_tokens_eq hsub hv htokens
  obtain rfl := Option.some.inj (hsub.symm.trans hv)
  obtain ⟨found, hfound⟩ := properties.declared hsub hpointer
  obtain ⟨parsed, front, hparsed, hfront, hnames, hfound⟩ := Schema.resolve_propertyNavigation hfound
  obtain rfl := Option.some.inj (Except.ok.inj (hfound.symm.trans hschema))
  obtain ⟨keys, more, rest, hmore, hrest, hlength, hstart⟩ :=
    hlinked.start?_dropLast regular coherent hfront
  have hlength' := hlinked'.length_eq regular coherent
  have hkeys : target.path.take front.length = keys := by
    rw [hnames, hrest, hmore] at reaches
    rw [hnames] at hlength'
    have hcount : more.length = rest.length := by
      have := hlinked.length_eq regular coherent
      rw [hrest, hmore, List.length_append, List.length_append, hlength] at this
      omega
    rw [reaches.take_eq hlength'.symm (by simp [hlength, hcount]), hlength, List.take_left]
  have hfits := hlinked'.fits regular coherent
  rw [← List.take_append_drop front.length target.path, hkeys, hnames] at hfits
  have hdata := List.forall₂_drop_append _ _ _ hfits
  rw [← hlength, List.drop_left] at hdata
  have htarget' : target.path = keys ++ parsed.tokens.map .name := by
    rw [← eq_names_of_fits hdata, ← hkeys, List.take_append_drop]
  refine ⟨s, hs, keyword, pointer, hpointer, hreader.target_eq_some htarget ?_⟩
  refine bind_eq_ok.2 ⟨parsed, hparsed, Pointer.resolve_eq_ok_iff.2 ⟨keys, hstart, ?_⟩⟩
  rw [htarget']
  exact Json.descend_names (htarget' ▸ htarget.at?_value)

/-- Whether the positions of all items fit into machine words, as those of every array in memory
do. -/
def Addressable (d : Document) : Prop := ∀ p ∈ d.places, ∀ key ∈ p.path, key.IsShort

instance (key : Key) : Decidable key.IsShort :=
  match key with
  | .index i => inferInstanceAs (Decidable (i < Number.indexBound))
  | .name _ => isTrue trivial

instance (d : Document) : Decidable d.Addressable :=
  inferInstanceAs (Decidable (∀ p ∈ d.places, ∀ key ∈ p.path, key.IsShort))

/-- A node that reads a linked one is among its dependents exactly if both lie at the same keys for
as long as the ways to their schemas agree, and no property on the rest of the way to the schema of
the reader has a name that begins like the token of items. -/
theorem mem_dependents_iff_of_reads {settings : Settings} {raw : Json} {data : Option Json}
    (distinct : raw.keysDistinct = true) (compiled : Compilation.run settings raw data = .ok c)
    (valid : c.problems = []) (reachable : Reachable c d) (addressable : d.Addressable)
    (hreader : reader ∈ d.places) (htarget : target ∈ d.places)
    (hs : reader.node.schema? = some s) (ht : target.node.schema? = some t)
    (reads : d.Reads reader target) :
    reader.id ∈ d.dependents target ↔
      Slot.Reaches t.label.path target.path s.label.path reader.path := by
  have wired := Compilation.wired_of_run distinct compiled valid
  have h := reachable.intact wired.toRegular
  have hreader := h.sound.mem_places_iff.1 hreader
  have short := addressable target htarget
  have htarget := h.sound.mem_places_iff.1 htarget
  rw [h.mem_dependents_iff wired hreader htarget hs ht short]
  exact and_iff_right (reads.mem_observers wired h.coherent hreader htarget hs ht)

end

/-! An array whose items are shown as long as the first one is `u`. -/

namespace FirstItem

def item : Json := .obj [("type", .str "string"), ("visible", .str "$\x60/0\x60 === 'u'")]

def raw : Json := .obj [("type", .str "array"), ("items", item)]

def visible : Evaluator :=
  ⟨.boolean, some "$\x60/0\x60 === 'u'",
    .expression (.binary .strictEq (.deref "/0") (.literal (.str "u")))⟩

/-- The schema of all items before its expression is read. -/
def unwired : Tree.Place Attributes :=
  ⟨.node { Compilation.typedAs .string ⟨[.item], item, false⟩ with widget := "string" } [],
    [.node { Compilation.typedAs .array ⟨[], raw, false⟩ with widget := "array" }
      [(.item, .node { Compilation.typedAs .string ⟨[.item], item, false⟩ with
        widget := "string" } [])]]⟩

def derived : Schema := unwired.container.tree

/-- What is known of the schema of all items, which reads itself. -/
def known : Attributes :=
  { unwired.label with evaluators := [(.visible, visible)], observers := [["*"]] }

def schema : Schema := .node derived.label [(.item, .node known [])]

def compiled : Compiled := ⟨schema, [], .null⟩

theorem install_eq :
    Wiring.install derived unwired .visible (.str "$\x60/0\x60 === 'u'") =
      .ok (visible, [[.item]]) :=
  Wiring.install_eq_ok (by cbv) rfl (by cbv : _ = ["/0"]) rfl

theorem ofPlace_eq : Wiring.ofPlace derived unwired =
    { evaluators := [(.visible, visible)], targets := [[.item]] } := by
  have hraw : unwired.label.keyword? Keyword.visible.name = some (.str "$\x60/0\x60 === 'u'") := rfl
  rw [Wiring.ofPlace, Keyword.all]
  simp only [Wiring.ofKeywords]
  simp only [hraw, install_eq]
  rfl

theorem wire_eq : Wiring.wire derived = (schema, []) := by
  have extend_eq : (derived.extend fun p => (p.label, Wiring.ofPlace derived p)) =
      .node (derived.label, Wiring.ofPlace derived derived.root)
        [(.item, .node (unwired.label, Wiring.ofPlace derived unwired) [])] := rfl
  rw [Wiring.wire, extend_eq, ofPlace_eq]
  rfl

theorem run_eq : Compilation.run {} raw none = .ok compiled := by
  have inline_eq : Definitions.inline .draft7 raw = .ok (raw, []) := by cbv
  have derive_eq : Compilation.derive none (derived.map Compilation.underived) = .ok (derived, []) := by cbv
  exact Compilation.run_eq_of_derived inline_eq (by cbv) (by decide +kernel) rfl derive_eq wire_eq
    (by cbv)

def document : Document := ((ofJson (.arr [.str "u", .str "v"])).link compiled).1

theorem reachable : Reachable compiled document := .link ⟨.arr [.str "u", .str "v"], rfl⟩

def itemAt (i : Nat) (node : Node) : Place := ⟨node, [(.index i, document.root)]⟩

/-- The first item, and the second one, which reads it. -/
def target : Place := itemAt 0 (.leaf ⟨1, some (.node known [])⟩ (.str "u"))

def reader : Place := itemAt 1 (.leaf ⟨2, some (.node known [])⟩ (.str "v"))

theorem places_eq : document.places = [document.rootPlace, target, reader] := rfl

theorem reads : document.Reads reader target :=
  ⟨.node known [], rfl, .visible, "/0", by decide +kernel, rfl⟩

theorem addressable : document.Addressable := by decide +kernel

end FirstItem

/-- A node that reads another one need not be among its dependents. -/
theorem exists_reader_not_mem_dependents :
    Compilation.run {} FirstItem.raw none = .ok FirstItem.compiled ∧
      FirstItem.compiled.problems = [] ∧
      ∃ d, Reachable FirstItem.compiled d ∧ ∃ reader ∈ d.places, ∃ target ∈ d.places,
        reader.node.schema?.isSome ∧ target.node.schema?.isSome ∧ d.Reads reader target ∧
          reader.id ∉ d.dependents target := by
  refine ⟨FirstItem.run_eq, rfl, FirstItem.document, FirstItem.reachable, FirstItem.reader, ?_,
    FirstItem.target, ?_, rfl, rfl, FirstItem.reads, by decide +kernel⟩
  · simp [FirstItem.places_eq]
  · simp [FirstItem.places_eq]

/-- The second item is no dependent of the first one, since the two lie at different keys. -/
theorem mem_dependents_iff_of_reads_item :
    FirstItem.reader.id ∈ FirstItem.document.dependents FirstItem.target ↔
      Slot.Reaches [.item] [.index 0] [.item] [.index 1] :=
  mem_dependents_iff_of_reads (s := .node FirstItem.known []) (t := .node FirstItem.known [])
    (by decide) FirstItem.run_eq rfl FirstItem.reachable FirstItem.addressable
    (by simp [FirstItem.places_eq]) (by simp [FirstItem.places_eq]) rfl rfl FirstItem.reads

/-- Where expressions read declared properties alone, the dependents of a linked node are exactly
the linked nodes that read it. -/
theorem mem_dependents_iff_reads {settings : Settings} {raw : Json} {data : Option Json}
    {c : Compiled} {d : Document} {reader target : Place} (distinct : raw.keysDistinct = true)
    (compiled : Compilation.run settings raw data = .ok c)
    (valid : c.problems = []) (properties : Schema.ReadsProperties c.schema)
    (reachable : Reachable c d) (addressable : d.Addressable) (hreader : reader ∈ d.places)
    (htarget : target ∈ d.places) (hs : reader.node.schema?.isSome)
    (ht : target.node.schema?.isSome) :
    reader.id ∈ d.dependents target ↔ d.Reads reader target := by
  have wired := Compilation.wired_of_run distinct compiled valid
  have h := reachable.intact wired.toRegular
  have hreader := h.sound.mem_places_iff.1 hreader
  have short := addressable target htarget
  have htarget := h.sound.mem_places_iff.1 htarget
  obtain ⟨s, hs⟩ := Option.isSome_iff_exists.1 hs
  obtain ⟨t, ht⟩ := Option.isSome_iff_exists.1 ht
  rw [h.mem_dependents_iff wired hreader htarget hs ht short]
  constructor
  · rintro ⟨hobserver, hreaches⟩
    exact reads_of_reaches wired properties h.coherent hreader htarget hs ht hobserver hreaches
  · intro reads
    exact ⟨reads.mem_observers wired h.coherent hreader htarget hs ht,
      reads.reaches wired properties h.coherent hreader htarget hs ht⟩

/-! An object one part of which is shown as long as a part of another one is `u`. -/

namespace Nested

def text : Json := .obj [("type", .str "string")]

def left : Json := .obj [("type", .str "object"), ("properties", .obj [("x", text)])]

def right : Json := .obj [("type", .str "string"), ("visible", .str "$\x600/a/x\x60 === 'u'")]

def raw : Json := .obj [("type", .str "object"), ("properties", .obj [("a", left), ("b", right)])]

def visible : Evaluator :=
  ⟨.boolean, some "$\x600/a/x\x60 === 'u'",
    .expression (.binary .strictEq (.deref "0/a/x") (.literal (.str "u")))⟩

def seat (name : String) (number : Nat) : Seat := ⟨name, number, none, none, none, none⟩

/-- What is known of the whole schema. -/
def top : Attributes :=
  { Compilation.typedAs .object ⟨[], raw, false⟩ with
    widget := "object", seats := [seat "a" 0, seat "b" 1] }

def holder : Attributes :=
  { Compilation.typedAs .object ⟨[.property "a"], left, false⟩ with
    widget := "object", seats := [seat "x" 0] }

/-- What is known of the schema that is read, and of the one that reads it, before the expression is
read. -/
def unread : Attributes :=
  { Compilation.typedAs .string ⟨[.property "a", .property "x"], text, false⟩ with
    widget := "string" }

def unwired : Attributes :=
  { Compilation.typedAs .string ⟨[.property "b"], right, false⟩ with widget := "string" }

def derived : Schema :=
  .node top [(.property "a", .node holder [(.property "x", .node unread [])]),
    (.property "b", .node unwired [])]

def known : Attributes := { unread with observers := [["b"]] }

def shown : Attributes := { unwired with evaluators := [(.visible, visible)] }

def schema : Schema :=
  .node top [(.property "a", .node holder [(.property "x", .node known [])]),
    (.property "b", .node shown [])]

def compiled : Compiled := ⟨schema, [], .null⟩

def reading : Tree.Place Attributes := ⟨.node unwired [], [derived]⟩

theorem install_eq :
    Wiring.install derived reading .visible (.str "$\x600/a/x\x60 === 'u'") =
      .ok (visible, [[.property "a", .property "x"]]) :=
  Wiring.install_eq_ok (by cbv) rfl (by cbv : _ = ["0/a/x"]) rfl

theorem ofPlace_eq : Wiring.ofPlace derived reading =
    { evaluators := [(.visible, visible)], targets := [[.property "a", .property "x"]] } := by
  have hraw : reading.label.keyword? Keyword.visible.name = some (.str "$\x600/a/x\x60 === 'u'") := rfl
  rw [Wiring.ofPlace, Keyword.all]
  simp only [Wiring.ofKeywords]
  simp only [hraw, install_eq]
  rfl

theorem wire_eq : Wiring.wire derived = (schema, []) := by
  have extend_eq : (derived.extend fun p => (p.label, Wiring.ofPlace derived p)) =
      .node (top, {}) [(.property "a", .node (holder, {}) [(.property "x", .node (unread, {}) [])]),
        (.property "b", .node (unwired, Wiring.ofPlace derived reading) [])] := rfl
  rw [Wiring.wire, extend_eq, ofPlace_eq]
  rfl

theorem run_eq : Compilation.run {} raw none = .ok compiled := by
  have inline_eq : Definitions.inline .draft7 raw = .ok (raw, []) := by cbv
  have derive_eq : Compilation.derive none (derived.map Compilation.underived) = .ok (derived, []) := by cbv
  exact Compilation.run_eq_of_derived inline_eq (by cbv) (by decide +kernel) rfl derive_eq wire_eq
    (by cbv)

theorem readsProperties : Schema.ReadsProperties compiled.schema := by
  have regular := (Compilation.wired_of_run (by decide) run_eq rfl).toRegular
  exact Schema.readsProperties_of_places regular (by decide +kernel)

/-- What the documents are made from. -/
def value : ProperJson := ⟨.obj [("a", .obj [("x", .str "u")]), ("b", .str "s")], by decide⟩

def document : Document := ((ofJson value.1).link compiled).1

theorem reachable : Reachable compiled document := .link value

/-- The node that is read, and the one that reads it. -/
def target : Place :=
  ⟨.leaf ⟨2, some (.node known [])⟩ (.str "u"),
    [(.name "x", .record ⟨1, some (.node holder [(.property "x", .node known [])])⟩
      [("x", .leaf ⟨2, some (.node known [])⟩ (.str "u"))]), (.name "a", document.root)]⟩

def reader : Place := ⟨.leaf ⟨3, some (.node shown [])⟩ (.str "s"), [(.name "b", document.root)]⟩

theorem target_mem : target ∈ document.places := .tail _ (.tail _ (.head _))

theorem reader_mem : reader ∈ document.places := .tail _ (.tail _ (.tail _ (.head _)))

end Nested

/-- The one node that reads another one is its dependent. -/
theorem mem_dependents_iff_reads_nested :
    Nested.reader.id ∈ Nested.document.dependents Nested.target ∧
      Nested.document.Reads Nested.reader Nested.target := by
  have hmem : Nested.reader.id ∈ Nested.document.dependents Nested.target := by decide +kernel
  have hreads := mem_dependents_iff_reads (by decide) Nested.run_eq rfl Nested.readsProperties
    Nested.reachable (by decide +kernel) Nested.reader_mem Nested.target_mem rfl rfl
  exact ⟨hmem, hreads.1 hmem⟩

end Document

end FormSchema
