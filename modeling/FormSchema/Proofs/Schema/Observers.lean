import FormSchema.Proofs.Pointer.Text
import FormSchema.Proofs.Schema.Observation
import FormSchema.Proofs.Schema.Relabel
import FormSchema.Proofs.Schema.Run
import Mathlib.Logic.Function.Basic

/-!
The graph of observers.  A place of a compiled schema is observed by exactly those places that have
an evaluator which mentions it, and by each of them once, whatever problems the compilation has.
-/

namespace FormSchema

namespace Schema

variable {schema : Schema}

/-- Every place of a schema stands where its label says. -/
theorem Shaped.hasAt_of_mem_places (h : Shaped schema) {p : Tree.Place Attributes}
    (hp : p ∈ schema.places) : schema.HasAt (fun label => label.path) p := by
  obtain ⟨path, hpath⟩ :=
    Tree.exists_path_of_mem_places (h.slotsDistinct (rfl : schema.sub? [] = some schema)) hp
  exact h.labelled.hasAt hpath

/-- Who observes a place, in terms of places. -/
theorem Observant.mem_observers_iff (observant : Observant schema) (shaped : Shaped schema)
    {read : Tree.Place Attributes} (hread : read ∈ schema.places) {observer : List String} :
    observer ∈ read.label.observers ↔
      ∃ reader ∈ schema.places, reader.label.tokens = observer ∧
        ∃ keyword, ∃ pointer ∈ reader.label.pointers keyword,
          Pointer.resolveText schema.navigation reader.container pointer = .ok (some read) := by
  have hat := shaped.hasAt_of_mem_places hread
  have hlabelled := shaped.labelled
  refine (observant.observed hat.sub?).trans ⟨?_, ?_⟩
  · rintro ⟨path, v, hv, rfl, keyword, pointer, hpointer, hresolve⟩
    obtain ⟨reader, hreader, rfl⟩ := Tree.exists_place_of_sub? hv
    have hpath : reader.label.path = path := hlabelled.path_eq hreader
    refine ⟨reader, Tree.mem_places_of_place? hreader, by rw [Section.tokens, hpath], keyword,
      pointer, hpointer, ?_⟩
    rw [hlabelled.resolve_container_eq_ok_iff (hlabelled.hasAt hreader) hat, hpath]
    exact hresolve
  · rintro ⟨reader, hreader, rfl, keyword, pointer, hpointer, hresolve⟩
    have hreaderAt := shaped.hasAt_of_mem_places hreader
    rw [hlabelled.resolve_container_eq_ok_iff hreaderAt hat] at hresolve
    exact ⟨_, _, hreaderAt.sub?, rfl, keyword, pointer, hpointer, hresolve⟩

/-- What an expression mentions is a place, seen from the container of the one that mentions it. -/
theorem Observant.exists_named (observant : Observant schema) (shaped : Shaped schema)
    {reader : Tree.Place Attributes} (hreader : reader ∈ schema.places) {keyword : Keyword}
    {pointer : String} (hpointer : pointer ∈ reader.label.pointers keyword) :
    ∃ named ∈ schema.places,
      Pointer.resolveText schema.navigation reader.container pointer = .ok (some named) := by
  have hat := shaped.hasAt_of_mem_places hreader
  obtain ⟨path, hpath⟩ := observant.named hat.sub? hpointer
  obtain ⟨named, hnamedAt, -, hnamed⟩ := shaped.labelled.exists_resolve_container hat hpath
  exact ⟨named, Tree.mem_places_of_place? hnamedAt, hnamed⟩

end Schema

namespace Wiring

/-- Who reads each place. -/
abbrev Table := List Slot → List (List String)

def clear (table : Table) (path : List Slot) : Table := Function.update table path []

/-- Notes for the place that is read which place reads it. -/
def note (table : Table) (edge : Edge) : Table :=
  Function.update table edge.1
    (if edge.2 ∈ table edge.1 then table edge.1 else table edge.1 ++ [edge.2])

/-- Clears what is noted for all places, and then goes through them once: each is noted for those that
it reads. -/
def register (root : Schema) (table : Table) : Table :=
  let wired := (root.extend fun p => (p.label, ofPlace root p)).labels
  wired.foldl (fun table node => (edges node.1 node.2).foldl note table)
    (wired.foldl (fun table node => clear table node.1.path) table)

theorem observers_concat (all : List Edge) (edge : Edge) (path : List Slot) :
    observers (all ++ [edge]) path =
      if edge.1 = path ∧ edge.2 ∉ observers all path then observers all path ++ [edge.2]
      else observers all path := by
  by_cases hpath : edge.1 = path
  · by_cases hmem : (path, edge.2) ∈ all <;>
      simp [observers, hpath, hmem, List.eraseDups_append, List.removeAll, List.eraseDups_cons]
  · simp [observers, hpath]

theorem foldl_note {table : Table} {path : List Slot} (h : table path = []) (all : List Edge) :
    all.foldl note table path = observers all path := by
  induction all using List.reverseRecOn with
  | nil => exact h
  | append_singleton all edge ih =>
    rw [List.foldl_append, observers_concat, ← ih]
    by_cases hpath : edge.1 = path
    · subst hpath
      simp [note]
    · simp [note, hpath, Function.update_of_ne (Ne.symm hpath)]

theorem foldl_clear {paths : List (List Slot)} {path : List Slot} (h : path ∈ paths)
    (table : Table) : paths.foldl clear table path = [] := by
  induction paths using List.reverseRecOn with
  | nil => cases h
  | append_singleton paths last ih =>
    rw [List.foldl_append]
    by_cases hlast : path = last
    · simp [clear, hlast]
    · have hpaths : path ∈ paths := by simpa [hlast] using h
      simp [clear, Function.update_of_ne hlast, ih hpaths]

/-- The observers of a wired schema are those that are noted if all places are cleared first and then
gone through, one place after the other. -/
theorem observers_wire (root : Schema) (table : Table) {a : Attributes}
    (h : a ∈ (wire root).1.labels) : a.observers = register root table a.path := by
  rw [wire, Tree.labels_map, List.mem_map] at h
  obtain ⟨⟨b, w⟩, hb, rfl⟩ := h
  rw [register]
  generalize (root.extend fun p => (p.label, ofPlace root p)).labels = wired at hb
  rw [← List.foldl_flatMap, ← List.foldl_map (f := fun node : Attributes × Wiring => node.1.path),
    foldl_note (foldl_clear (List.mem_map_of_mem hb) table)]

end Wiring

namespace Compilation

/-- The observers of a place are the places that have an evaluator whose source mentions it, each
once; and whatever the source of an evaluator mentions is a place. -/
theorem observer_iff_mentions {settings : Settings} {cache : Enumeration.Cache} {raw : Json}
    {data : Option Json} {c : Compiled} (distinct : raw.keysDistinct = true)
    (compiled : (compile settings cache raw data).1 = .ok c) {read : Tree.Place Attributes}
    (hread : read ∈ c.schema.places) :
    (read.label.observers.map Pointer.join).Nodup ∧
      (∀ observer, observer ∈ read.label.observers.map Pointer.join ↔
        ∃ reader ∈ c.schema.places, reader.label.pointer = observer ∧
          ∃ keyword source, (reader.label.evaluator keyword).source = some source ∧
            ∃ pointer ∈ Expr.mentioned source,
              Pointer.resolveText c.schema.navigation reader.container pointer =
                .ok (some read)) ∧
      ∀ keyword source, (read.label.evaluator keyword).source = some source →
        ∀ pointer ∈ Expr.mentioned source, ∃ named ∈ c.schema.places,
          Pointer.resolveText c.schema.navigation read.container pointer = .ok (some named) := by
  have shaped := shaped_of_compile distinct compiled
  have observant := observant_of_compile distinct compiled
  refine ⟨?_, fun observer => ?_, fun keyword source hsource pointer hpointer => ?_⟩
  · exact (observant.once (shaped.hasAt_of_mem_places hread).sub?).map Pointer.join_injective
  · rw [List.mem_map]
    constructor
    · rintro ⟨tokens, htokens, rfl⟩
      obtain ⟨reader, hreader, rfl, keyword, pointer, hpointer, hresolve⟩ :=
        (observant.mem_observers_iff shaped hread).1 htokens
      obtain ⟨source, hsource, hmentioned⟩ := Attributes.mem_pointers_iff.1 hpointer
      exact ⟨reader, hreader, rfl, keyword, source, hsource, pointer, hmentioned, hresolve⟩
    · rintro ⟨reader, hreader, rfl, keyword, source, hsource, pointer, hmentioned, hresolve⟩
      have hpointer := Attributes.mem_pointers_iff.2 ⟨source, hsource, hmentioned⟩
      exact ⟨_, (observant.mem_observers_iff shaped hread).2
        ⟨reader, hreader, rfl, keyword, pointer, hpointer, hresolve⟩, rfl⟩
  · exact observant.exists_named shaped hread (Attributes.mem_pointers_iff.2 ⟨source, hsource, hpointer⟩)

/-! An object one part of which is shown as long as the other one is `u`, and is readonly if a part
that is not there says so. -/

namespace Dangling

def left : Json := .obj [("type", .str "string")]

def right : Json :=
  .obj [("type", .str "string"), ("visible", .str "$\x600/a\x60 === 'u'"),
    ("readonly", .str "$\x600/c\x60")]

def raw : Json := .obj [("type", .str "object"), ("properties", .obj [("a", left), ("b", right)])]

def visible : Evaluator :=
  ⟨.boolean, some "$\x600/a\x60 === 'u'",
    .expression (.binary .strictEq (.deref "0/a") (.literal (.str "u")))⟩

def readonly : Evaluator := ⟨.boolean, some "$\x600/c\x60", .expression (.deref "0/c")⟩

/-- What is known of the whole schema. -/
def top : Attributes :=
  { typedAs .object ⟨[], raw, false⟩ with
    widget := "object"
    seats := [⟨"a", 0, none, none, none, none⟩, ⟨"b", 1, none, none, none, none⟩] }

/-- What is known of the parts before the expressions are read. -/
def unread : Attributes :=
  { typedAs .string ⟨[.property "a"], left, false⟩ with widget := "string" }

def unwired : Attributes :=
  { typedAs .string ⟨[.property "b"], right, false⟩ with widget := "string" }

def derived : Schema :=
  .node top [(.property "a", .node unread []), (.property "b", .node unwired [])]

def reading : Tree.Place Attributes := ⟨.node unwired [], [derived]⟩

def known : Attributes := { unread with observers := [["b"]] }

def shown : Attributes := { unwired with evaluators := [(.visible, visible)] }

def schema : Schema :=
  .node top [(.property "a", .node known []), (.property "b", .node shown [])]

def problem : Problem := ⟨.expressions, "/b", .danglingPointer .readonly "0/c"⟩

def compiled : Compiled := ⟨schema, [problem], .null⟩

theorem install_visible :
    Wiring.install derived reading .visible (.str "$\x600/a\x60 === 'u'") =
      .ok (visible, [[.property "a"]]) :=
  Wiring.install_eq_ok (by cbv) rfl (by cbv : _ = ["0/a"]) rfl

theorem install_readonly :
    Wiring.install derived reading .readonly (.str "$\x600/c\x60") =
      .error (.danglingPointer .readonly "0/c") := by
  rw [Wiring.install_eq (e := readonly) (by cbv) rfl (by cbv : _ = ["0/c"])]
  rfl

theorem ofPlace_eq : Wiring.ofPlace derived reading =
    { evaluators := [(.visible, visible)], targets := [[.property "a"]],
      problem := some (.danglingPointer .readonly "0/c") } := by
  have hvisible : reading.label.keyword? Keyword.visible.name =
      some (.str "$\x600/a\x60 === 'u'") := rfl
  have hreadonly : reading.label.keyword? Keyword.readonly.name = some (.str "$\x600/c\x60") := rfl
  rw [Wiring.ofPlace, Keyword.all]
  -- `readonly` comes after `visible`, so its problem stops nothing that reads.
  simp only [Wiring.ofKeywords]
  simp only [hvisible, hreadonly, install_visible, install_readonly]
  rfl

theorem wire_eq : Wiring.wire derived = (schema, [problem]) := by
  have extend_eq : (derived.extend fun p => (p.label, Wiring.ofPlace derived p)) =
      .node (top, {}) [(.property "a", .node (unread, {}) []),
        (.property "b", .node (unwired, Wiring.ofPlace derived reading) [])] := rfl
  rw [Wiring.wire, extend_eq, ofPlace_eq]
  rfl

theorem run_eq : run {} raw none = .ok compiled := by
  have inline_eq : Definitions.inline .draft7 raw = .ok (raw, []) := by cbv
  have derive_eq : derive none (derived.map underived) = .ok (derived, []) := by cbv
  exact run_eq_of_derived inline_eq (by cbv) (by decide +kernel) rfl derive_eq wire_eq (by cbv)

end Dangling

/-- The part that is read has one observer, the part that is shown as it says; the keyword that has a
problem makes none. -/
theorem observer_iff_mentions_dangling :
    Dangling.compiled.problems = [Dangling.problem] ∧
      Dangling.known.observers.map Pointer.join = ["/b"] ∧
      ∃ reader ∈ Dangling.schema.places, reader.label.pointer = "/b" ∧
        ∃ keyword source, (reader.label.evaluator keyword).source = some source ∧
          ∃ pointer ∈ Expr.mentioned source,
            Pointer.resolveText Dangling.schema.navigation reader.container pointer =
              .ok (some ⟨.node Dangling.known [], [Dangling.schema]⟩) := by
  have hread : (⟨.node Dangling.known [], [Dangling.schema]⟩ : Tree.Place Attributes) ∈
      Dangling.compiled.schema.places := .tail _ (.head _)
  obtain ⟨-, hobservers, -⟩ := observer_iff_mentions (by decide) Dangling.run_eq hread
  have hjoin : Dangling.known.observers.map Pointer.join = ["/b"] := by decide
  exact ⟨rfl, hjoin, (hobservers "/b").1 (hjoin ▸ List.mem_singleton_self _)⟩

end Compilation

end FormSchema
