import FormSchema.Proofs.Schema.Observation
import FormSchema.Proofs.Schema.Reports

/-!
What a place of a compiled schema is derived from.  The attributes that depend on the children or on
the parent are found from the typed schema, and the places of the compiled schema are those of the typed
one with more in their labels; so the attributes are also those that the compiled schema gives.
-/

namespace FormSchema

/-- Whether labels keep what the keywords say of each place by itself. -/
structure Attributes.Kept (f : Tree.Place Attributes → Attributes) : Prop where
  toSection : ∀ p, (f p).toSection = p.label.toSection
  base : ∀ p, (f p).base = p.label.base
  isEnum : ∀ p, (f p).isEnum = p.label.isEnum
  choices : ∀ p, (f p).choices = p.label.choices

namespace Derivation

/-- How many choices the value of a place has, or each item of an array of values with choices. -/
def choiceCount (p : Tree.Place Attributes) : Nat :=
  match p.tree.at? .item, p.label.isEnumArray with
  | some item, true => item.label.choices.length
  | _, _ => p.label.choices.length

theorem enumItem?_eq_some_iff {p : Tree.Place Attributes} {a : Attributes} :
    enumItem? p = some a ↔ p.label.base = some .array ∧
      ∃ item, p.tree.at? .item = some item ∧ item.label.isEnum = true ∧ item.label = a := by
  unfold enumItem?
  by_cases harray : p.label.base = some .array
  · cases p.tree.at? .item with
    | none => simp [harray]
    | some item => by_cases henum : item.label.isEnum = true <;> simp [harray, henum]
  · simp [harray]

theorem isSome_enumItem?_iff {p : Tree.Place Attributes} : (enumItem? p).isSome = true ↔
    p.label.base = some .array ∧ ∃ item, p.tree.at? .item = some item ∧ item.label.isEnum = true := by
  simp [Option.isSome_iff_exists, enumItem?_eq_some_iff]

section Kept

variable {f : Tree.Place Attributes → Attributes} (kept : Attributes.Kept f)

include kept

theorem seats_extendAt (above : List Schema) (t : Schema) :
    seats (Tree.extendAt f above t) = seats t := by
  rw [seats, seats, Tree.properties_extendAt, List.map_map]
  refine congrArg Seat.arrange (List.map_congr_left fun property _ => ?_)
  have hsection := kept.toSection ⟨property.2, t :: above⟩
  simp only [Function.comp, Tree.label_extendAt, declaration]
  rw [hsection]
  rfl

theorem isRequired_extend (p : Tree.Place Attributes) : isRequired (p.extend f) = isRequired p := by
  rw [isRequired, isRequired, Tree.Place.parent?_extend, Tree.Place.label_extend, kept.toSection]
  cases p.parent? with
  | none => rfl
  | some parent =>
    have hrequired : (parent.extend f).label.required = parent.label.required := by
      rw [Tree.Place.label_extend, kept.toSection]
    cases p.label.name? with
    | none => rfl
    | some name => simp only [Option.map_some, hrequired]

/-- Relabelled places have the same arrays of values with choices. -/
theorem isSome_enumItem?_extend (p : Tree.Place Attributes) :
    (enumItem? (p.extend f)).isSome = (enumItem? p).isSome := by
  rw [Bool.eq_iff_iff, isSome_enumItem?_iff, isSome_enumItem?_iff, Tree.Place.at?_extend,
    Tree.Place.label_extend, kept.base]
  cases p.tree.at? .item with
  | none => simp
  | some item => simp [kept.isEnum, Tree.Place.label]

theorem choiceCount_extend {p : Tree.Place Attributes}
    (h : (f p).isEnumArray = (enumItem? p).isSome) :
    choiceCount (p.extend f) = ((enumItem? p).getD p.label).choices.length := by
  rw [choiceCount, Tree.Place.at?_extend, Tree.Place.label_extend, h, kept.choices]
  cases hitem : enumItem? p with
  | none => cases p.tree.at? .item <;> rfl
  | some a =>
    obtain ⟨-, item, hat, -, rfl⟩ := enumItem?_eq_some_iff.1 hitem
    simp [hat, kept.choices, Tree.Place.label]

end Kept

variable {data : Option Json} {p : Tree.Place Attributes}

theorem kept_derive (data : Option Json) : Attributes.Kept fun p => (derive data p).1 := by
  have main (p : Tree.Place Attributes) :
      (derive data p).1.toSection = p.label.toSection ∧ (derive data p).1.base = p.label.base ∧
        (derive data p).1.isEnum = p.label.isEnum ∧
          (derive data p).1.choices = p.label.choices := by
    unfold derive
    dsimp only
    split <;> exact ⟨rfl, rfl, rfl, rfl⟩
  exact ⟨fun p => (main p).1, fun p => (main p).2.1, fun p => (main p).2.2.1,
    fun p => (main p).2.2.2⟩

theorem isEnumArray_derive : (derive data p).1.isEnumArray = (enumItem? p).isSome := by
  unfold derive
  dsimp only
  split <;> rfl

theorem evaluators_derive : (derive data p).1.evaluators = seeded p := by
  unfold derive
  dsimp only
  split <;> rfl

/-- A place without a problem gets a field and an order. -/
theorem widget_derive (h : (derive data p).2 = none) :
    (derive data p).1.widget =
        Widget.select (derive data p).1 ((enumItem? p).getD p.label).choices.length ∧
      (derive data p).1.seats = seats p.tree := by
  revert h
  unfold derive
  dsimp only
  split
  · simp
  · intro _
    refine ⟨?_, rfl⟩
    cases enumItem? p <;> rfl

end Derivation

namespace Wiring

variable {root : Schema} {p : Tree.Place Attributes} {keyword : Keyword} {keywords : List Keyword}

theorem compile_of_install {raw : Json} {found : Evaluator × List (List Slot)}
    (h : install root p keyword raw = .ok found) :
    Evaluator.compile keyword.flavor raw = .ok found.1 := by
  rw [install] at h
  cases hcompile : Evaluator.compile keyword.flavor raw with
  | error e => simp [hcompile] at h
  | ok e =>
    simp only [hcompile] at h
    obtain ⟨targets, -, rfl⟩ := map_eq_ok.1 h
    rfl

/-- Where no keyword has a problem each keyword that is there has its evaluator. -/
theorem exists_mem_ofKeywords (h : (ofKeywords root p keywords).problem = none)
    (hk : keyword ∈ keywords) {raw : Json} (hraw : p.label.keyword? keyword.name = some raw) :
    ∃ e, Evaluator.compile keyword.flavor raw = .ok e ∧
      (keyword, e) ∈ (ofKeywords root p keywords).evaluators := by
  induction keywords with
  | nil => cases hk
  | cons k keywords ih =>
    rw [ofKeywords] at h ⊢
    cases hother : p.label.keyword? k.name with
    | none =>
      simp only [hother] at h ⊢
      rcases List.mem_cons.1 hk with rfl | hk
      · simp [hother] at hraw
      · exact ih h hk
    | some other =>
      simp only [hother] at h ⊢
      cases hinstall : install root p k other with
      | error cause => simp [hinstall] at h
      | ok found =>
        simp only [hinstall] at h ⊢
        rcases List.mem_cons.1 hk with rfl | hk
        · obtain rfl := Option.some.inj (hother.symm.trans hraw)
          exact ⟨found.1, compile_of_install hinstall, List.mem_cons_self⟩
        · obtain ⟨e, hcompile, hmem⟩ := ih h hk
          exact ⟨e, hcompile, List.mem_cons_of_mem _ hmem⟩

/-- A keyword that is not there has no evaluator. -/
theorem lookup_ofKeywords_eq_none (hraw : p.label.keyword? keyword.name = none) :
    (ofKeywords root p keywords).evaluators.lookup keyword = none := by
  by_contra hsome
  obtain ⟨e, he⟩ := Option.ne_none_iff_exists'.1 hsome
  obtain ⟨targets, hinstalled⟩ := exists_installed_of_mem (lookup_eq_some_iff.1 he)
  simp [installed?, hraw] at hinstalled

end Wiring

theorem Attributes.Kept.comp {f g : Tree.Place Attributes → Attributes} (hf : Attributes.Kept f)
    (hg : Attributes.Kept g) : Attributes.Kept fun p => g (p.extend f) where
  toSection p := by rw [hg.toSection, Tree.Place.label_extend, hf.toSection]
  base p := by rw [hg.base, Tree.Place.label_extend, hf.base]
  isEnum p := by rw [hg.isEnum, Tree.Place.label_extend, hf.isEnum]
  choices p := by rw [hg.choices, Tree.Place.label_extend, hf.choices]

namespace Compilation

/-- The label of a place of the typed schema once it is derived. -/
def derivedLabel (data : Option Json) (p : Tree.Place Attributes) : Attributes :=
  (Derivation.derive data p).1

/-- The label of a place of the typed schema once its expressions are read as well. -/
def finalLabel (data : Option Json) (derived : Schema) (p : Tree.Place Attributes) : Attributes :=
  Stages.wiredLabel derived (p.extend (derivedLabel data))

theorem kept_finalLabel (data : Option Json) (derived : Schema) :
    Attributes.Kept (finalLabel data derived) :=
  (Derivation.kept_derive data).comp ⟨fun _ => rfl, fun _ => rfl, fun _ => rfl, fun _ => rfl⟩

/-- What the expressions add to a derived label. -/
theorem exists_finalLabel_eq (data : Option Json) (derived : Schema) (p : Tree.Place Attributes) :
    ∃ observers, finalLabel data derived p = { (Derivation.derive data p).1 with
      evaluators := (Wiring.ofPlace derived (p.extend (derivedLabel data))).evaluators ++
        Derivation.seeded p
      observers := observers } := by
  rw [finalLabel, Stages.wiredLabel, Tree.Place.label_extend, derivedLabel,
    Derivation.evaluators_derive]
  exact ⟨_, rfl⟩

/-- The evaluator of a keyword is that of its expression, or else the one that comes without. -/
theorem evaluator_finalLabel {data : Option Json} {derived : Schema} {p : Tree.Place Attributes}
    (h : (Wiring.ofPlace derived (p.extend (derivedLabel data))).problem = none) (k : Keyword) :
    (∀ raw, p.label.keyword? k.name = some raw →
      Evaluator.compile k.flavor raw = .ok ((finalLabel data derived p).evaluator k)) ∧
      (p.label.keyword? k.name = none → (finalLabel data derived p).evaluator k =
        ((Derivation.seeded p).lookup k).getD k.fallback) := by
  have hkeyword : (p.extend (derivedLabel data)).label.keyword? k.name = p.label.keyword? k.name := by
    rw [Tree.Place.label_extend, derivedLabel, (Derivation.kept_derive data).toSection]
  obtain ⟨observers, heq⟩ := exists_finalLabel_eq data derived p
  rw [heq, Attributes.evaluator, List.lookup_append]
  constructor
  · intro raw hraw
    obtain ⟨e, hcompile, hmem⟩ :=
      Wiring.exists_mem_ofKeywords h (Keyword.mem_all k) (hkeyword.trans hraw)
    rw [Wiring.ofPlace, Wiring.lookup_eq_some_iff.2 hmem]
    exact hcompile
  · intro hraw
    rw [Wiring.ofPlace, Wiring.lookup_ofKeywords_eq_none (hkeyword.trans hraw), Option.none_or]

theorem wire_eq_extend (derived : Schema) :
    (Wiring.wire derived).1 = derived.extend (Stages.wiredLabel derived) := by
  dsimp only [Wiring.wire]
  rw [Tree.map_extend]
  rfl

section Outcome

variable {settings : Settings} {cache : Enumeration.Cache} {raw : Json} {data : Option Json}
  {c : Compiled}

/-- The place of the typed schema that a place of the compiled one comes from.  It has no problem if
none is listed at its pointer. -/
theorem exists_source (compiled : (compile settings cache raw data).1 = .ok c)
    {p : Tree.Place Attributes} (hp : p ∈ c.schema.places) :
    ∃ derived q, p = q.extend (finalLabel data derived) ∧
      (c.problemsAt p.label.pointer = [] → (Derivation.derive data q).2 = none ∧
        (Wiring.ofPlace derived (q.extend (derivedLabel data))).problem = none) := by
  obtain ⟨inlined, inlining, offer, derived, derivation, -, hderive, rfl⟩ := compile_eq_ok compiled
  generalize (typings (Outline.ofJson inlined)).map (fun typed => typed.2.attributes offer typed.1) =
    typed at hderive
  have hderived : derived = typed.extend (derivedLabel data) :=
    (derive_eq_ok hderive).trans (Tree.map_extend ..)
  have hschema : (Wiring.wire derived).1 = typed.extend (finalLabel data derived) := by
    rw [wire_eq_extend]
    nth_rewrite 2 [hderived]
    exact Tree.extend_extend ..
  dsimp only at hp
  rw [hschema, Tree.places_extend, List.mem_map] at hp
  obtain ⟨q, hq, rfl⟩ := hp
  refine ⟨derived, q, rfl, fun fine => ?_⟩
  have hpointer : (q.extend (finalLabel data derived)).label.pointer = q.label.pointer := by
    rw [Tree.Place.label_extend, (kept_finalLabel data derived).toSection]
  rw [hpointer, Compiled.problemsAt, List.filter_eq_nil_iff] at fine
  simp only [List.mem_append, beq_iff_eq] at fine
  constructor
  · refine Option.eq_none_iff_forall_ne_some.2 fun problem hproblem => ?_
    refine fine problem (.inl (.inr ?_)) (Derivation.pointer_of_problem hproblem)
    rw [derivation_eq hderive, Tree.labels_extend, List.filterMap_map]
    exact List.mem_filterMap.2 ⟨q, hq, hproblem⟩
  · have hplace : q.extend (derivedLabel data) ∈ derived.places := by
      have hmem := List.mem_map_of_mem (f := Tree.Place.extend (derivedLabel data)) hq
      rwa [← Tree.places_extend, ← hderived] at hmem
    have hpointer' : (q.extend (derivedLabel data)).label.pointer = q.label.pointer := by
      rw [Tree.Place.label_extend, derivedLabel, (Derivation.kept_derive data).toSection]
    refine Option.eq_none_iff_forall_ne_some.2 fun cause hcause => ?_
    refine fine ⟨.expressions, (q.extend (derivedLabel data)).label.pointer, cause⟩ (.inr ?_) hpointer'
    rw [Wiring.wire, Tree.labels_extend, List.filterMap_map]
    refine List.mem_filterMap.2 ⟨_, hplace, ?_⟩
    simp [Wiring.problem?, hcause]

/-- What a place without a problem has derived is what the compiled schema gives: whether it is an array
of values with choices, its field and the order of its properties.  And a property has to be there if
its own expression says so, or if it has none and the parent lists it. -/
theorem attributes_of_compile (compiled : (compile settings cache raw data).1 = .ok c)
    {p : Tree.Place Attributes} (hp : p ∈ c.schema.places)
    (fine : c.problemsAt p.label.pointer = []) :
    (p.label.isEnumArray = true ↔ p.label.base = some .array ∧
        ∃ item, p.tree.at? .item = some item ∧ item.label.isEnum = true) ∧
      p.label.widget = Widget.select p.label (Derivation.choiceCount p) ∧
      p.label.seats = Derivation.seats p.tree ∧
      (∀ raw, p.label.keyword? "requiredWhen" = some raw →
        Evaluator.compile .boolean raw = .ok (p.label.evaluator .requiredWhen)) ∧
      (p.label.keyword? "requiredWhen" = none →
        p.label.evaluator .requiredWhen =
          if Derivation.isRequired p then .constant .boolean (.bool true)
          else Keyword.requiredWhen.fallback) := by
  obtain ⟨derived, q, rfl, hfine⟩ := exists_source compiled hp
  obtain ⟨hderive, hwire⟩ := hfine fine
  have kept := kept_finalLabel data derived
  obtain ⟨observers, heq⟩ := exists_finalLabel_eq data derived q
  have harray : (finalLabel data derived q).isEnumArray = (Derivation.enumItem? q).isSome := by
    rw [heq]
    exact Derivation.isEnumArray_derive
  obtain ⟨hwidget, hseats⟩ := Derivation.widget_derive hderive
  obtain ⟨hpresent, habsent⟩ := evaluator_finalLabel hwire .requiredWhen
  rw [← Derivation.isSome_enumItem?_iff, Derivation.isSome_enumItem?_extend kept,
    Derivation.choiceCount_extend kept harray, Derivation.isRequired_extend kept,
    Tree.Place.label_extend, harray, kept.toSection]
  refine ⟨Iff.rfl, ?_, ?_, hpresent, fun hnone => (habsent hnone).trans ?_⟩
  · rw [heq]
    exact hwidget
  · rw [Tree.Place.extend, Derivation.seats_extendAt kept, ← hseats, heq]
  · rw [Derivation.seeded]
    split <;> rfl

end Outcome

/-! An object of which one part is required, an array of values with four choices, and the other part
is malformed. -/

namespace Required

def item : Json := .obj [("enum", .arr [.str "a", .str "b", .str "c", .str "d"])]

def tags : Json := .obj [("type", .str "array"), ("items", item)]

def raw : Json :=
  .obj [("type", .str "object"), ("required", .arr [.str "tags"]),
    ("properties", .obj [("tags", tags), ("note", .bool false)])]

def choices : List Choice :=
  [⟨.str "a", "a"⟩, ⟨.str "b", "b"⟩, ⟨.str "c", "c"⟩, ⟨.str "d", "d"⟩]

def typedItem : Attributes :=
  { typedAs .string ⟨[.property "tags", .item], item, false⟩ with isEnum := true, choices := choices }

def typedTags : Attributes := typedAs .array ⟨[.property "tags"], tags, false⟩

def typedNote : Attributes := { path := [.property "note"], raw := .bool false, mixed := false }

def knownTags : Attributes :=
  { typedTags with
    isEnumArray := true
    widget := "multi-select"
    evaluators := [(.requiredWhen, .constant .boolean (.bool true))] }

def schema : Schema :=
  .node { typedAs .object ⟨[], raw, false⟩ with
      widget := "object"
      seats := [⟨"tags", 0, none, none, none, none⟩, ⟨"note", 1, none, none, none, none⟩] } [
    (.property "tags", .node knownTags [(.item, .node { typedItem with widget := "select" } [])]),
    (.property "note", .node { typedNote with widget := "unknown" } [])]

def problem : Problem := ⟨.outlining, "/note", .invalidKeyword ⟨"schema", .unexpected .object (.bool false)⟩⟩

def place : Tree.Place Attributes :=
  ⟨.node knownTags [(.item, .node { typedItem with widget := "select" } [])], [schema]⟩

theorem run_eq : run {} raw none = .ok ⟨schema, [problem], .null⟩ := by
  have inline_eq : Definitions.inline .draft7 raw = .ok (raw, []) := by cbv
  have derive_eq : derive none (schema.map underived) = .ok (schema, []) := by cbv
  have wire_eq : Wiring.wire schema = (schema, []) := by cbv
  exact run_eq_of_derived inline_eq (by cbv) (by decide +kernel) rfl derive_eq wire_eq (by cbv)

end Required

/-- The part that is required has no problem, though the other one has. -/
theorem attributes_of_compile_required :
    Required.place ∈ Required.schema.places ∧
      (⟨Required.schema, [Required.problem], .null⟩ : Compiled).problemsAt
        Required.place.label.pointer = [] ∧
      (∃ item, Required.place.tree.at? .item = some item ∧ item.label.isEnum = true) ∧
      Widget.select Required.knownTags (Derivation.choiceCount Required.place) = "multi-select" ∧
      Required.knownTags.evaluator .requiredWhen = .constant .boolean (.bool true) := by
  have hp : Required.place ∈ Required.schema.places := .tail _ (.head _)
  have fine : (⟨Required.schema, [Required.problem], .null⟩ : Compiled).problemsAt
      Required.place.label.pointer = [] := by
    rw [show Required.place.label.pointer = "/tags" by decide]
    simp [Compiled.problemsAt, Required.problem]
  obtain ⟨harray, hwidget, -, -, habsent⟩ := attributes_of_compile Required.run_eq hp fine
  exact ⟨hp, fine, (harray.1 rfl).2, hwidget.symm, (habsent (by decide)).trans (if_pos (by decide))⟩

end Compilation

end FormSchema
