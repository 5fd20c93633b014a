import FormSchema.Proofs.Schema.Containment
import FormSchema.Proofs.Schema.Recompilation
import FormSchema.Proofs.Schema.Reports
import FormSchema.Proofs.Schema.Run

/-!
Schemas that differ in the schema of one property.  Each stage takes what it says of a place from the
subtree there, apart from what the parent requires and what the expressions read.  What is gathered of
two such schemas is therefore the same at all places apart from the property: at those that are neither
on the way to it nor below it.
-/

namespace FormSchema

namespace Tree

variable {α β γ : Type}

mutual

/-- What is gathered of all subtrees: of each `first`, then what is gathered of its children, and then
`last`. -/
def gather (first last : Tree α → List β) : Tree α → List β
  | .node label children =>
    first (.node label children) ++ gatherChildren first last children ++ last (.node label children)

def gatherChildren (first last : Tree α → List β) : List (Slot × Tree α) → List β
  | [] => []
  | (_, t) :: rest => gather first last t ++ gatherChildren first last rest

end

theorem gather_eq (first last : Tree α → List β) (t : Tree α) :
    t.gather first last =
      first t ++ (t.children.flatMap fun part => part.2.gather first last) ++ last t := by
  have (parts : List (Slot × Tree α)) :
      gatherChildren first last parts = parts.flatMap fun part => part.2.gather first last := by
    induction parts with
    | nil => rfl
    | cons part parts ih => rw [gatherChildren, ih, List.flatMap_cons]
  cases t
  rw [gather, this]
  rfl

theorem gather_map (first last : Tree β → List γ) (f : α → β) (t : Tree α) :
    (t.map f).gather first last =
      t.gather (fun u => first (u.map f)) fun u => last (u.map f) := by
  induction t using induct with
  | step t ih =>
    rw [gather_eq, gather_eq, children_map, List.flatMap_map]
    rw [List.flatMap_congr fun part hpart => ih part hpart]

theorem filterMap_gather (g : β → Option γ) (first last : Tree α → List β) (t : Tree α) :
    (t.gather first last).filterMap g =
      t.gather (fun u => (first u).filterMap g) fun u => (last u).filterMap g := by
  induction t using induct with
  | step t ih =>
    rw [gather_eq, gather_eq, List.filterMap_append, List.filterMap_append, List.filterMap_flatMap]
    rw [List.flatMap_congr fun part hpart => ih part hpart]

theorem map_gather (g : β → γ) (first last : Tree α → List β) (t : Tree α) :
    (t.gather first last).map g = t.gather (fun u => (first u).map g) fun u => (last u).map g := by
  simpa only [List.filterMap_eq_map] using filterMap_gather (some ∘ g) first last t

theorem exists_of_mem_gather {first last : Tree α → List β} {t : Tree α} {b : β}
    (h : b ∈ t.gather first last) : ∃ u : Tree α, u.label ∈ t.labels ∧ b ∈ first u ++ last u := by
  induction t using induct with
  | step t ih =>
    rw [gather_eq, List.mem_append, List.mem_append] at h
    rw [labels_eq]
    rcases h with (h | h) | h
    · exact ⟨t, List.mem_cons_self, List.mem_append_left _ h⟩
    · obtain ⟨part, hpart, h⟩ := List.mem_flatMap.1 h
      obtain ⟨u, hu, hb⟩ := ih part hpart h
      exact ⟨u, List.mem_cons_of_mem _ (List.mem_flatMap.2 ⟨part, hpart, hu⟩), hb⟩
    · exact ⟨t, List.mem_cons_self, List.mem_append_right _ h⟩

/-- The labels of a tree that is relabelled by its subtrees. -/
theorem labels_extend_tree (f : Tree α → β) (t : Tree α) :
    (t.extend fun p => f p.tree).labels = t.gather (fun u => [f u]) fun _ => [] := by
  have main (t : Tree α) (above : List (Tree α)) :
      (extendAt (fun p => f p.tree) above t).labels = t.gather (fun u => [f u]) fun _ => [] := by
    induction t using induct generalizing above with
    | step t ih =>
      rw [labels_eq, gather_eq, label_extendAt, children_extendAt, List.flatMap_map, List.append_nil]
      rw [List.flatMap_congr fun part hpart => ih part hpart (t :: above)]
      rfl
  exact main t []

end Tree

theorem Fields.exists_split {key : String} {v : Json} {fields : Fields}
    (h : fields.lookup key = some v) :
    ∃ before after, fields = before ++ (key, v) :: after ∧
      ∀ w, fields.set key w = before ++ (key, w) :: after := by
  induction fields with
  | nil => cases h
  | cons head fields ih =>
    obtain ⟨k, u⟩ := head
    by_cases hk : k = key
    · subst hk
      rw [List.lookup_cons_self] at h
      obtain rfl := Option.some.inj h
      exact ⟨[], fields, rfl, fun w => by rw [set, if_pos rfl, List.nil_append]⟩
    · rw [List.lookup_cons, beq_false_of_ne fun e => hk e.symm] at h
      obtain ⟨before, after, hfields, hset⟩ := ih h
      refine ⟨(k, u) :: before, after, by rw [hfields, List.cons_append], fun w => ?_⟩
      rw [set, if_neg hk, hset, List.cons_append]

namespace Outline

/-- Whether two schemas differ at most in the schema of one property that is declared at the end of a
path.  The path leads through properties and through items that all have one schema. -/
inductive DiffersAt : List Slot → Json → Json → Prop where
  | replaced {fields properties : Fields} {name : String} {sub : Json} (sub' : Json)
      (declared : fields.lookup "properties" = some (.obj properties))
      (present : properties.lookup name = some sub) :
      DiffersAt [.property name] (.obj fields)
        (.obj (fields.set "properties" (.obj (properties.set name sub'))))
  | property {fields properties : Fields} {name : String} {sub sub' : Json} {path : List Slot}
      (declared : fields.lookup "properties" = some (.obj properties))
      (present : properties.lookup name = some sub) (below : DiffersAt path sub sub') :
      DiffersAt (.property name :: path) (.obj fields)
        (.obj (fields.set "properties" (.obj (properties.set name sub'))))
  | item {fields items items' : Fields} {path : List Slot}
      (declared : fields.lookup "items" = some (.obj items)) (uniform : variants? items = none)
      (below : DiffersAt path (.obj items) (.obj items')) :
      DiffersAt (.item :: path) (.obj fields) (.obj (fields.set "items" (.obj items')))

/-- Whether a place is neither on the way to the end of a path nor below it. -/
def Apart (path place : List Slot) : Prop := ¬ path <+: place ∧ ¬ place <+: path

instance (path place : List Slot) : Decidable (Apart path place) :=
  inferInstanceAs (Decidable (_ ∧ _))

section Parts

variable {fields properties items items' : Fields} {name : String} {path : List Slot}
  {raw raw' sub : Json}

theorem parts_set_properties (sub' : Json)
    (declared : fields.lookup "properties" = some (.obj properties))
    (present : properties.lookup name = some sub) :
    ∃ before after, parts (.obj fields) = before ++ (.property name, sub) :: after ∧
      parts (.obj (fields.set "properties" (.obj (properties.set name sub')))) =
        before ++ (.property name, sub') :: after := by
  obtain ⟨before, after, hproperties, hset⟩ := Fields.exists_split present
  have hitems (v : Json) : itemParts (.obj (fields.set "properties" v)) = itemParts (.obj fields) := by
    rw [itemParts, itemParts, Json.field?, Json.field?, Fields.lookup_set_ne (by decide)]
  refine ⟨before.map fun part => (.property part.1, part.2),
    (after.map fun part => (.property part.1, part.2)) ++ itemParts (.obj fields), ?_, ?_⟩
  · rw [parts, propertyParts, Json.field?, declared, hproperties]
    simp
  · rw [parts, hitems, propertyParts, Json.field?, Fields.lookup_set_self, hset]
    simp

theorem variants?_set {key : String} (h : key ≠ "oneOf") (v : Json) (uniform : variants? items = none) :
    variants? (items.set key v) = none := by
  unfold variants? at uniform ⊢
  rw [Fields.lookup_set_ne h.symm]
  split at uniform
  · cases uniform
  · rfl

theorem DiffersAt.variants?_eq_none (h : DiffersAt path (.obj items) (.obj items'))
    (uniform : variants? items = none) : variants? items' = none := by
  cases h with
  | replaced => exact variants?_set (by decide) _ uniform
  | property => exact variants?_set (by decide) _ uniform
  | item => exact variants?_set (by decide) _ uniform

theorem parts_set_items (declared : fields.lookup "items" = some (.obj items))
    (uniform : variants? items = none) (uniform' : variants? items' = none) :
    parts (.obj fields) = propertyParts (.obj fields) ++ [(.item, .obj items)] ∧
      parts (.obj (fields.set "items" (.obj items'))) =
        propertyParts (.obj fields) ++ [(.item, .obj items')] := by
  have hproperties (v : Json) :
      propertyParts (.obj (fields.set "items" v)) = propertyParts (.obj fields) := by
    rw [propertyParts, propertyParts, Json.field?, Json.field?, Fields.lookup_set_ne (by decide)]
  refine ⟨?_, ?_⟩
  · rw [parts, itemParts, Json.field?, declared]
    simp only [uniform]
  · rw [parts, hproperties, itemParts, Json.field?, Fields.lookup_set_self]
    simp only [uniform']

/-- To leave out a keyword that has no places leaves a difference where it is. -/
theorem DiffersAt.erase {fields fields' : Fields} {key : String}
    (h : DiffersAt path (.obj fields) (.obj fields')) (hproperties : key ≠ "properties")
    (hitems : key ≠ "items") :
    DiffersAt path (.obj (fields.erase key)) (.obj (fields'.erase key)) := by
  have lookup (other : String) (hother : key ≠ other) :
      (fields.erase key).lookup other = fields.lookup other :=
    Fields.lookup_filter (p := fun k => k ≠ key) (by simpa using hother.symm) fields
  cases h with
  | replaced sub' declared present =>
    rw [Fields.erase_set_of_ne hproperties.symm]
    exact .replaced sub' ((lookup _ hproperties).trans declared) present
  | property declared present below =>
    rw [Fields.erase_set_of_ne hproperties.symm]
    exact .property ((lookup _ hproperties).trans declared) present below
  | item declared uniform below =>
    rw [Fields.erase_set_of_ne hitems.symm]
    exact .item ((lookup _ hitems).trans declared) uniform below

theorem DiffersAt.foldl_erase {fields fields' : Fields} {keys : List String}
    (h : DiffersAt path (.obj fields) (.obj fields')) (hproperties : "properties" ∉ keys)
    (hitems : "items" ∉ keys) :
    DiffersAt path (.obj (keys.foldl Fields.erase fields)) (.obj (keys.foldl Fields.erase fields')) := by
  induction keys generalizing fields fields' with
  | nil => exact h
  | cons key keys ih =>
    rw [List.mem_cons, not_or] at hproperties hitems
    exact ih (h.erase (Ne.symm hproperties.1) (Ne.symm hitems.1)) hproperties.2 hitems.2

end Parts

section Gathering

variable {β : Type} {place : β → List Slot} {first last : Tree Section → List β}
  (hfirst : ∀ u, ∀ b ∈ first u, place b = u.label.path)
  (hlast : ∀ u, ∀ b ∈ last u, place b = u.label.path)
  {path base : List Slot} {raw raw' : Json}

include hfirst hlast

/-- On the way to the end of a path, and below it, nothing that is gathered at the place itself is
apart from the path. -/
theorem filter_gather_build (h : ¬ Apart path base) :
    ((build base raw).gather first last).filter (fun b => Apart path (place b)) =
      (parts raw).flatMap fun part => ((build (base ++ [part.1]) part.2).gather first last).filter
        fun b => Apart path (place b) := by
  have hown (own : Tree Section → List β) (hown : ∀ u, ∀ b ∈ own u, place b = u.label.path) :
      (own (build base raw)).filter (fun b => Apart path (place b)) = [] := by
    refine List.filter_eq_nil_iff.2 fun b hb => ?_
    rw [hown _ b hb, label_build]
    simpa using h
  rw [Tree.gather_eq, List.filter_append, List.filter_append, hown first hfirst, hown last hlast,
    List.filter_flatMap, children_build, List.flatMap_map, List.nil_append, List.append_nil]

/-- Nothing that is gathered below the end of a path is apart from it. -/
theorem filter_gather_below (h : path <+: base) :
    ((build base raw).gather first last).filter (fun b => Apart path (place b)) = [] := by
  induction raw using induct generalizing base with
  | step raw ih =>
    rw [filter_gather_build hfirst hlast fun apart => apart.1 h]
    exact List.flatMap_eq_nil_iff.2 fun part hpart =>
      ih part hpart (h.trans (List.prefix_append _ _))

/-- What is gathered apart from a path does not tell schemas that differ at its end. -/
theorem DiffersAt.filter_gather (h : DiffersAt path raw raw') (base : List Slot) :
    ((build base raw').gather first last).filter (fun b => Apart (base ++ path) (place b)) =
      ((build base raw).gather first last).filter fun b => Apart (base ++ path) (place b) := by
  have above (path : List Slot) : ¬ Apart (base ++ path) base :=
    fun apart => apart.2 (List.prefix_append _ _)
  induction h generalizing base with
  | @replaced _ _ name sub sub' declared present =>
    obtain ⟨before, after, hparts, hparts'⟩ := parts_set_properties sub' declared present
    rw [filter_gather_build hfirst hlast (above _), filter_gather_build hfirst hlast (above _),
      hparts, hparts', List.flatMap_append, List.flatMap_append, List.flatMap_cons,
      List.flatMap_cons]
    dsimp only
    rw [filter_gather_below hfirst hlast (List.prefix_refl (base ++ [Slot.property name])),
      filter_gather_below hfirst hlast (List.prefix_refl (base ++ [Slot.property name]))]
  | @property _ _ name sub sub' path declared present _ ih =>
    obtain ⟨before, after, hparts, hparts'⟩ := parts_set_properties sub' declared present
    have hsub := ih (base ++ [.property name]) fun path apart => apart.2 (List.prefix_append _ _)
    rw [List.append_assoc, List.singleton_append] at hsub
    rw [filter_gather_build hfirst hlast (above _), filter_gather_build hfirst hlast (above _),
      hparts, hparts', List.flatMap_append, List.flatMap_append, List.flatMap_cons,
      List.flatMap_cons]
    dsimp only
    rw [hsub]
  | @item _ _ _ path declared uniform below ih =>
    obtain ⟨hparts, hparts'⟩ := parts_set_items declared uniform (below.variants?_eq_none uniform)
    have hsub := ih (base ++ [.item]) fun path apart => apart.2 (List.prefix_append _ _)
    rw [List.append_assoc, List.singleton_append] at hsub
    rw [filter_gather_build hfirst hlast (above _), filter_gather_build hfirst hlast (above _),
      hparts, hparts', List.flatMap_append, List.flatMap_append, List.flatMap_singleton,
      List.flatMap_singleton]
    dsimp only
    rw [hsub]

end Gathering

end Outline

namespace Definitions

theorem mem_references_of_mem {fields : Fields} {text : String} (h : (refKey, .str text) ∈ fields) :
    text ∈ references (.obj fields) := by
  rw [references]
  induction fields with
  | nil => cases h
  | cons head fields ih =>
    obtain ⟨key, given⟩ := head
    rcases List.mem_cons.1 h with heq | h
    · cases heq
      rw [fieldReferences, if_pos rfl]
      exact List.mem_cons_self
    · have := ih h
      cases given with
      | str s =>
        rw [fieldReferences]
        split
        · exact List.mem_cons_of_mem _ this
        · exact this
      | _ => exact List.mem_append_right _ this

/-- A schema in which no text is given for a reference has no references. -/
theorem resolved_of_references_eq_nil {namespaces : List String} {root : Bool} {v : Json}
    (h : references v = []) : Resolved namespaces root v := by
  match v, h with
  | .arr items, h =>
    refine .arr fun item hitem => ?_
    have := Json.size_le_sizeItems hitem
    exact resolved_of_references_eq_nil (List.subset_nil.1 (h ▸ references_subset_items hitem))
  | .obj fields, h =>
    have below {field : String × Json} (hfield : field ∈ fields) : references field.2 = [] :=
      List.subset_nil.1 (h ▸ references_subset_fields hfield)
    refine .obj (fun field hfield hkey => ?_)
      (fun field hfield _ _ properties hvalue property hproperty => ?_) fun field hfield _ _ => ?_
    · obtain ⟨key, given⟩ := field
      obtain rfl : key = refKey := hkey
      cases given with
      | str text => exact absurd (mem_references_of_mem hfield) (by simp [h])
      | _ => rfl
    · have hfields := Json.size_le_sizeFields hfield
      have := Json.size_le_sizeFields hproperty
      have hproperties := below hfield
      rw [hvalue] at hproperties
      rw [hvalue, Json.size] at hfields
      have : property.2.size < 1 + Json.sizeFields fields := by omega
      exact resolved_of_references_eq_nil
        (List.subset_nil.1 (hproperties ▸ references_subset_fields hproperty))
    · have := Json.size_le_sizeFields hfield
      exact resolved_of_references_eq_nil (below hfield)
  | .null, _ | .bool _, _ | .num _, _ | .str _, _ => exact .scalar rfl rfl
termination_by v.size
decreasing_by
  all_goals
    simp only [Json.size]
    omega

/-- Nothing is inlined in a schema without references; only its definitions are left out. -/
theorem inline_of_references_eq_nil (dialect : Dialect) {fields : Fields}
    (h : references (.obj fields) = []) :
    inline dialect (.obj fields) =
      .ok (.obj (dialect.namespaces.foldl Fields.erase fields), []) := by
  have hvalue : inlineValue ⟨fields, dialect.namespaces⟩ (references (.obj fields)).eraseDups ""
      (.obj fields) = .ok (.obj fields, []) :=
    (resolved_of_references_eq_nil h).inlineValue rfl
  rw [inline, hvalue]
  rfl

end Definitions

/-- What is known of a schema besides what the expressions and the parent give. -/
def Attributes.unwired (a : Attributes) : Attributes := { a with evaluators := [], observers := [] }

/-- What follows for a place follows from the subtree there, the evaluators excepted. -/
theorem Derivation.derive_root (data : Option Json) (p : Tree.Place Attributes) :
    (derive data p).1.unwired = (derive data p.tree.root).1.unwired ∧
      (derive data p).2 = (derive data p.tree.root).2 := by
  have hpicked : Reference.ofAttributes data { p.label with
        isEnumArray := (enumItem? p).isSome
        evaluators := seeded p } =
      Reference.ofAttributes data { p.tree.root.label with
        isEnumArray := (enumItem? p.tree.root).isSome
        evaluators := seeded p.tree.root } := rfl
  unfold derive
  dsimp only
  rw [hpicked]
  cases Reference.ofAttributes data { p.tree.root.label with
      isEnumArray := (enumItem? p.tree.root).isSome
      evaluators := seeded p.tree.root } with
  | error cause => exact ⟨rfl, rfl⟩
  | ok picked =>
    have hitem : enumItem? p.tree.root = enumItem? p := rfl
    refine ⟨?_, rfl⟩
    dsimp only
    rw [hitem]
    cases enumItem? p <;> rfl

namespace Outline

theorem childProblems_eq (children : List (Slot × Tree Section)) :
    childProblems children = children.flatMap fun part => problems part.2 := by
  induction children with
  | nil => rfl
  | cons part children ih => rw [childProblems, ih, List.flatMap_cons]

theorem problems_eq_gather (o : Tree Section) :
    problems o = o.gather (fun u => ownProblems u.label) fun u => itemProblems u.label := by
  induction o using Tree.induct with
  | step o ih =>
    rw [Tree.gather_eq, ← List.flatMap_congr ih, ← childProblems_eq]
    cases o
    rfl

theorem stage_of_mem_problems {o : Tree Section} {p : Problem} (h : p ∈ problems o) :
    p.stage = .outlining := by
  rw [problems_eq_gather] at h
  obtain ⟨u, -, h⟩ := Tree.exists_of_mem_gather h
  unfold ownProblems itemProblems at h
  rcases List.mem_append.1 h with h | h
  · rcases List.mem_append.1 h with h | h
    · split at h
      · cases h
      · exact List.mem_singleton.1 h ▸ rfl
    · split at h
      · cases h
      · cases h
      · exact List.mem_singleton.1 h ▸ rfl
  · split at h
    · cases h
    · cases h
    · cases h
    · exact List.mem_singleton.1 h ▸ rfl
    · exact List.mem_singleton.1 h ▸ rfl

end Outline

namespace Compilation

/-- A problem with the path of the place that it is found at. -/
abbrev Report := List Slot × Problem

/-- What is found at a place, which is a subtree with a label that knows its path. -/
def reported {α : Type} (path : α → List Slot) (found : Tree α → List Problem) (u : Tree α) :
    List Report :=
  (found u).map (path u.label, ·)

def outlineReports (outline : Tree Section) : List Report :=
  outline.gather (reported Section.path fun u => Outline.ownProblems u.label)
    (reported Section.path fun u => Outline.itemProblems u.label)

def typingReports (outline : Tree Section) : List Report :=
  outline.gather (reported Section.path fun u => (Typing.ofSection u.label).problem.toList)
    fun _ => []

def derivationReports (data : Option Json) (typed : Schema) : List Report :=
  typed.gather (reported (·.path) fun u => (Derivation.derive data u.root).2.toList) fun _ => []

/-- What is found at the places of an outline before expressions are read. -/
def reportsOf (settings : Settings) (cache : Enumeration.Cache) (outline : Tree Section)
    (data : Option Json) : List Report :=
  outlineReports outline ++ typingReports outline ++
    derivationReports data (typed settings cache outline)

/-- What is found at the places of a schema before expressions are read. -/
def reports (settings : Settings) (cache : Enumeration.Cache) (raw : Json) (data : Option Json) :
    List Report :=
  match Definitions.inline settings.dialect raw with
  | .ok (inlined, _) => reportsOf settings cache (Outline.ofJson inlined) data
  | .error _ => []

/-- What is known of the places of a schema that are apart from a path, besides what the expressions
and the parents give. -/
def unwiredApart (path : List Slot) (schema : Schema) : List Attributes :=
  (schema.labels.map Attributes.unwired).filter fun a => Outline.Apart path a.path

/-- Whether reports tell all that is found before expressions are read, each at the place that the
pointer of its problem names. -/
structure ReportedBy (c : Compiled) (reports : List Report) : Prop where
  problems : c.problems.filter (fun p => p.stage ≠ .expressions) = reports.map (·.2)
  pointer : ∀ r ∈ reports, r.2.pointer = Pointer.join (r.1.map Slot.token)
  place : ∀ r ∈ reports, r.1 ∈ c.schema.labels.map (·.path)

section Reports

variable {settings : Settings} {cache : Enumeration.Cache} {data : Option Json}
  {outline : Tree Section} {derived : Schema}

theorem map_reported {α : Type} (path : α → List Slot) (found : Tree α → List Problem) (u : Tree α) :
    (reported path found u).map (·.2) = found u := by
  rw [reported, List.map_map]
  exact List.map_id' _

theorem path_of_mem_reported {α : Type} {path : α → List Slot} {found : Tree α → List Problem}
    {u : Tree α} : ∀ r ∈ reported path found u, r.1 = path u.label := by
  intro r hr
  obtain ⟨problem, -, rfl⟩ := List.mem_map.1 hr
  rfl

theorem mem_of_mem_reported {α : Type} {path : α → List Slot} {found : Tree α → List Problem}
    {u : Tree α} {r : Report} (h : r ∈ reported path found u) : r.2 ∈ found u := by
  obtain ⟨problem, hproblem, rfl⟩ := List.mem_map.1 h
  exact hproblem

theorem map_outlineReports (outline : Tree Section) :
    (outlineReports outline).map (·.2) = Outline.problems outline := by
  simp only [outlineReports, Tree.map_gather, map_reported, Outline.problems_eq_gather]

theorem map_typingReports (outline : Tree Section) :
    (typingReports outline).map (·.2) =
      (typings outline).labels.filterMap fun typed => typed.2.problem := by
  have hlabels : (typings outline).labels =
      outline.gather (fun u => [(u.label, Typing.ofSection u.label)]) fun _ => [] :=
    Tree.labels_extend_tree (fun u => (u.label, Typing.ofSection u.label)) outline
  simp only [hlabels, Tree.filterMap_gather, typingReports, Tree.map_gather, map_reported,
    List.filterMap_cons, List.filterMap_nil, List.map_nil]
  congr 1

theorem map_derivationReports (data : Option Json) (typed : Schema) :
    (derivationReports data typed).map (·.2) =
      (typed.extend (Derivation.derive data)).labels.filterMap (·.2) := by
  have hlabels : ((typed.extend (Derivation.derive data)).map (·.2)).labels =
      typed.gather (fun u => [(Derivation.derive data u.root).2]) fun _ => [] := by
    rw [Tree.map_extend, ← Tree.labels_extend_tree]
    exact congrArg (fun f => (typed.extend f).labels)
      (funext fun p => (Derivation.derive_root data p).2)
  have hproblems : (typed.extend (Derivation.derive data)).labels.filterMap (·.2) =
      ((typed.extend (Derivation.derive data)).map (·.2)).labels.filterMap id := by
    rw [Tree.labels_map, List.filterMap_map]
    rfl
  simp only [hproblems, hlabels, Tree.filterMap_gather, derivationReports, Tree.map_gather,
    map_reported, List.filterMap_cons, List.filterMap_nil, List.map_nil, id]
  congr 1

theorem stage_typing_ne {s : Section} {p : Problem} (h : (Typing.ofSection s).problem = some p) :
    p.stage ≠ .expressions := by
  unfold Typing.ofSection at h
  split at h
  · split at h
    · obtain rfl := Option.some.inj h
      simp
    · split at h
      · obtain rfl := Option.some.inj h
        simp
      · split at h
        · obtain rfl := Option.some.inj h
          simp
        · cases h
  · cases h

theorem stage_derive_ne {place : Tree.Place Attributes} {p : Problem}
    (h : (Derivation.derive data place).2 = some p) : p.stage ≠ .expressions := by
  unfold Derivation.derive at h
  dsimp only at h
  split at h
  · obtain rfl := Option.some.inj h
    simp
  · cases h

theorem stage_of_mem_wire {p : Problem} (h : p ∈ (Wiring.wire derived).2) : p.stage = .expressions := by
  obtain ⟨⟨a, w⟩, -, h⟩ := List.mem_filterMap.1 h
  obtain ⟨cause, -, rfl⟩ := Option.map_eq_some_iff.1 h
  rfl

theorem map_unwired_wire (derived : Schema) :
    (Wiring.wire derived).1.map Attributes.unwired = derived.map Attributes.unwired := by
  rw [Wiring.wire, Tree.map_map, Tree.map_extend]
  rfl

theorem exists_label_of_report {r : Report} (h : r ∈ reportsOf settings cache outline data) :
    ∃ s ∈ outline.labels, r.1 = s.path ∧ r.2.pointer = s.pointer := by
  rw [reportsOf, List.mem_append, List.mem_append] at h
  rcases h with (h | h) | h
  · obtain ⟨u, hu, h⟩ := Tree.exists_of_mem_gather h
    refine ⟨u.label, hu, ?_⟩
    rcases List.mem_append.1 h with h | h
    · exact ⟨path_of_mem_reported r h, Outline.pointer_of_ownProblems _ (mem_of_mem_reported h)⟩
    · exact ⟨path_of_mem_reported r h, Outline.pointer_of_itemProblems _ (mem_of_mem_reported h)⟩
  · obtain ⟨u, hu, h⟩ := Tree.exists_of_mem_gather h
    rw [List.append_nil] at h
    exact ⟨u.label, hu, path_of_mem_reported r h,
      Typing.pointer_of_problem (Option.mem_toList.1 (mem_of_mem_reported h))⟩
  · obtain ⟨u, hu, h⟩ := Tree.exists_of_mem_gather h
    rw [List.append_nil] at h
    rw [typed, Tree.labels_map] at hu
    obtain ⟨s, hs, hlabel⟩ := List.mem_map.1 hu
    have hpointer := Derivation.pointer_of_problem (Option.mem_toList.1 (mem_of_mem_reported h))
    have hpath := path_of_mem_reported r h
    rw [Tree.Place.label, Tree.root, ← hlabel] at hpointer
    rw [← hlabel] at hpath
    exact ⟨s, hs, hpath, hpointer⟩

section Outcome

variable {raw inlined : Json} {c : Compiled} (host : settings.sources.host = none)
  (inline_eq : Definitions.inline settings.dialect raw = .ok (inlined, []))
  (compiled : (compile settings cache raw data).1 = .ok c)

include host inline_eq compiled

theorem filter_problems_of_compile :
    c.problems.filter (fun p => p.stage ≠ .expressions) =
      (reports settings cache raw data).map (·.2) := by
  rw [compile_eq_of_inline host inline_eq] at compiled
  obtain ⟨⟨derived, derivation⟩, hderive, rfl⟩ := map_eq_ok.1 compiled
  obtain rfl := derivation_eq hderive
  have houtline : (Outline.problems (Outline.ofJson inlined)).filter
      (fun p => p.stage ≠ .expressions) = Outline.problems (Outline.ofJson inlined) :=
    List.filter_eq_self.2 fun p hp => by simp [Outline.stage_of_mem_problems hp]
  have htyping : ((typings (Outline.ofJson inlined)).labels.filterMap fun typed =>
      typed.2.problem).filter (fun p => p.stage ≠ .expressions) =
        (typings (Outline.ofJson inlined)).labels.filterMap fun typed => typed.2.problem := by
    refine List.filter_eq_self.2 fun p hp => ?_
    rw [typings, Tree.labels_map, List.filterMap_map] at hp
    obtain ⟨s, -, hs⟩ := List.mem_filterMap.1 hp
    simpa using stage_typing_ne hs
  have hderivation : (((typed settings cache (Outline.ofJson inlined)).extend
      (Derivation.derive data)).labels.filterMap (·.2)).filter (fun p => p.stage ≠ .expressions) =
        ((typed settings cache (Outline.ofJson inlined)).extend
          (Derivation.derive data)).labels.filterMap (·.2) := by
    refine List.filter_eq_self.2 fun p hp => ?_
    rw [Tree.labels_extend, List.filterMap_map] at hp
    obtain ⟨place, -, hplace⟩ := List.mem_filterMap.1 hp
    simpa using stage_derive_ne hplace
  have hwiring : (Wiring.wire derived).2.filter (fun p => p.stage ≠ .expressions) = [] :=
    List.filter_eq_nil_iff.2 fun p hp => by simp [stage_of_mem_wire hp]
  rw [reports, inline_eq]
  dsimp only
  rw [reportsOf, List.map_append, List.map_append, map_outlineReports, map_typingReports,
    map_derivationReports, wired, List.nil_append, List.filter_append, List.filter_append,
    List.filter_append, houtline, htyping, hderivation, hwiring, List.append_nil]

omit host in
theorem place_of_mem_reports {r : Report} (h : r ∈ reports settings cache raw data) :
    r.2.pointer = Pointer.join (r.1.map Slot.token) ∧ r.1 ∈ c.schema.labels.map (·.path) := by
  rw [reports, inline_eq] at h
  obtain ⟨s, hs, hplace, hpointer⟩ := exists_label_of_report h
  obtain ⟨inlined', offer, derived, stages⟩ := exists_stages compiled
  obtain ⟨inlining, hinline⟩ := stages.inline_eq
  obtain rfl := (Prod.mk.inj (Except.ok.inj (inline_eq.symm.trans hinline))).1
  have hlabels := congrArg (List.map Section.path) (map_toSection_labels stages.map_core)
  rw [List.map_map] at hlabels
  refine ⟨by rw [hpointer, hplace]; rfl, ?_⟩
  rw [hplace, show c.schema.labels.map (·.path) = _ from hlabels]
  exact List.mem_map_of_mem hs

/-- What is found before expressions are read is all that is found, expressions aside. -/
theorem reports_of_compile : ReportedBy c (reports settings cache raw data) :=
  ⟨filter_problems_of_compile host inline_eq compiled,
    fun _ hr => (place_of_mem_reports inline_eq compiled hr).1,
    fun _ hr => (place_of_mem_reports inline_eq compiled hr).2⟩

theorem labels_unwired_of_compile :
    c.schema.labels.map Attributes.unwired =
      (typed settings cache (Outline.ofJson inlined)).gather
        (fun u => [(Derivation.derive data u.root).1.unwired]) fun _ => [] := by
  rw [compile_eq_of_inline host inline_eq] at compiled
  obtain ⟨⟨derived, derivation⟩, hderive, rfl⟩ := map_eq_ok.1 compiled
  obtain rfl := derive_eq_ok hderive
  rw [wired, ← Tree.labels_map, map_unwired_wire, Tree.map_map, Tree.map_extend,
    ← Tree.labels_extend_tree]
  exact congrArg (fun f => ((typed settings cache (Outline.ofJson inlined)).extend f).labels)
    (funext fun p => (Derivation.derive_root data p).1)

end Outcome

end Reports

section Places

variable {settings : Settings} {cache : Enumeration.Cache} {data : Option Json}
  {path : List Slot} {raw raw' : Json}

/-- What is gathered of typed schemas apart from a path does not tell schemas that differ at its
end. -/
theorem filter_gather_typed {β : Type} {place : β → List Slot} {first : Schema → List β}
    (hfirst : ∀ u, ∀ b ∈ first u, place b = u.label.path) (h : Outline.DiffersAt path raw raw') :
    ((typed settings cache (Outline.ofJson raw')).gather first fun _ => []).filter
        (fun b => Outline.Apart path (place b)) =
      ((typed settings cache (Outline.ofJson raw)).gather first fun _ => []).filter
        fun b => Outline.Apart path (place b) := by
  rw [typed, typed, Tree.gather_map, Tree.gather_map]
  have hplace (u : Tree Section) : ∀ b ∈ first (u.map fun s =>
      (Typing.ofSection s).attributes (settings.sources.choices? cache) s), place b = u.label.path := by
    intro b hb
    rw [hfirst _ b hb, Tree.label_map]
    rfl
  exact h.filter_gather hplace (fun _ => List.forall_mem_nil _) []

theorem filter_reportsOf (h : Outline.DiffersAt path raw raw') :
    (reportsOf settings cache (Outline.ofJson raw') data).filter (fun r => Outline.Apart path r.1) =
      (reportsOf settings cache (Outline.ofJson raw) data).filter fun r => Outline.Apart path r.1 := by
  have houtline : (outlineReports (Outline.ofJson raw')).filter (fun r => Outline.Apart path r.1) =
      (outlineReports (Outline.ofJson raw)).filter fun r => Outline.Apart path r.1 :=
    h.filter_gather (fun _ => path_of_mem_reported) (fun _ => path_of_mem_reported) []
  have htyping : (typingReports (Outline.ofJson raw')).filter (fun r => Outline.Apart path r.1) =
      (typingReports (Outline.ofJson raw)).filter fun r => Outline.Apart path r.1 :=
    h.filter_gather (fun _ => path_of_mem_reported) (fun _ => List.forall_mem_nil _) []
  have hderivation : (derivationReports data (typed settings cache (Outline.ofJson raw'))).filter
        (fun r => Outline.Apart path r.1) =
      (derivationReports data (typed settings cache (Outline.ofJson raw))).filter
        fun r => Outline.Apart path r.1 :=
    filter_gather_typed (fun _ => path_of_mem_reported) h
  rw [reportsOf, reportsOf, List.filter_append, List.filter_append, List.filter_append,
    List.filter_append]
  exact congrArg₂ (· ++ ·) (congrArg₂ (· ++ ·) houtline htyping) hderivation

end Places

section Isolation

variable {settings : Settings} {cache : Enumeration.Cache} {data : Option Json}
  {path : List Slot} {raw raw' : Json} {c c' : Compiled}

/-- Schemas without references that differ in the schema of one property differ there as well when
their definitions are left out. -/
theorem exists_inlined_of_differsAt {dialect : Dialect} (h : Outline.DiffersAt path raw raw')
    (plain : Definitions.references raw = []) (plain' : Definitions.references raw' = []) :
    ∃ inlined inlined', Definitions.inline dialect raw = .ok (inlined, []) ∧
      Definitions.inline dialect raw' = .ok (inlined', []) ∧
        Outline.DiffersAt path inlined inlined' := by
  have hobj : ∃ fields fields', raw = .obj fields ∧ raw' = .obj fields' := by
    cases h <;> exact ⟨_, _, rfl, rfl⟩
  obtain ⟨fields, fields', rfl, rfl⟩ := hobj
  exact ⟨_, _, Definitions.inline_of_references_eq_nil dialect plain,
    Definitions.inline_of_references_eq_nil dialect plain',
    h.foldl_erase (by cases dialect <;> decide) (by cases dialect <;> decide)⟩

theorem filter_reports (h : Outline.DiffersAt path raw raw')
    (plain : Definitions.references raw = []) (plain' : Definitions.references raw' = []) :
    (reports settings cache raw' data).filter (fun r => Outline.Apart path r.1) =
      (reports settings cache raw data).filter fun r => Outline.Apart path r.1 := by
  obtain ⟨inlined, inlined', hinline, hinline', hdiffers⟩ := exists_inlined_of_differsAt h plain plain'
  rw [reports, reports, hinline, hinline']
  exact filter_reportsOf hdiffers

/-- A change of the schema of one property, however malformed, leaves all places apart from it as they
are, and so it leaves what is reported of them, both as far as no expressions are read.  Reports are
told apart by their places, since a property that is named like the token of the items beside it shares
a pointer with them. -/
theorem unwiredApart_of_differsAt (host : settings.sources.host = none)
    (plain : Definitions.references raw = []) (plain' : Definitions.references raw' = [])
    (differs : Outline.DiffersAt path raw raw')
    (compiled : (compile settings cache raw data).1 = .ok c)
    (compiled' : (compile settings cache raw' data).1 = .ok c') :
    unwiredApart path c'.schema = unwiredApart path c.schema ∧
      ReportedBy c (reports settings cache raw data) ∧
      ReportedBy c' (reports settings cache raw' data) ∧
      (reports settings cache raw' data).filter (fun r => Outline.Apart path r.1) =
        (reports settings cache raw data).filter fun r => Outline.Apart path r.1 := by
  obtain ⟨inlined, inlined', hinline, hinline', hdiffers⟩ :=
    exists_inlined_of_differsAt differs plain plain'
  refine ⟨?_, reports_of_compile host hinline compiled, reports_of_compile host hinline' compiled',
    filter_reports differs plain plain'⟩
  rw [unwiredApart, unwiredApart, labels_unwired_of_compile host hinline compiled,
    labels_unwired_of_compile host hinline' compiled']
  have hplace (u : Schema) : ∀ a ∈ [(Derivation.derive data u.root).1.unwired], a.path = u.label.path := by
    intro a ha
    obtain rfl := List.mem_singleton.1 ha
    exact congrArg Section.path (Derivation.derive_label data u.root).1
  exact filter_gather_typed hplace hdiffers

/-- Without a host and without references to inline, only a relative pointer to values to pick from can
be refused. -/
theorem exists_compiled (host : settings.sources.host = none) {inlined : Json}
    (inline_eq : Definitions.inline settings.dialect raw = .ok (inlined, []))
    (unrefused : ∀ s ∈ (Outline.ofJson inlined).labels, s.keyword? "reference" = none) :
    ∃ c, (compile settings cache raw data).1 = .ok c := by
  have hrefusal : (typed settings cache (Outline.ofJson inlined)).labels.findSome?
      Reference.refusal? = none := by
    rw [List.findSome?_eq_none_iff, typed, Tree.labels_map]
    rintro _ ha
    obtain ⟨s, hs, rfl⟩ := List.mem_map.1 ha
    have hkeyword : ((Typing.ofSection s).attributes (settings.sources.choices? cache) s).keyword?
        "reference" = none := unrefused s hs
    rw [Reference.refusal?, hkeyword]
  rw [compile_eq_of_inline host inline_eq, derive, hrefusal]
  exact ⟨_, rfl⟩

/-- At the pointer of places apart from a changed property alone, the same problems are collected. -/
theorem problemsAt_of_differsAt (host : settings.sources.host = none)
    (plain : Definitions.references raw = []) (plain' : Definitions.references raw' = [])
    (differs : Outline.DiffersAt path raw raw')
    (compiled : (compile settings cache raw data).1 = .ok c)
    (compiled' : (compile settings cache raw' data).1 = .ok c') {pointer : String}
    (apart : ∀ place, Pointer.join (place.map Slot.token) = pointer → Outline.Apart path place) :
    (c'.problemsAt pointer).filter (fun p => p.stage ≠ .expressions) =
      (c.problemsAt pointer).filter fun p => p.stage ≠ .expressions := by
  obtain ⟨inlined, inlined', hinline, hinline', -⟩ := exists_inlined_of_differsAt differs plain plain'
  have hat {c : Compiled} {reports : List Report} (h : ReportedBy c reports) :
      (c.problemsAt pointer).filter (fun p => p.stage ≠ .expressions) =
        ((reports.filter fun r => Outline.Apart path r.1).filter
          fun r => r.2.pointer == pointer).map (·.2) := by
    have hkeep : (reports.filter fun r => Outline.Apart path r.1).filter
        (fun r => r.2.pointer == pointer) = reports.filter fun r => r.2.pointer == pointer := by
      rw [List.filter_filter]
      refine List.filter_congr fun r hr => ?_
      by_cases hpointer : r.2.pointer = pointer
      · have hplace := apart r.1 ((h.pointer r hr).symm.trans hpointer)
        simp [hpointer, hplace]
      · simp [hpointer]
    rw [hkeep, Compiled.problemsAt, List.filter_comm, h.problems, List.filter_map]
    rfl
  rw [hat (reports_of_compile host hinline compiled),
    hat (reports_of_compile host hinline' compiled'), filter_reports differs plain plain']

end Isolation

/-! An order with lines, one keyword of which is malformed, before and after the schema of the count
has been replaced by one that is malformed too. -/

namespace Order

def unit : Json := .obj [("type", .str "text")]

def line (count : Json) : Fields := [("properties", .obj [("count", count), ("unit", unit)])]

def kind : Json := .obj [("enum", .arr [.str "new", .str "used"])]

def lines (count : Json) : Fields := [("items", .obj (line count))]

def fields (count : Json) : Fields :=
  [("properties", .obj [("kind", kind), ("lines", .obj (lines count))])]

def raw (count : Json) : Json := .obj (fields count)

def path : List Slot := [.property "lines", .item, .property "count"]

theorem differsAt (count count' : Json) : Outline.DiffersAt path (raw count) (raw count') := by
  have hcount : List.lookup "count" [("count", count), ("unit", unit)] = some count := rfl
  have hline : Outline.DiffersAt [.property "count"] (.obj (line count)) (.obj (line count')) :=
    .replaced count' rfl hcount
  have hlines : Outline.DiffersAt [.item, .property "count"] (.obj (lines count))
      (.obj (lines count')) := .item rfl rfl hline
  have hproperty : List.lookup "lines" [("kind", kind), ("lines", .obj (lines count))] =
      some (.obj (lines count)) := rfl
  exact .property rfl hproperty hlines

def count : Json := .obj [("type", .str "integer")]

def malformed : Json := .bool false

def outline (count : Json) : Tree Section :=
  .node ⟨[], raw count, false⟩
    [(.property "kind", .node ⟨[.property "kind"], kind, false⟩ []),
      (.property "lines", .node ⟨[.property "lines"], .obj (lines count), false⟩
        [(.item, .node ⟨[.property "lines", .item], .obj (line count), false⟩
          [(.property "count", .node ⟨path, count, false⟩ []),
            (.property "unit", .node ⟨[.property "lines", .item, .property "unit"], unit, false⟩
              [])])])]

theorem inline_count : Definitions.inline ({} : Settings).dialect (raw count) = .ok (raw count, []) := by
  cbv

theorem inline_malformed :
    Definitions.inline ({} : Settings).dialect (raw malformed) = .ok (raw malformed, []) := by
  cbv

theorem outline_count : Outline.ofJson (raw count) = outline count := by cbv

theorem outline_malformed : Outline.ofJson (raw malformed) = outline malformed := by cbv

theorem exists_compiled_count : ∃ c, (compile {} {} (raw count) none).1 = .ok c := by
  have unrefused : ∀ s ∈ (outline count).labels, s.keyword? "reference" = none := by decide +kernel
  exact exists_compiled rfl inline_count (outline_count ▸ unrefused)

theorem exists_compiled_malformed : ∃ c, (compile {} {} (raw malformed) none).1 = .ok c := by
  have unrefused : ∀ s ∈ (outline malformed).labels, s.keyword? "reference" = none := by
    decide +kernel
  exact exists_compiled rfl inline_malformed (outline_malformed ▸ unrefused)

/-- The malformed keyword is reported apart from the malformed schema. -/
theorem reports_malformed : ((reports {} {} (raw malformed) none).filter
    fun r => Outline.Apart path r.1).map (·.1) = [path.dropLast ++ [.property "unit"]] := by
  rw [reports, inline_malformed]
  dsimp only
  rw [outline_malformed]
  rfl

end Order

theorem unwiredApart_of_differsAt_order : ∃ c c',
    (compile {} {} (Order.raw Order.count) none).1 = .ok c ∧
      (compile {} {} (Order.raw Order.malformed) none).1 = .ok c' ∧
      (unwiredApart Order.path c'.schema = unwiredApart Order.path c.schema ∧
        ReportedBy c (reports {} {} (Order.raw Order.count) none) ∧
        ReportedBy c' (reports {} {} (Order.raw Order.malformed) none) ∧
        (reports {} {} (Order.raw Order.malformed) none).filter
            (fun r => Outline.Apart Order.path r.1) =
          (reports {} {} (Order.raw Order.count) none).filter
            fun r => Outline.Apart Order.path r.1) ∧
      ((reports {} {} (Order.raw Order.malformed) none).filter
        fun r => Outline.Apart Order.path r.1).map (·.1) =
          [[.property "lines", .item, .property "unit"]] := by
  obtain ⟨c, compiled⟩ := Order.exists_compiled_count
  obtain ⟨c', compiled'⟩ := Order.exists_compiled_malformed
  exact ⟨c, c', compiled, compiled', unwiredApart_of_differsAt rfl (by decide) (by decide)
    (Order.differsAt Order.count Order.malformed) compiled compiled', Order.reports_malformed⟩

end Compilation

end FormSchema
