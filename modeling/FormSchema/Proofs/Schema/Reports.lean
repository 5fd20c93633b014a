import FormSchema.Proofs.Schema.Halting
import FormSchema.Proofs.Schema.Normal
import FormSchema.Proofs.Schema.Observers

/-!
Where problems are reported.  The stages that work on places report a problem at the place that has it.
Inlining comes before there are places and keeps a pointer of its own; it is that of a place, unless a
schema stands where the outline has no place, or stands in items that are told apart by variants.
-/

namespace FormSchema

theorem Pointer.child_append_join (pointer token : String) (tokens : List String) :
    Pointer.child pointer token ++ Pointer.join tokens =
      pointer ++ Pointer.join (token :: tokens) := by
  rw [Pointer.child, String.append_assoc, Pointer.join, Pointer.join, List.flatMap_cons,
    String.ofList_append]

namespace Definitions

variable {source : Source} {stack : List String} {pointer : String} {fields : Fields}

/-- Whether a value is or has a schema for the data that some tokens lead to.  Lists and keywords for
schemas lead to the same data, data keywords and the definitions of the root nowhere. -/
inductive Describes (namespaces : List String) : Bool → Json → List String → Prop where
  | self {root : Bool} {fields : Fields} : Describes namespaces root (.obj fields) []
  | item {root : Bool} {items : List Json} {item : Json} {tokens : List String} (mem : item ∈ items)
      (below : Describes namespaces root item tokens) : Describes namespaces root (.arr items) tokens
  | property {root : Bool} {fields properties : Fields} {name : String} {schema : Json}
      {tokens : List String} (unkept : isKept namespaces root "properties" = false)
      (mem : ("properties", .obj properties) ∈ fields) (property_mem : (name, schema) ∈ properties)
      (below : Describes namespaces false schema tokens) :
      Describes namespaces root (.obj fields) (name :: tokens)
  | items {root : Bool} {fields : Fields} {schema : Json} {tokens : List String}
      (unkept : isKept namespaces root "items" = false) (mem : ("items", schema) ∈ fields)
      (below : Describes namespaces false schema tokens) :
      Describes namespaces root (.obj fields) ("*" :: tokens)
  | keyword {root : Bool} {fields : Fields} {key : String} {value : Json} {tokens : List String}
      (unkept : isKept namespaces root key = false) (other : key ≠ "properties" ∧ key ≠ "items")
      (mem : (key, value) ∈ fields) (below : Describes namespaces root value tokens) :
      Describes namespaces root (.obj fields) tokens

/-- Whether a problem of inlining is reported where the outcome describes something. -/
structure Reported (namespaces : List String) (pointer : String) (out : Json) (p : Problem) :
    Prop where
  stage : p.stage = .inlining
  described : ∃ tokens, p.pointer = pointer ++ Pointer.join tokens ∧
    Describes namespaces pointer.isEmpty out tokens

theorem reported_problem {namespaces : List String} (cause : Problem.Cause) :
    Reported namespaces pointer (.obj fields) (problem pointer cause) :=
  ⟨rfl, [], (String.append_empty (s := pointer)).symm, .self⟩

section Rounds

variable {α β : Type}

theorem bind_eq_finished {x : Bounded α} {f : α → Bounded β} {b : β}
    (h : x >>= f = finished (.ok b)) : ∃ a, x = finished (.ok a) ∧ f a = finished (.ok b) := by
  match x, h with
  | some (.ok a), h => exact ⟨a, rfl, h⟩

/-- What is reported of a list is reported of one of its members. -/
theorem exists_of_gather {f : α → Bounded (β × List Problem)} {l : List α} {bs : List β}
    {problems : List Problem} (h : gather f l = finished (.ok (bs, problems))) {p : Problem}
    (hp : p ∈ problems) :
    ∃ a ∈ l, ∃ b own, f a = finished (.ok (b, own)) ∧ b ∈ bs ∧ p ∈ own := by
  induction l generalizing bs problems with
  | nil =>
    cases h
    cases hp
  | cons a l ih =>
    obtain ⟨⟨b, own⟩, hhead, h⟩ := bind_eq_finished h
    obtain ⟨⟨rest, more⟩, htail, h⟩ := bind_eq_finished h
    cases h
    rcases List.mem_append.1 hp with hp | hp
    · exact ⟨a, List.mem_cons_self, b, own, hhead, List.mem_cons_self, hp⟩
    · obtain ⟨a', ha', b', own', hf, hb', hp'⟩ := ih htail hp
      exact ⟨a', List.mem_cons_of_mem _ ha', b', own', hf, List.mem_cons_of_mem _ hb', hp'⟩

/-- Whether all that is reported of values is reported where their outcomes describe something. -/
def Reporting (namespaces : List String) (next : String → Json → Bounded (Json × List Problem)) :
    Prop :=
  ∀ pointer value out problems, next pointer value = finished (.ok (out, problems)) →
    ∀ p ∈ problems, Reported namespaces pointer out p

variable {next : String → Json → Bounded (Json × List Problem)} {out : Json}
  {problems : List Problem}

theorem Reporting.roundField (h : Reporting source.namespaces next) {field : String × Json}
    (hfield : roundField source next pointer field = finished (.ok (out, problems)))
    (hmem : (field.1, out) ∈ fields) :
    ∀ p ∈ problems, Reported source.namespaces pointer (.obj fields) p := by
  obtain ⟨key, given⟩ := field
  rw [Definitions.roundField] at hfield
  intro p hp
  split at hfield
  · cases hfield
    cases hp
  · rename_i hkept
    have hkept := Bool.eq_false_iff.2 hkept
    split at hfield
    · rename_i hkey
      obtain rfl : key = "properties" := hkey
      cases given with
      | obj properties =>
        obtain ⟨⟨outs, all⟩, hgather, heq⟩ := bind_eq_finished hfield
        cases heq
        obtain ⟨property, -, part, own, hpart, hpartMem, hp⟩ := exists_of_gather hgather hp
        obtain ⟨⟨schema, own⟩, hnext, heq⟩ := bind_eq_finished hpart
        cases heq
        obtain ⟨hstage, tokens, hpointer, hbelow⟩ := h _ _ _ _ hnext p hp
        rw [isEmpty_child] at hbelow
        exact ⟨hstage, property.1 :: tokens, by rw [hpointer, Pointer.child_append_join],
          .property hkept hmem hpartMem hbelow⟩
      | _ =>
        cases hfield
        cases hp
    · rename_i hproperties
      obtain ⟨hstage, tokens, hpointer, hbelow⟩ := h _ _ _ _ hfield p hp
      rw [isEmpty_part] at hbelow
      by_cases hitems : key = "items"
      · subst hitems
        rw [if_pos rfl, Pointer.child_append_join] at hpointer
        rw [bne_self_eq_false, Bool.and_false] at hbelow
        exact ⟨hstage, "*" :: tokens, hpointer, .items hkept hmem hbelow⟩
      · rw [if_neg hitems] at hpointer
        rw [bne_iff_ne.2 hitems, Bool.and_true] at hbelow
        exact ⟨hstage, tokens, hpointer, .keyword hkept ⟨hproperties, hitems⟩ hmem hbelow⟩

theorem Reporting.roundObject (h : Reporting source.namespaces next) {reported : List Problem}
    (hreported : ∀ p ∈ reported, ∃ cause, p = problem pointer cause)
    (hobject : roundObject source next pointer fields reported = finished (.ok (out, problems))) :
    (∃ fields, out = .obj fields) ∧ ∀ p ∈ problems, Reported source.namespaces pointer out p := by
  obtain ⟨⟨outs, all⟩, hgather, heq⟩ := bind_eq_finished hobject
  cases heq
  refine ⟨⟨outs, rfl⟩, fun p hp => ?_⟩
  rcases List.mem_append.1 hp with hp | hp
  · obtain ⟨cause, rfl⟩ := hreported p hp
    exact reported_problem cause
  · obtain ⟨field, -, part, own, hpart, hmem, hp⟩ := exists_of_gather hgather hp
    obtain ⟨⟨value, own⟩, hfield, heq⟩ := bind_eq_finished hpart
    cases heq
    exact h.roundField hfield hmem p hp

end Rounds

theorem definitionFields_problem {definition : Json} :
    ∀ p ∈ (definitionFields pointer definition).2, ∃ cause, p = problem pointer cause := by
  intro p hp
  unfold definitionFields at hp
  split at hp
  · cases hp
  · cases hp
  · exact ⟨_, List.mem_singleton.1 hp⟩

/-- Inlining makes objects of objects, and reports problems where the outcome describes something. -/
theorem reported_of_within {depth : Nat} {value out : Json} {problems : List Problem}
    (h : inlineValueWithin source depth stack pointer value = finished (.ok (out, problems))) :
    (∀ fields, value = .obj fields → ∃ fields, out = .obj fields) ∧
      ∀ p ∈ problems, Reported source.namespaces pointer out p := by
  induction depth generalizing stack pointer value out problems with
  | zero => cases h
  | succ depth ih =>
    have next (stack : List String) :
        Reporting source.namespaces (inlineValueWithin source depth stack) :=
      fun _ _ _ _ h => (ih h).2
    have single (cause : Problem.Cause) :
        ∀ p ∈ [problem pointer cause], ∃ cause, p = problem pointer cause :=
      List.forall_mem_singleton.2 ⟨cause, rfl⟩
    rw [inlineValueWithin] at h
    unfold round at h
    split at h
    · split at h
      · exact ((next stack).roundObject (List.forall_mem_nil _) h).imp (fun h _ _ => h) id
      · split at h
        · cases h
        · exact ((next stack).roundObject (single _) h).imp (fun h _ _ => h) id
        · split at h
          · exact ((next stack).roundObject (single _) h).imp (fun h _ _ => h) id
          · obtain ⟨⟨value, more⟩, hnext, heq⟩ := bind_eq_finished h
            cases heq
            obtain ⟨hobject, hmore⟩ := ih hnext
            obtain ⟨fields, rfl⟩ := hobject _ rfl
            refine ⟨fun _ _ => ⟨fields, rfl⟩, List.forall_mem_append.2 ⟨fun p hp => ?_, hmore⟩⟩
            obtain ⟨cause, rfl⟩ := definitionFields_problem p hp
            exact reported_problem cause
    · obtain ⟨⟨items, all⟩, hgather, heq⟩ := bind_eq_finished h
      cases heq
      refine ⟨fun _ hvalue => Json.noConfusion hvalue, fun p hp => ?_⟩
      obtain ⟨item, -, part, own, hpart, hmem, hp⟩ := exists_of_gather hgather hp
      obtain ⟨hstage, tokens, hpointer, hbelow⟩ := next stack _ _ _ _ hpart p hp
      exact ⟨hstage, tokens, hpointer, .item hmem hbelow⟩
    · rename_i hobj _
      cases h
      exact ⟨fun fields hvalue => absurd hvalue (hobj fields), List.forall_mem_nil _⟩

/-- What a schema describes does not depend on its definitions. -/
theorem Describes.foldl_erase {namespaces : List String} {tokens : List String}
    (h : Describes namespaces true (.obj fields) tokens) :
    Describes namespaces true (.obj (namespaces.foldl Fields.erase fields)) tokens := by
  have stays {field : String × Json} (unkept : isKept namespaces true field.1 = false)
      (hmem : field ∈ fields) : field ∈ namespaces.foldl Fields.erase fields := by
    simp only [isKept, Bool.true_and, Bool.or_eq_false_iff] at unkept
    exact mem_foldl_erase.2 ⟨hmem, fun h => by simp [h] at unkept⟩
  cases h with
  | self => exact .self
  | property unkept mem property_mem below =>
    exact .property unkept (stays unkept mem) property_mem below
  | items unkept mem below => exact .items unkept (stays unkept mem) below
  | keyword unkept other mem below => exact .keyword unkept other (stays unkept mem) below

theorem reported_of_inline {dialect : Dialect} {document out : Json} {problems : List Problem}
    (h : inline dialect document = .ok (out, problems)) {p : Problem} (hp : p ∈ problems) :
    p.stage = .inlining ∧
      ∃ tokens, p.pointer = Pointer.join tokens ∧ Describes dialect.namespaces true out tokens := by
  cases document with
  | obj fields =>
    obtain ⟨⟨value, all⟩, hvalue, heq⟩ := bind_eq_ok.1 h
    have hwithin := inlineValueWithin_document fields dialect 0
    rw [hvalue] at hwithin
    obtain ⟨hobject, hall⟩ := reported_of_within hwithin
    obtain ⟨inner, rfl⟩ := hobject fields rfl
    cases heq
    obtain ⟨hstage, tokens, hpointer, hdescribes⟩ := hall p hp
    exact ⟨hstage, tokens, by rw [hpointer, String.empty_append], hdescribes.foldl_erase⟩
  | _ =>
    cases h
    cases hp

end Definitions

namespace Outline

open Definitions

variable {namespaces : List String} {path : List Slot} {raw : Json} {s : Section}

/-- How a schema describes data for which the outline has no other place than the one of a schema
around it: by a list in the place of a schema, by a list of items, by items that are told apart by
variants, or below another keyword than those for properties and items. -/
inductive Astray (namespaces : List String) (root : Bool) : Json → List String → Prop where
  | list {items : List Json} {item : Json} {tokens : List String} (mem : item ∈ items)
      (below : Describes namespaces root item tokens) : Astray namespaces root (.arr items) tokens
  | positional {raw item : Json} {items : List Json} {tokens : List String}
      (items_eq : raw.field? "items" = some (.arr items)) (mem : item ∈ items)
      (below : Describes namespaces false item tokens) : Astray namespaces root raw ("*" :: tokens)
  | mixed {raw items : Json} {tokens : List String} (mixed : isMixed raw = true)
      (items_eq : raw.field? "items" = some items) (below : Describes namespaces false items tokens) :
      Astray namespaces root raw ("*" :: tokens)
  | keyword {raw value : Json} {key : String} {tokens : List String}
      (unkept : isKept namespaces root key = false) (other : key ≠ "properties" ∧ key ≠ "items")
      (value_eq : raw.field? key = some value) (below : Describes namespaces root value tokens) :
      Astray namespaces root raw tokens

/-- Whether an outline has a section on the way that some tokens lead, past which the rest of the way,
if there is one, leads astray. -/
def Leads (namespaces : List String) (o : Tree Section) (tokens : List String) : Prop :=
  ∃ s ∈ o.labels, ∃ rest, s.tokens ++ rest = tokens ∧
    (rest ≠ [] → Astray namespaces s.path.isEmpty s.raw rest)

theorem leads_of_astray {rest : List String}
    (h : rest ≠ [] → Astray namespaces path.isEmpty (keywords raw) rest) :
    Leads namespaces (build path raw) (path.map Slot.token ++ rest) := by
  refine ⟨⟨path, keywords raw, isMixed raw⟩, ?_, rest, rfl, h⟩
  rw [Tree.labels_eq, label_build]
  exact List.mem_cons_self

theorem leads_of_part {part : Slot × Json} (hpart : part ∈ parts raw) {tokens : List String}
    (h : Leads namespaces (build (path ++ [part.1]) part.2)
      ((path ++ [part.1]).map Slot.token ++ tokens)) :
    Leads namespaces (build path raw) (path.map Slot.token ++ part.1.token :: tokens) := by
  obtain ⟨s, hs, rest, htokens, hrest⟩ := h
  refine ⟨s, ?_, rest, by rw [htokens, List.map_append, List.append_assoc]; rfl, hrest⟩
  rw [Tree.labels_eq, children_build, List.flatMap_map]
  exact List.mem_cons_of_mem _ (List.mem_flatMap.2 ⟨part, hpart, hs⟩)

/-- The outline has a place on the way to all that a schema describes. -/
theorem leads_of_describes {root : Bool} {tokens : List String}
    (h : Describes namespaces root raw tokens) (distinct : raw.keysDistinct = true)
    (hroot : path.isEmpty = root) :
    Leads namespaces (build path raw) (path.map Slot.token ++ tokens) := by
  have lookup {fields : Fields} {field : String × Json}
      (distinct : (Json.obj fields).keysDistinct = true) (hmem : field ∈ fields) :
      (Json.obj fields).field? field.1 = some field.2 :=
    Key.lookup_eq_some_of_mem (Fields.keysDistinct_iff.1 distinct).1 hmem
  induction h generalizing path with
  | self => exact leads_of_astray nofun
  | item mem below _ =>
    exact leads_of_astray fun _ => .list mem (hroot ▸ below)
  | @property _ fields properties name schema _ _ mem property_mem _ ih =>
    have hpart : (.property name, schema) ∈ parts (.obj fields) := by
      refine List.mem_append_left _ ?_
      rw [propertyParts, lookup distinct mem]
      exact List.mem_map.2 ⟨(name, schema), property_mem, rfl⟩
    exact leads_of_part hpart (ih (keysDistinct_of_mem_parts distinct hpart) (by simp))
  | @items _ fields schema _ _ mem below ih =>
    have hitems := lookup distinct mem
    cases schema with
    | arr items =>
      cases below with
      | item item_mem below => exact leads_of_astray fun _ => .positional hitems item_mem below
    | obj items =>
      cases hmixed : isMixed (.obj fields) with
      | true => exact leads_of_astray fun _ => .mixed hmixed hitems below
      | false =>
        have hpart : (.item, .obj items) ∈ parts (.obj fields) := by
          refine List.mem_append_right _ ?_
          rw [isMixed, hitems] at hmixed
          rw [itemParts, hitems]
          simp only [Option.isSome_eq_false_iff, Option.isNone_iff_eq_none] at hmixed
          simp only [hmixed]
          exact List.mem_cons_self
        exact leads_of_part hpart (ih (keysDistinct_of_mem_parts distinct hpart) (by simp))
    | _ => cases below
  | keyword unkept other mem below _ =>
    exact leads_of_astray fun _ =>
      .keyword (hroot ▸ unkept) other (lookup distinct mem) (hroot ▸ below)

theorem exists_of_mem_childProblems {children : List (Slot × Tree Section)} {p : Problem}
    (h : p ∈ childProblems children) : ∃ part ∈ children, p ∈ problems part.2 := by
  induction children with
  | nil => cases h
  | cons part children ih =>
    rw [childProblems, List.mem_append] at h
    rcases h with h | h
    · exact ⟨part, List.mem_cons_self, h⟩
    · obtain ⟨other, hother, h⟩ := ih h
      exact ⟨other, List.mem_cons_of_mem _ hother, h⟩

theorem pointer_of_ownProblems : ∀ p ∈ ownProblems s, p.pointer = s.pointer := by
  unfold ownProblems
  refine List.forall_mem_append.2 ⟨?_, ?_⟩
  · split
    · exact List.forall_mem_nil _
    · exact List.forall_mem_singleton.2 rfl
  · split
    · exact List.forall_mem_nil _
    · exact List.forall_mem_nil _
    · exact List.forall_mem_singleton.2 rfl

theorem pointer_of_itemProblems : ∀ p ∈ itemProblems s, p.pointer = s.pointer := by
  unfold itemProblems
  split
  · exact List.forall_mem_nil _
  · exact List.forall_mem_nil _
  · exact List.forall_mem_nil _
  · exact List.forall_mem_singleton.2 rfl
  · exact List.forall_mem_singleton.2 rfl

/-- What is wrong with an outline is wrong with one of its sections. -/
theorem exists_label_of_problem {o : Tree Section} {p : Problem} (h : p ∈ problems o) :
    ∃ s ∈ o.labels, p.pointer = s.pointer := by
  induction o using Tree.induct with
  | step o ih =>
    rw [Tree.labels_eq]
    cases o with
    | node s children =>
      rw [problems, List.mem_append, List.mem_append] at h
      rcases h with (h | h) | h
      · exact ⟨s, List.mem_cons_self, pointer_of_ownProblems p h⟩
      · obtain ⟨part, hpart, h⟩ := exists_of_mem_childProblems h
        obtain ⟨s', hs', hpointer⟩ := ih part hpart h
        exact ⟨s', List.mem_cons_of_mem _ (List.mem_flatMap.2 ⟨part, hpart, hs'⟩), hpointer⟩
      · exact ⟨s, List.mem_cons_self, pointer_of_itemProblems p h⟩

end Outline

/-- What is wrong with the kinds or the choices of a section is reported at the section. -/
theorem Typing.pointer_of_problem {s : Section} {p : Problem}
    (h : (Typing.ofSection s).problem = some p) : p.pointer = s.pointer := by
  unfold Typing.ofSection at h
  split at h
  · split at h
    · exact Option.some.inj h ▸ rfl
    · split at h
      · exact Option.some.inj h ▸ rfl
      · split at h
        · exact Option.some.inj h ▸ rfl
        · cases h
  · cases h

theorem Derivation.pointer_of_problem {data : Option Json} {place : Tree.Place Attributes}
    {p : Problem} (h : (derive data place).2 = some p) : p.pointer = place.label.pointer := by
  unfold derive at h
  dsimp only at h
  split at h
  · exact Option.some.inj h ▸ rfl
  · cases h

theorem Wiring.pointer_of_problem {a : Attributes} {w : Wiring} {p : Problem}
    (h : problem? a w = some p) : p.pointer = a.pointer := by
  obtain ⟨cause, -, rfl⟩ := Option.map_eq_some_iff.1 h
  rfl

namespace Compilation

section Stages

variable {settings : Settings} {cache : Enumeration.Cache} {raw : Json} {data : Option Json}
  {inlined : Json} {offer : String → Option (List Choice)} {derived : Schema} {c : Compiled}

theorem map_toSection_labels {t : Schema} {o : Tree Section}
    (h : t.map Attributes.core = o.map Section.typed) :
    t.labels.map Attributes.toSection = o.labels := by
  have hlabels := congrArg (fun t : Schema => t.labels.map Attributes.toSection) h
  simp only [Tree.labels_map, List.map_map] at hlabels
  exact hlabels.trans (List.map_id' _)

theorem derivation_eq {typed : Schema} {derivation : List Problem}
    (h : derive data typed = .ok (derived, derivation)) :
    derivation = (typed.extend (Derivation.derive data)).labels.filterMap (·.2) := by
  unfold derive at h
  split at h
  · cases h
  · exact (Prod.mk.inj (Except.ok.inj h)).2.symm

/-- A problem that is not one of inlining is reported at a section of the outline. -/
theorem exists_label_of_problem {derivation : List Problem} {problem : Problem}
    (hderived : derived.map Attributes.core = (Outline.ofJson inlined).map Section.typed)
    (hderive : derive data ((typings (Outline.ofJson inlined)).map fun typed =>
      typed.2.attributes offer typed.1) = .ok (derived, derivation))
    (h : problem ∈ Outline.problems (Outline.ofJson inlined) ++
      ((typings (Outline.ofJson inlined)).labels.filterMap fun typed => typed.2.problem) ++
        derivation ++ (Wiring.wire derived).2) :
    ∃ s ∈ (Outline.ofJson inlined).labels, problem.pointer = s.pointer := by
  rw [List.mem_append, List.mem_append, List.mem_append] at h
  rcases h with ((h | h) | h) | h
  · exact Outline.exists_label_of_problem h
  · obtain ⟨typed, htyped, h⟩ := List.mem_filterMap.1 h
    rw [typings, Tree.labels_map] at htyped
    obtain ⟨s, hs, rfl⟩ := List.mem_map.1 htyped
    exact ⟨s, hs, Typing.pointer_of_problem h⟩
  · rw [derivation_eq hderive, Tree.labels_extend, List.filterMap_map] at h
    obtain ⟨place, hplace, h⟩ := List.mem_filterMap.1 h
    have hlabel := List.mem_map_of_mem (f := Tree.Place.label) hplace
    rw [← Tree.labels_eq_places, typings, Tree.labels_map, Tree.labels_map, List.map_map] at hlabel
    obtain ⟨s, hs, heq⟩ := List.mem_map.1 hlabel
    refine ⟨s, hs, ?_⟩
    rw [Derivation.pointer_of_problem h, ← heq]
    rfl
  · rw [Wiring.wire, Tree.labels_extend, List.filterMap_map] at h
    obtain ⟨place, hplace, h⟩ := List.mem_filterMap.1 h
    refine ⟨place.label.toSection, ?_, Wiring.pointer_of_problem h⟩
    rw [← map_toSection_labels hderived, Tree.labels_eq_places, List.map_map]
    exact List.mem_map.2 ⟨place, hplace, rfl⟩

/-- Every problem is listed at a place of the schema.  The exceptions are problems that inlining meets
where its pointer has gone astray: in lists, in items that are told apart by variants, and below the
keywords that have no places. -/
theorem exists_place_of_problem (distinct : raw.keysDistinct = true)
    (compiled : (compile settings cache raw data).1 = .ok c) {problem : Problem}
    (hproblem : problem ∈ c.problems) :
    (∃ p ∈ c.schema.places, problem ∈ c.problemsAt p.label.pointer) ∨
      problem.stage = .inlining ∧ ∃ p ∈ c.schema.places, ∃ tokens ≠ [],
        problem.pointer = Pointer.join (p.label.tokens ++ tokens) ∧
          Outline.Astray settings.dialect.namespaces p.label.path.isEmpty p.label.raw tokens := by
  obtain ⟨inlined, inlining, offer, derived, derivation, hinline, hderive, hc⟩ := compile_eq_ok compiled
  have stages : Stages settings raw data inlined offer derived c :=
    ⟨⟨inlining, hinline⟩, derive_eq_ok hderive, by rw [hc]⟩
  have exists_place {s : Section} (hs : s ∈ (Outline.ofJson inlined).labels) :
      ∃ p ∈ c.schema.places, p.label.toSection = s := by
    rw [← map_toSection_labels stages.map_core, Tree.labels_eq_places, List.map_map] at hs
    exact List.mem_map.1 hs
  have reported {p : Tree.Place Attributes} (hp : p ∈ c.schema.places)
      (hpointer : problem.pointer = p.label.pointer) :
      ∃ p ∈ c.schema.places, problem ∈ c.problemsAt p.label.pointer :=
    ⟨p, hp, List.mem_filter.2 ⟨hproblem, beq_iff_eq.2 hpointer⟩⟩
  have hall : problem ∈ inlining ++ (Outline.problems (Outline.ofJson inlined) ++
      ((typings (Outline.ofJson inlined)).labels.filterMap fun typed => typed.2.problem) ++
        derivation ++ (Wiring.wire derived).2) := by
    rw [hc] at hproblem
    simpa only [List.append_assoc] using hproblem
  rcases List.mem_append.1 hall with h | h
  · obtain ⟨hstage, tokens, hpointer, hdescribes⟩ := Definitions.reported_of_inline hinline h
    have hleads : Outline.Leads settings.dialect.namespaces (Outline.ofJson inlined) tokens :=
      Outline.leads_of_describes hdescribes (Definitions.keysDistinct_inline distinct hinline) rfl
    obtain ⟨s, hs, rest, htokens, hastray⟩ := hleads
    obtain ⟨p, hp, rfl⟩ := exists_place hs
    rw [← htokens] at hpointer
    by_cases hrest : rest = []
    · rw [hrest, List.append_nil] at hpointer
      exact .inl (reported hp hpointer)
    · exact .inr ⟨hstage, p, hp, rest, hrest, hpointer, hastray hrest⟩
  · obtain ⟨s, hs, hpointer⟩ := exists_label_of_problem stages.map_core_derived hderive h
    obtain ⟨p, hp, rfl⟩ := exists_place hs
    exact .inl (reported hp hpointer)

end Stages

/-! An array whose items have one variant, which refers to a definition that is not there. -/

namespace Misplaced

def variant : Json := .obj [("$ref", .str "#/definitions/nope"), ("type", .str "string")]

def raw : Json :=
  .obj [("type", .str "array"), ("items", .obj [("oneOf", .arr [variant])]), ("definitions", .obj [])]

def resolved : Json := .obj [("type", .str "string")]

def items : Json := .obj [("oneOf", .arr [resolved])]

def inlined : Json := .obj [("type", .str "array"), ("items", items)]

def problem : Problem := ⟨.inlining, "/*", .unknownDefinition "#/definitions/nope"⟩

def schema : Schema :=
  .node { typedAs .array ⟨[], inlined, true⟩ with widget := "variant-array" }
    [(.variant 0, .node { typedAs .string ⟨[.variant 0], resolved, false⟩ with
        widget := "string" } [])]

def compiled : Compiled := ⟨schema, [problem], .null⟩

theorem run_eq : run {} raw none = .ok compiled := by
  have inline_eq : Definitions.inline .draft7 raw = .ok (inlined, [problem]) := by cbv
  have derive_eq : derive none (schema.map underived) = .ok (schema, []) := by cbv
  have wire_eq : Wiring.wire schema = (schema, []) := by cbv
  exact run_eq_of_derived inline_eq (by cbv) (by decide +kernel) rfl derive_eq wire_eq (by cbv)

/-- The places of the schema have the pointers of the array and of the variant. -/
theorem problemsAt_eq_nil :
    ∀ p ∈ compiled.schema.places, compiled.problemsAt p.label.pointer = [] := by
  have hpointers : compiled.schema.places.map (fun p => p.label.pointer) = ["", "/*0"] := by decide
  have hnone : ∀ pointer ∈ ["", "/*0"], compiled.problemsAt pointer = [] := by
    simp [Compiled.problemsAt, compiled, problem]
  rw [← hpointers, List.forall_mem_map] at hnone
  exact hnone

end Misplaced

/-- The problem of a keyword is reported at the place that has the keyword.  The problem of the variant
is reported at the items of the array, which have no place. -/
theorem exists_place_of_problem_misplaced :
    (∃ p ∈ Dangling.schema.places,
      Dangling.problem ∈ Dangling.compiled.problemsAt p.label.pointer) ∧
      Misplaced.problem.stage = .inlining ∧ ∃ p ∈ Misplaced.schema.places, ∃ tokens ≠ [],
        Misplaced.problem.pointer = Pointer.join (p.label.tokens ++ tokens) ∧
          Outline.Astray Dialect.draft7.namespaces p.label.path.isEmpty p.label.raw tokens := by
  constructor
  · have hproblem : Dangling.problem ∈ Dangling.compiled.problems := List.mem_singleton_self _
    rcases exists_place_of_problem (by decide) Dangling.run_eq hproblem with h | ⟨hstage, -⟩
    · exact h
    · cases hstage
  · have hproblem : Misplaced.problem ∈ Misplaced.compiled.problems := List.mem_singleton_self _
    rcases exists_place_of_problem (by decide) Misplaced.run_eq hproblem with ⟨p, hp, h⟩ | h
    · rw [Misplaced.problemsAt_eq_nil p hp] at h
      cases h
    · exact h

/-- There is a schema with a problem that is not reported at any of its places. -/
theorem exists_problem_without_place :
    ∃ c, run {} Misplaced.raw none = .ok c ∧
      ∃ problem ∈ c.problems, ∀ p ∈ c.schema.places, problem ∉ c.problemsAt p.label.pointer := by
  refine ⟨_, Misplaced.run_eq, Misplaced.problem, List.mem_singleton_self _, fun p hp h => ?_⟩
  rw [Misplaced.problemsAt_eq_nil p hp] at h
  cases h

end Compilation

end FormSchema
