import FormSchema.Proofs.Schema.Containment

/-!
How deep inlining goes.  The recursion is given a bound on its depth and the references that it is
following, and nothing that gets smaller: what a reference stands for can be larger than what refers
to it.  Each reference is followed once on the way down, and between two of them the values get
smaller, so that some depth is always enough; the outcome is then that of inlining.
-/

namespace FormSchema.Definitions

section Gather

variable {m : Type → Type} [Monad m] {α β : Type}

/-- Does something with each member of a list, one after the other, and keeps together what is wrong
with them. -/
def gather (f : α → m (β × List Problem)) : List α → m (List β × List Problem)
  | [] => pure ([], [])
  | a :: l => do
    let (b, problems) ← f a
    let (bs, more) ← gather f l
    return (b :: bs, problems ++ more)

/-- Gives what becomes of a value the name of its field. -/
def named (field : String × Json) (x : m (Json × List Problem)) :
    m ((String × Json) × List Problem) := do
  let (out, problems) ← x
  return ((field.1, out), problems)

end Gather

/-- The outcome of a recursion whose depth is bounded; there is none if the bound is too small. -/
abbrev Bounded (α : Type) : Type := ExceptT Refusal Option α

/-- An outcome that the bound has been large enough for. -/
def finished {α : Type} (x : Except Refusal α) : Bounded α := ExceptT.mk (some x)

section Rounds

variable (source : Source)

/-- What becomes of the value of one keyword, if `next` says what becomes of the schemas in it. -/
def roundField (next : String → Json → Bounded (Json × List Problem)) (pointer : String)
    (field : String × Json) : Bounded (Json × List Problem) :=
  if isKept source.namespaces pointer.isEmpty field.1 then return (field.2, [])
  else if field.1 = "properties" then
    match field.2 with
    | .obj properties => do
      let (out, problems) ← gather (fun property =>
        named property (next (Pointer.child pointer property.1) property.2)) properties
      return (.obj out, problems)
    | other => return (other, [])
  else next (if field.1 = "items" then Pointer.child pointer "*" else pointer) field.2

/-- What becomes of an object that has no reference, or not any more. -/
def roundObject (next : String → Json → Bounded (Json × List Problem)) (pointer : String)
    (fields : Fields) (reported : List Problem) : Bounded (Json × List Problem) := do
  let (out, problems) ←
    gather (fun field => named field (roundField source next pointer field)) fields
  return (.obj out, reported ++ problems)

/-- One round of the recursion: `stack` has the references that are being followed, and `next` stands
for the next round. -/
def round (next : List String → String → Json → Bounded (Json × List Problem))
    (stack : List String) (pointer : String) : Json → Bounded (Json × List Problem)
  | .obj fields =>
    match reference? fields with
    | none => roundObject source (next stack) pointer fields []
    | some reference =>
      match source.target reference with
      | .refused e => throw e
      | .problem cause =>
        roundObject source (next stack) pointer (siblings fields) [problem pointer cause]
      | .found definition =>
        if reference ∈ stack then
          roundObject source (next stack) pointer (siblings fields)
            [problem pointer (.referenceCycle reference)]
        else do
          let (out, problems) ← next (reference :: stack) pointer
            (.obj (Fields.overlay (definitionFields pointer definition).1 (siblings fields)))
          return (out, (definitionFields pointer definition).2 ++ problems)
  | .arr items => do
    let (out, problems) ← gather (next stack pointer) items
    return (.arr out, problems)
  | other => return (other, [])

/-- The recursion up to a depth. -/
def inlineValueWithin : Nat → List String → String → Json → Bounded (Json × List Problem)
  | 0 => fun _ _ _ => ExceptT.mk none
  | depth + 1 => round source (inlineValueWithin depth)

end Rounds

/-- The inlining of a document up to a depth. -/
def inlineWithin (dialect : Dialect) (depth : Nat) (document : Json) :
    Bounded (Json × List Problem) :=
  match document with
  | .obj fields => do
    let (out, problems) ← inlineValueWithin ⟨fields, dialect.namespaces⟩ depth [] "" document
    return (match out with
      | .obj fields => .obj (dialect.namespaces.foldl Fields.erase fields)
      | other => other, problems)
  | other => return (other, [])

/-- A depth that is always enough: between two of its references, a document is no deeper than it is
large. -/
def enough (document : Json) : Nat :=
  ((references document).eraseDups.length + 1) * document.size

variable {source : Source} {fresh stack : List String} {pointer : String} {fields : Fields}

section Gather

variable {α β γ : Type}

theorem finished_bind (x : Except Refusal α) (f : α → Except Refusal β) :
    (finished x >>= fun a => finished (f a)) = finished (x >>= f) := by
  cases x <;> rfl

theorem gather_finished {f : α → Except Refusal (β × List Problem)}
    {g : α → Bounded (β × List Problem)} {l : List α} (h : ∀ a ∈ l, g a = finished (f a)) :
    gather g l = finished (gather f l) := by
  induction l with
  | nil => rfl
  | cons a l ih =>
    rw [List.forall_mem_cons] at h
    rw [gather, gather, h.1, ih h.2, ← finished_bind]
    refine congrArg (finished (f a) >>= ·) (funext fun head => ?_)
    rw [← finished_bind]
    rfl

end Gather

theorem inlineItems_gather (items : List Json) :
    inlineItems source fresh pointer items = gather (inlineValue source fresh pointer) items := by
  induction items with
  | nil => rw [inlineItems]; rfl
  | cons item items ih =>
    rw [inlineItems, ih]
    rfl

theorem inlineProperties_gather (properties : Fields) :
    inlineProperties source fresh pointer properties =
      gather (fun property =>
        named property (inlineValue source fresh (Pointer.child pointer property.1) property.2))
        properties := by
  induction properties with
  | nil => rw [inlineProperties]; rfl
  | cons property properties ih =>
    obtain ⟨name, value⟩ := property
    rw [inlineProperties, ih, gather, named]
    cases inlineValue source fresh (Pointer.child pointer name) value <;> rfl

theorem inlineFields_gather (fields : Fields) :
    inlineFields source fresh pointer fields =
      gather (fun field => named field (inlineField source fresh pointer field)) fields := by
  induction fields with
  | nil => rw [inlineFields]; rfl
  | cons field fields ih =>
    rw [inlineFields_cons, ih, gather, named]
    cases inlineField source fresh pointer field <;> rfl

theorem named_finished (field : String × Json) (x : Except Refusal (Json × List Problem)) :
    named field (finished x) = finished (named field x) := by
  cases x <;> rfl

section Agreement

variable {next : String → Json → Bounded (Json × List Problem)}

theorem roundField_finished {field : String × Json}
    (h : ∀ pointer part, part.size ≤ field.2.size → references part ⊆ references field.2 →
      next pointer part = finished (inlineValue source fresh pointer part)) :
    roundField source next pointer field = finished (inlineField source fresh pointer field) := by
  obtain ⟨key, given⟩ := field
  rw [roundField, inlineField]
  split
  · rfl
  · split
    · cases given with
      | obj properties =>
        have hproperties := gather_finished (l := properties)
          (g := fun property => named property (next (Pointer.child pointer property.1) property.2))
          (f := fun property => named property
            (inlineValue source fresh (Pointer.child pointer property.1) property.2))
          fun property hmem => by
            have hsize := Json.size_le_sizeFields hmem
            rw [h _ _ (by simp only [Json.size]; omega) (references_subset_fields hmem),
              named_finished]
        dsimp only
        rw [hproperties, ← inlineProperties_gather]
        cases inlineProperties source fresh pointer properties <;> rfl
      | _ => rfl
    · exact h _ _ (Nat.le_refl _) (List.Subset.refl _)

theorem roundObject_finished (reported : List Problem)
    (h : ∀ pointer part, part.size ≤ Json.sizeFields fields →
      references part ⊆ fieldReferences fields →
        next pointer part = finished (inlineValue source fresh pointer part)) :
    roundObject source next pointer fields reported =
      finished ((inlineFields source fresh pointer fields).map fun out =>
        (.obj out.1, reported ++ out.2)) := by
  have hfields := gather_finished (l := fields)
    (g := fun field => named field (roundField source next pointer field))
    (f := fun field => named field (inlineField source fresh pointer field))
    fun field hmem => by
      rw [← named_finished]
      refine congrArg (named field) (roundField_finished fun pointer part hsize hsub => ?_)
      exact h pointer part (Nat.le_trans hsize (Json.size_le_sizeFields hmem))
        (List.Subset.trans hsub (references_subset_fields hmem))
  rw [roundObject, hfields, ← inlineFields_gather]
  cases inlineFields source fresh pointer fields <;> rfl

end Agreement

/-! What inlining makes of an object, by its reference. -/

theorem inlineValue_free (free : reference? fields = none) :
    inlineValue source fresh pointer (.obj fields) =
      (inlineFields source fresh pointer fields).map fun out => (.obj out.1, out.2) := by
  rw [inlineValue]
  split
  · rename_i text htext
    rw [reference?_eq_some_iff.2 htext] at free
    cases free
  · cases inlineFields source fresh pointer fields <;> rfl

theorem inlineValue_refers {reference : String} (h : reference? fields = some reference) :
    inlineValue source fresh pointer (.obj fields) =
      match source.target reference with
      | .refused e => .error e
      | .problem cause =>
        (inlineFields source fresh pointer (siblings fields)).map fun out =>
          (.obj out.1, problem pointer cause :: out.2)
      | .found definition =>
        if reference ∈ fresh then
          (inlineValue source (fresh.erase reference) pointer
            (.obj (Fields.overlay (definitionFields pointer definition).1 (siblings fields)))).map
              fun out => (out.1, (definitionFields pointer definition).2 ++ out.2)
        else
          (inlineFields source fresh pointer (siblings fields)).map fun out =>
            (.obj out.1, problem pointer (.referenceCycle reference) :: out.2) := by
  rw [inlineValue]
  split
  · rename_i text htext
    obtain rfl : reference = text := by
      rw [reference?_eq_some_iff.1 h] at htext
      exact Json.str.inj (Option.some.inj htext)
    dsimp only
    cases source.target reference with
    | refused e => rfl
    | problem cause =>
      rw [siblings]
      cases inlineFields source fresh pointer (Fields.erase fields refKey) <;> rfl
    | found definition =>
      dsimp only
      split
      · rw [siblings]
        cases inlineValue source (fresh.erase reference) pointer
          (.obj (Fields.overlay (definitionFields pointer definition).1
            (Fields.erase fields refKey))) <;> rfl
      · rw [siblings]
        cases inlineFields source fresh pointer (Fields.erase fields refKey) <;> rfl
  · rename_i hnone
    exact absurd (reference?_eq_some_iff.1 h) (hnone reference)

/-! The references of an object are those of its fields. -/

theorem mem_fieldReferences_iff {text : String} :
    text ∈ fieldReferences fields ↔
      (refKey, .str text) ∈ fields ∨ ∃ field ∈ fields, text ∈ references field.2 := by
  induction fields with
  | nil => simp [fieldReferences]
  | cons field fields ih =>
    obtain ⟨key, given⟩ := field
    cases given with
    | str s =>
      rw [fieldReferences]
      split
      · rename_i hkey
        subst hkey
        simp [ih, references, or_assoc]
      · rename_i hkey
        simp [ih, references, Ne.symm hkey]
    | _ =>
      rw [fieldReferences, List.mem_append, ih]
      all_goals simp [or_left_comm]

theorem references_overlay_subset (fields layer : Fields) :
    fieldReferences (Fields.overlay fields layer) ⊆
      fieldReferences fields ++ fieldReferences layer := by
  intro text h
  rw [List.mem_append, mem_fieldReferences_iff, mem_fieldReferences_iff]
  rcases mem_fieldReferences_iff.1 h with h | ⟨field, hfield, h⟩
  · exact (Fields.mem_overlay h).imp .inl .inl
  · exact (Fields.mem_overlay hfield).imp (fun hmem => .inr ⟨field, hmem, h⟩)
      fun hmem => .inr ⟨field, hmem, h⟩

theorem references_siblings_subset (fields : Fields) :
    fieldReferences (siblings fields) ⊆ fieldReferences fields := by
  intro text h
  refine mem_fieldReferences_iff.2 ((mem_fieldReferences_iff.1 h).imp List.mem_of_mem_filter ?_)
  rintro ⟨field, hfield, h⟩
  exact ⟨field, List.mem_of_mem_filter hfield, h⟩

/-- A definition is part of the document: its references are among those of the document, and it is
smaller. -/
theorem Source.part_of_found {reference : String} {definition : Json}
    (h : source.target reference = .found definition) :
    references definition ⊆ references (.obj source.fields) ∧
      definition.size ≤ Json.sizeFields source.fields := by
  rw [Source.target] at h
  split at h
  · cases h
  · split at h
    · cases h
    · rename_i home name _ _ entries hentries
      split at h
      · cases h
      · rename_i found hfound
        obtain rfl := Target.found.inj h
        obtain ⟨held, hheld, hobj⟩ := Option.bind_eq_some_iff.1 hentries
        cases held with
        | obj fields =>
          obtain rfl := Option.some.inj hobj
          have hentry := Json.mem_of_lookup hfound
          have hsection := Json.mem_of_lookup hheld
          have hsize := Json.size_le_sizeFields hentry
          have hsize' := Json.size_le_sizeFields hsection
          simp only [Json.size] at hsize hsize'
          exact ⟨List.Subset.trans (references_subset_fields hentry)
            (references_subset_fields hsection), by omega⟩
        | _ => cases hobj

/-- So are the keywords of a definition. -/
theorem Source.part_of_definitionFields {reference : String} {definition : Json}
    (h : source.target reference = .found definition) (pointer : String) :
    fieldReferences (definitionFields pointer definition).1 ⊆ references (.obj source.fields) ∧
      Json.sizeFields (definitionFields pointer definition).1 ≤ Json.sizeFields source.fields := by
  obtain ⟨hsub, hsize⟩ := Source.part_of_found h
  cases definition with
  | obj base =>
    simp only [Json.size] at hsize
    exact ⟨hsub, by simp only [definitionFields]; omega⟩
  | bool b => cases b <;> simp [definitionFields, fieldReferences, Json.sizeFields]
  | _ => simp [definitionFields, fieldReferences, Json.sizeFields]

/-- The references of a document that are not being followed are those that can still be followed. -/
structure Source.Balanced (source : Source) (stack fresh : List String) : Prop where
  nodup : fresh.Nodup
  mem_iff : ∀ text ∈ references (.obj source.fields), text ∈ fresh ↔ text ∉ stack

/-- To follow a reference takes it from those that can still be followed. -/
theorem Source.Balanced.push {reference : String} (h : source.Balanced stack fresh) :
    source.Balanced (reference :: stack) (fresh.erase reference) where
  nodup := h.nodup.erase reference
  mem_iff text htext := by
    rw [h.nodup.mem_erase_iff, h.mem_iff text htext, List.mem_cons, not_or]

/-- The recursion has the outcome of inlining as soon as its depth is enough. -/
theorem inlineValueWithin_eq {depth : Nat} {value : Json} (balanced : source.Balanced stack fresh)
    (known : references value ⊆ references (.obj source.fields))
    (deep : value.size + fresh.length * (Json.obj source.fields).size ≤ depth) :
    inlineValueWithin source depth stack pointer value =
      finished (inlineValue source fresh pointer value) := by
  induction depth generalizing stack fresh pointer value with
  | zero =>
    have := value.size_pos
    omega
  | succ depth ih =>
    -- The parts of a value are smaller, and the same references can still be followed.
    have part (pointer : String) (inner : Json) (hsize : inner.size < value.size)
        (hknown : references inner ⊆ references value) :
        inlineValueWithin source depth stack pointer inner =
          finished (inlineValue source fresh pointer inner) :=
      ih balanced (List.Subset.trans hknown known) (by omega)
    rw [inlineValueWithin]
    cases value with
    | obj fields =>
      have object (inner : Fields) (reported : List Problem)
          (hsize : Json.sizeFields inner ≤ Json.sizeFields fields)
          (hknown : fieldReferences inner ⊆ fieldReferences fields) :
          roundObject source (inlineValueWithin source depth stack) pointer inner reported =
            finished ((inlineFields source fresh pointer inner).map fun out =>
              (.obj out.1, reported ++ out.2)) :=
        roundObject_finished reported fun pointer part' hpart hsub =>
          part pointer part' (by simp only [Json.size]; omega) (List.Subset.trans hsub hknown)
      cases hreference : reference? fields with
      | none =>
        rw [inlineValue_free hreference, round, hreference]
        exact object fields [] (Nat.le_refl _) (List.Subset.refl _)
      | some reference =>
        have hsiblings := Json.sizeFields_erase_add_le (reference?_eq_some_iff.1 hreference)
        rw [Json.size] at hsiblings
        have beside (reported : List Problem) :=
          object (siblings fields) reported (by rw [siblings]; omega)
            (references_siblings_subset fields)
        rw [inlineValue_refers hreference, round, hreference]
        dsimp only
        cases htarget : source.target reference with
        | refused e => rfl
        | problem cause => exact beside [problem pointer cause]
        | found definition =>
          have hknown := known (mem_references_of_reference? hreference)
          dsimp only
          by_cases hstack : reference ∈ stack
          · rw [if_pos hstack, if_neg fun hmem => (balanced.mem_iff _ hknown).1 hmem hstack]
            exact beside _
          · have hfresh : reference ∈ fresh := (balanced.mem_iff _ hknown).2 hstack
            obtain ⟨hsub, hsize⟩ := Source.part_of_definitionFields htarget pointer
            rw [if_neg hstack, if_pos hfresh, ih balanced.push]
            · cases inlineValue source (fresh.erase reference) pointer (.obj (Fields.overlay
                (definitionFields pointer definition).1 (siblings fields))) <;> rfl
            · refine List.Subset.trans (references_overlay_subset _ _)
                (List.append_subset.2 ⟨hsub, List.Subset.trans ?_ known⟩)
              exact references_siblings_subset fields
            · -- What has been followed is larger than before by less than the document.
              have hoverlay := Json.sizeFields_overlay_le (siblings fields)
                (definitionFields pointer definition).1
              have hlength := List.length_pos_of_mem hfresh
              obtain ⟨rest, hrest⟩ := Nat.exists_eq_add_of_lt hlength
              rw [List.length_erase_of_mem hfresh]
              rw [siblings] at hoverlay ⊢
              simp only [Json.size, hrest, Nat.zero_add, Nat.add_sub_cancel, Nat.add_mul,
                Nat.one_mul] at deep ⊢
              omega
    | arr items =>
      have hitems := gather_finished (l := items)
        (g := inlineValueWithin source depth stack pointer) (f := inlineValue source fresh pointer)
        fun item hmem => by
          have hsize := Json.size_le_sizeItems hmem
          exact part pointer item (by simp only [Json.size]; omega) (references_subset_items hmem)
      rw [round, hitems, ← inlineItems_gather, inlineValue]
      cases inlineItems source fresh pointer items <;> rfl
    | _ =>
      rw [inlineValue_scalar rfl rfl]
      rfl

/-! What a round is refused for. -/

section Refusals

variable {α β : Type} {e : Refusal}

theorem bind_eq_refused {x : Bounded α} {f : α → Bounded β}
    (h : x >>= f = finished (.error e)) :
    x = finished (.error e) ∨ ∃ a, x = finished (.ok a) ∧ f a = finished (.error e) := by
  match x, h with
  | some (.error e'), h => exact .inl (by cases h; rfl)
  | some (.ok a), h => exact .inr ⟨a, rfl, h⟩

theorem gather_eq_refused {f : α → Bounded (β × List Problem)} {l : List α}
    (h : gather f l = finished (.error e)) : ∃ a ∈ l, f a = finished (.error e) := by
  induction l with
  | nil => cases h
  | cons a l ih =>
    rcases bind_eq_refused h with h | ⟨head, -, h⟩
    · exact ⟨a, List.mem_cons_self, h⟩
    · rcases bind_eq_refused h with h | ⟨tail, -, h⟩
      · obtain ⟨b, hb, h⟩ := ih h
        exact ⟨b, List.mem_cons_of_mem _ hb, h⟩
      · cases h

theorem named_eq_refused {field : String × Json} {x : Bounded (Json × List Problem)}
    (h : named field x = finished (.error e)) : x = finished (.error e) := by
  rcases bind_eq_refused h with h | ⟨out, -, h⟩
  · exact h
  · cases h

theorem roundField_eq_refused {next : String → Json → Bounded (Json × List Problem)}
    {field : String × Json} (h : roundField source next pointer field = finished (.error e)) :
    ∃ pointer part, next pointer part = finished (.error e) := by
  obtain ⟨key, given⟩ := field
  rw [roundField] at h
  split at h
  · cases h
  · split at h
    · cases given with
      | obj properties =>
        rcases bind_eq_refused h with h | ⟨out, -, h⟩
        · obtain ⟨property, -, h⟩ := gather_eq_refused h
          exact ⟨_, _, named_eq_refused h⟩
        · cases h
      | _ => cases h
    · exact ⟨_, _, h⟩

theorem roundObject_eq_refused {next : String → Json → Bounded (Json × List Problem)}
    {reported : List Problem}
    (h : roundObject source next pointer fields reported = finished (.error e)) :
    ∃ pointer part, next pointer part = finished (.error e) := by
  rcases bind_eq_refused h with h | ⟨out, -, h⟩
  · obtain ⟨field, -, h⟩ := gather_eq_refused h
    exact roundField_eq_refused (named_eq_refused h)
  · cases h

/-- Whether a refusal names a section of definitions that the document does not have. -/
def Source.Lacks (source : Source) (e : Refusal) : Prop :=
  ∃ reference home, e = .missingDefinitions reference home ∧ home ∈ source.namespaces ∧
    (source.fields.lookup home).bind Json.obj? = none

theorem split?_home {namespaces : List String} {reference home name : String}
    (h : split? namespaces reference = some (home, name)) : home ∈ namespaces := by
  unfold split? at h
  split at h
  · split at h
    · split at h
      · rename_i hcontains
        obtain ⟨rfl, -⟩ := Prod.mk.inj (Option.some.inj h)
        exact List.contains_iff_mem.1 hcontains
      · cases h
    · cases h
  · cases h

theorem Source.lacks_of_target {reference : String} (h : source.target reference = .refused e) :
    source.Lacks e := by
  rw [Source.target] at h
  split at h
  · cases h
  · rename_i home name hsplit
    split at h
    · rename_i hnone
      obtain rfl := Target.refused.inj h
      exact ⟨reference, home, rfl, split?_home hsplit, hnone⟩
    · split at h <;> cases h

theorem round_eq_refused {next : List String → String → Json → Bounded (Json × List Problem)}
    {value : Json} (h : round source next stack pointer value = finished (.error e)) :
    source.Lacks e ∨ ∃ stack pointer part, next stack pointer part = finished (.error e) := by
  unfold round at h
  split at h
  · split at h
    · exact .inr ⟨_, roundObject_eq_refused h⟩
    · split at h
      · rename_i htarget
        cases h
        exact .inl (Source.lacks_of_target htarget)
      · exact .inr ⟨_, roundObject_eq_refused h⟩
      · split at h
        · exact .inr ⟨_, roundObject_eq_refused h⟩
        · rcases bind_eq_refused h with h | ⟨out, -, h⟩
          · exact .inr ⟨_, _, _, h⟩
          · cases h
  · rcases bind_eq_refused h with h | ⟨out, -, h⟩
    · obtain ⟨item, -, h⟩ := gather_eq_refused h
      exact .inr ⟨_, _, _, h⟩
    · cases h
  · cases h

theorem lacks_of_refused {depth : Nat} {value : Json}
    (h : inlineValueWithin source depth stack pointer value = finished (.error e)) :
    source.Lacks e := by
  induction depth generalizing stack pointer value with
  | zero => cases h
  | succ depth ih =>
    rcases round_eq_refused h with h | ⟨stack, pointer, part, h⟩
    · exact h
    · exact ih h

end Refusals

theorem inlineValueWithin_document (fields : Fields) (dialect : Dialect) (extra : Nat) :
    inlineValueWithin ⟨fields, dialect.namespaces⟩ (enough (.obj fields) + extra) [] ""
        (.obj fields) =
      finished (inlineValue ⟨fields, dialect.namespaces⟩ (references (.obj fields)).eraseDups ""
        (.obj fields)) := by
  refine inlineValueWithin_eq ⟨nodup_eraseDups _, fun text htext => ?_⟩ (List.Subset.refl _) ?_
  · simp [List.mem_eraseDups, htext]
  · simp only [enough, Nat.add_mul, Nat.one_mul]
    omega

theorem inlineWithin_eq (dialect : Dialect) (document : Json) (extra : Nat) :
    inlineWithin dialect (enough document + extra) document = finished (inline dialect document) := by
  cases document with
  | obj fields =>
    rw [inlineWithin, inlineValueWithin_document fields dialect, inline]
    cases inlineValue ⟨fields, dialect.namespaces⟩ (references (.obj fields)).eraseDups ""
      (.obj fields) <;> rfl
  | _ => rfl

/-- What comes out within the depth that is enough is what comes out of inlining. -/
theorem inline_eq_of_within {dialect : Dialect} {document : Json}
    {outcome : Except Refusal (Json × List Problem)}
    (h : inlineWithin dialect (enough document) document = finished outcome) :
    inline dialect document = outcome :=
  Option.some.inj ((inlineWithin_eq dialect document 0).symm.trans h)

/-- Inlining comes to an end, whatever definitions refer to: the recursion that is told nothing but what
it is following returns the outcome of inlining as soon as its depth is enough, and however much more
it is; and the only refusal is that a section of definitions is missing. -/
theorem inlineWithin_enough (dialect : Dialect) (document : Json) :
    (∀ extra, inlineWithin dialect (enough document + extra) document =
        finished (inline dialect document)) ∧
      ((∃ out problems, inline dialect document = .ok (out, problems)) ∨
        ∃ reference home, inline dialect document = .error (.missingDefinitions reference home) ∧
          home ∈ dialect.namespaces ∧ (document.field? home).bind Json.obj? = none) := by
  refine ⟨inlineWithin_eq dialect document, ?_⟩
  cases document with
  | obj fields =>
    have hwithin := inlineValueWithin_document fields dialect
    rw [inline]
    cases hvalue : inlineValue ⟨fields, dialect.namespaces⟩ (references (.obj fields)).eraseDups
      "" (.obj fields) with
    | ok out => exact .inl ⟨_, _, rfl⟩
    | error e =>
      rw [hvalue] at hwithin
      obtain ⟨reference, home, rfl, hhome, hnone⟩ := lacks_of_refused (hwithin 0)
      exact .inr ⟨reference, home, rfl, hhome, hnone⟩
  | _ => exact .inl ⟨_, _, rfl⟩

/-- A definition that refers to itself, by another spelling of its name than the document does. -/
example :
    inlineWithin .draft7 5 (.obj [("$ref", .str "#/definitions/~"),
        ("definitions", .obj [("~", .obj [("items", .obj [("$ref", .str "#/definitions/~0")])])])]) =
      finished (.ok (.obj [("items", .obj [("items", .obj [])])],
        [problem "/*/*" (.referenceCycle "#/definitions/~0")])) := by
  rfl

end FormSchema.Definitions
