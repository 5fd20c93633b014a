import FormSchema.Proofs.Expr.Mention
import FormSchema.Proofs.Schema.Regular

/-!
Who reads what in a compiled schema.  A pointer that an expression mentions names a place of the
schema, and the place that is named knows of the one that mentions it.
-/

namespace FormSchema

/-- The pointers that the expression of a keyword mentions. -/
def Attributes.pointers (a : Attributes) (keyword : Keyword) : List String :=
  ((a.evaluator keyword).source.map Expr.mentioned).getD []

theorem Attributes.mem_pointers_iff {a : Attributes} {keyword : Keyword} {pointer : String} :
    pointer ∈ a.pointers keyword ↔
      ∃ source, (a.evaluator keyword).source = some source ∧ pointer ∈ Expr.mentioned source := by
  rw [pointers]
  cases (a.evaluator keyword).source with
  | none => simp
  | some source => simp

namespace Slot

theorem toList_token_variant (i : Nat) : (variant i).token.toList = '*' :: i.repr.toList := by
  rw [token, String.toList_append]
  rfl

theorem token_variant_injective {i j : Nat} (h : (variant i).token = (variant j).token) : i = j := by
  have hchars := congrArg String.toList h
  simp only [token, String.toList_append, Nat.toList_repr] at hchars
  have hdigits := List.append_cancel_left hchars
  rw [← Nat.ofDigitChars_ten_toDigits (n := i), hdigits, Nat.ofDigitChars_ten_toDigits]

end Slot

namespace Schema

/-- The slots of one schema are told apart by their tokens. -/
theorem Orderly.eq_of_token_eq {u : Schema} (h : Orderly u) {s t : Slot} (hs : s ∈ u.slots)
    (ht : t ∈ u.slots) (htoken : s.token = t.token) : s = t := by
  have hholder : s.holder = t.holder :=
    Option.some.inj ((h.base s hs).symm.trans (h.base t ht))
  cases s with
  | property name =>
    cases t with
    | property name' => rw [show name = name' from htoken]
    | item => simp [Slot.holder] at hholder
    | variant j => simp [Slot.holder] at hholder
  | item =>
    cases t with
    | property name' => simp [Slot.holder] at hholder
    | item => rfl
    | variant j =>
      have := h.item hs
      rw [h.variant j ht] at this
      cases this
  | variant i =>
    cases t with
    | property name' => simp [Slot.holder] at hholder
    | item =>
      have := h.item ht
      rw [h.variant i hs] at this
      cases this
    | variant j => rw [Slot.token_variant_injective htoken]

/-- The paths of a regular schema are told apart by their tokens. -/
theorem Regular.eq_of_tokens_eq {schema u v : Schema} (h : Regular schema) {path path' : List Slot}
    (hu : schema.sub? path = some u) (hv : schema.sub? path' = some v)
    (htokens : path.map Slot.token = path'.map Slot.token) : path = path' := by
  have main : ∀ (path path' : List Slot) (w u v : Schema),
      (∀ path u, w.sub? path = some u → Orderly u) → w.sub? path = some u →
        w.sub? path' = some v → path.map Slot.token = path'.map Slot.token → path = path' := by
    intro path
    induction path with
    | nil =>
      intro path' w u v _ _ _ htokens
      exact (List.map_eq_nil_iff.1 htokens.symm).symm
    | cons s path ih =>
      intro path' w u v horderly hu hv htokens
      cases path' with
      | nil => simp at htokens
      | cons t path' =>
        obtain ⟨htoken, hrest⟩ := List.cons.inj htokens
        obtain ⟨child, hchild, hu⟩ := Option.bind_eq_some_iff.1 hu
        obtain ⟨child', hchild', hv⟩ := Option.bind_eq_some_iff.1 hv
        obtain rfl := (horderly [] w rfl).eq_of_token_eq (Tree.mem_slots_of_at? hchild)
          (Tree.mem_slots_of_at? hchild') htoken
        obtain rfl := Option.some.inj (hchild.symm.trans hchild')
        refine congrArg (s :: ·) (ih path' child u v (fun path u hu => ?_) hu hv hrest)
        exact horderly (s :: path) u (by rw [Tree.sub?_cons, hchild]; exact hu)
  exact main path path' schema u v (fun path u hu => h.orderly hu) hu hv htokens

end Schema

namespace Wiring

variable {root : Schema} {p : Tree.Place Attributes} {keyword : Keyword}

/-- The evaluator of a keyword that is there, and the paths of what it reads. -/
def installed? (root : Schema) (p : Tree.Place Attributes) (keyword : Keyword) :
    Option (Evaluator × List (List Slot)) :=
  (p.label.keyword? keyword.name).bind fun raw => (install root p keyword raw).toOption

/-- An evaluator of a wiring is what its keyword installs. -/
theorem exists_installed_of_mem {keywords : List Keyword} {e : Evaluator}
    (h : (keyword, e) ∈ (ofKeywords root p keywords).evaluators) :
    ∃ targets, installed? root p keyword = some (e, targets) := by
  induction keywords with
  | nil => cases h
  | cons k keywords ih =>
    rw [ofKeywords] at h
    cases hraw : p.label.keyword? k.name with
    | none =>
      simp only [hraw] at h
      exact ih h
    | some raw =>
      simp only [hraw] at h
      cases hinstall : install root p k raw with
      | error cause => simp [hinstall] at h
      | ok found =>
        simp only [hinstall] at h
        rcases List.mem_cons.1 h with heq | h
        · obtain ⟨rfl, rfl⟩ := Prod.mk.inj heq
          refine ⟨found.2, ?_⟩
          rw [installed?, hraw, Option.bind_some, hinstall]
          rfl
        · exact ih h

/-- A wiring reads what its evaluators read, and nothing else. -/
theorem mem_targets_ofKeywords_iff {keywords : List Keyword} {target : List Slot} :
    target ∈ (ofKeywords root p keywords).targets ↔
      ∃ keyword e targets, (keyword, e) ∈ (ofKeywords root p keywords).evaluators ∧
        installed? root p keyword = some (e, targets) ∧ target ∈ targets := by
  induction keywords with
  | nil => simp [ofKeywords]
  | cons k keywords ih =>
    rw [ofKeywords]
    cases hraw : p.label.keyword? k.name with
    | none => exact ih
    | some raw =>
      dsimp only
      cases hinstall : install root p k raw with
      | error cause => simp
      | ok found =>
        have hfound : installed? root p k = some found := by
          rw [installed?, hraw, Option.bind_some, hinstall]
          rfl
        simp only [List.mem_append, ih, List.mem_cons, Prod.mk.injEq]
        constructor
        · rintro (htarget | ⟨keyword, e, targets, hmem, hinstalled, htarget⟩)
          · exact ⟨k, found.1, found.2, .inl ⟨rfl, rfl⟩, hfound, htarget⟩
          · exact ⟨keyword, e, targets, .inr hmem, hinstalled, htarget⟩
        · rintro ⟨keyword, e, targets, ⟨rfl, rfl⟩ | hmem, hinstalled, htarget⟩
          · rw [Option.some.inj (hfound.symm.trans hinstalled)]
            exact .inl htarget
          · exact .inr ⟨keyword, e, targets, hmem, hinstalled, htarget⟩

theorem lookup_eq_some_iff {keywords : List Keyword} {e : Evaluator} :
    (ofKeywords root p keywords).evaluators.lookup keyword = some e ↔
      (keyword, e) ∈ (ofKeywords root p keywords).evaluators := by
  refine ⟨Key.mem_of_lookup, fun h => ?_⟩
  obtain ⟨targets, hinstalled⟩ := exists_installed_of_mem h
  have hsome : ((ofKeywords root p keywords).evaluators.lookup keyword).isSome = true :=
    List.lookup_isSome_iff.2 ⟨_, h, beq_self_eq_true _⟩
  obtain ⟨e', he'⟩ := Option.isSome_iff_exists.1 hsome
  obtain ⟨targets', hinstalled'⟩ := exists_installed_of_mem (Key.mem_of_lookup he')
  obtain ⟨rfl, -⟩ := Prod.mk.inj (Option.some.inj (hinstalled.symm.trans hinstalled'))
  exact he'

/-- What a keyword installs has been compiled. -/
theorem exists_of_installed? {found : Evaluator × List (List Slot)}
    (h : installed? root p keyword = some found) :
    ∃ raw, Evaluator.compile keyword.flavor raw = .ok found.1 ∧
      targetsOf root p keyword found.1 = .ok found.2 := by
  obtain ⟨raw, -, hraw⟩ := Option.bind_eq_some_iff.1 h
  rw [install] at hraw
  cases hcompile : Evaluator.compile keyword.flavor raw with
  | error e =>
    rw [hcompile] at hraw
    cases hraw
  | ok e =>
    rw [hcompile] at hraw
    dsimp only at hraw
    cases htargets : targetsOf root p keyword e with
    | error cause =>
      rw [htargets] at hraw
      cases hraw
    | ok targets =>
      rw [htargets] at hraw
      obtain rfl := Option.some.inj hraw
      exact ⟨raw, hcompile, htargets⟩

/-- What a keyword reads is what the pointers in its source name. -/
theorem installed?_eq_some {found : Evaluator × List (List Slot)}
    (h : installed? root p keyword = some found) :
    (found.1.source = none ∧ found.2 = []) ∨
      ∃ source, found.1.source = some source ∧
        (Expr.mentioned source).mapM (target root p keyword) = .ok found.2 := by
  obtain ⟨raw, -, htargets⟩ := exists_of_installed? h
  rw [targetsOf] at htargets
  cases hsource : found.1.source with
  | none =>
    rw [hsource] at htargets
    exact .inl ⟨rfl, (Except.ok.inj htargets).symm⟩
  | some source =>
    rw [hsource] at htargets
    exact .inr ⟨source, rfl, htargets⟩

/-- An evaluator and what it reads, found one after the other. -/
theorem install_eq {raw : Json} {e : Evaluator} {source : String} {pointers : List String}
    (compile_eq : Evaluator.compile keyword.flavor raw = .ok e) (source_eq : e.source = some source)
    (mentioned_eq : Expr.mentioned source = pointers) :
    install root p keyword raw =
      (pointers.mapM (target root p keyword)).map fun targets => (e, targets) := by
  rw [install, compile_eq]
  dsimp only
  rw [targetsOf, source_eq]
  dsimp only
  rw [mentioned_eq]

theorem install_eq_ok {raw : Json} {e : Evaluator} {source : String} {pointers : List String}
    {targets : List (List Slot)} (compile_eq : Evaluator.compile keyword.flavor raw = .ok e)
    (source_eq : e.source = some source) (mentioned_eq : Expr.mentioned source = pointers)
    (targets_eq : pointers.mapM (target root p keyword) = .ok targets) :
    install root p keyword raw = .ok (e, targets) := by
  rw [install_eq compile_eq source_eq mentioned_eq, targets_eq]
  rfl

/-- The path that a pointer in a keyword names. -/
theorem target_eq_ok_iff {pathOf : Attributes → List Slot} (labelled : root.Labelled pathOf)
    (hpath : pathOf = fun label => label.path) (hp : root.HasAt pathOf p) {pointer : String}
    {path : List Slot} :
    target root p keyword pointer = .ok path ↔
      Pointer.resolveText root.slotNavigation p.label.path.dropLast pointer = .ok (some path) := by
  subst hpath
  rw [← labelled.resolve_container hp, target]
  cases Pointer.resolveText root.navigation p.container pointer with
  | error e => simp [Except.map]
  | ok found => cases found <;> simp [Except.map]

end Wiring

/-- Whether expressions read what they mention, every pointer that is mentioned names a place, and
each place knows once of exactly those that mention it. -/
structure Schema.Observant (schema : Schema) : Prop where
  mentioned : ∀ {path u}, schema.sub? path = some u → ∀ keyword,
    (u.label.evaluator keyword).Mentioned
  named : ∀ {path u keyword pointer}, schema.sub? path = some u →
    pointer ∈ u.label.pointers keyword →
      ∃ target, Pointer.resolveText schema.slotNavigation path.dropLast pointer = .ok (some target)
  observed : ∀ {path u observer}, schema.sub? path = some u →
    (observer ∈ u.label.observers ↔
      ∃ path' v, schema.sub? path' = some v ∧ observer = path'.map Slot.token ∧
        ∃ keyword, ∃ pointer ∈ v.label.pointers keyword,
          Pointer.resolveText schema.slotNavigation path'.dropLast pointer = .ok (some path))
  once : ∀ {path u}, schema.sub? path = some u → u.label.observers.Nodup

/-- Whether a schema has the shape of one that is compiled without problems, and knows who reads
what. -/
structure Schema.Wired (schema : Schema) : Prop extends Schema.Regular schema, Schema.Observant schema

namespace Compilation

variable {settings : Settings} {cache : Enumeration.Cache} {raw : Json} {data : Option Json}
  {inlined : Json} {offer : String → Option (List Choice)} {derived : Schema} {c : Compiled}

namespace Stages

/-- The evaluator of a keyword is one of the wiring, or else a constant. -/
theorem evaluator_cases (h : Stages settings raw data inlined offer derived c)
    {path : List Slot} {p : Tree.Place Attributes} (hp : derived.place? path = some p)
    (keyword : Keyword) :
    ((∀ e, (keyword, e) ∉ (Wiring.ofPlace derived p).evaluators) ∧
        ∃ flavor value, (wiredLabel derived p).evaluator keyword = .constant flavor value) ∨
      (keyword, (wiredLabel derived p).evaluator keyword) ∈
        (Wiring.ofPlace derived p).evaluators := by
  have htree : derived.sub? path = some p.tree := by
    rw [Tree.sub?_eq, hp]
    rfl
  obtain ⟨o, -, -, -, -, hseeds⟩ := h.exists_section htree
  rw [Attributes.evaluator, wiredLabel, List.lookup_append]
  cases hlookup : (Wiring.ofPlace derived p).evaluators.lookup keyword with
  | some e => exact .inr (Wiring.lookup_eq_some_iff.1 hlookup)
  | none =>
    refine .inl ⟨fun e he => ?_, ?_⟩
    · rw [Wiring.ofPlace, Wiring.lookup_eq_some_iff.2 he] at hlookup
      cases hlookup
    · rw [Option.none_or]
      cases hseed : p.label.evaluators.lookup keyword with
      | none => exact ⟨_, _, rfl⟩
      | some seed => exact hseeds _ (Key.mem_of_lookup hseed)

theorem mem_pointers_iff (h : Stages settings raw data inlined offer derived c)
    {path : List Slot} {p : Tree.Place Attributes} (hp : derived.place? path = some p)
    {keyword : Keyword} {pointer : String} :
    pointer ∈ (wiredLabel derived p).pointers keyword ↔
      ∃ e source, (keyword, e) ∈ (Wiring.ofPlace derived p).evaluators ∧
        e.source = some source ∧ pointer ∈ Expr.mentioned source := by
  rw [Attributes.mem_pointers_iff]
  rcases h.evaluator_cases hp keyword with ⟨hnone, flavor, value, heq⟩ | hmem
  · simp [hnone, heq, Evaluator.constant]
  · constructor
    · rintro ⟨source, hsource, hpointer⟩
      exact ⟨_, source, hmem, hsource, hpointer⟩
    · rintro ⟨e, source, he, hsource, hpointer⟩
      have heq : e = (wiredLabel derived p).evaluator keyword := Option.some.inj
        ((Wiring.lookup_eq_some_iff.2 he).symm.trans (Wiring.lookup_eq_some_iff.2 hmem))
      exact ⟨source, heq ▸ hsource, hpointer⟩

theorem slotNavigation_eq (h : Stages settings raw data inlined offer derived c) :
    c.schema.slotNavigation = derived.slotNavigation := by
  rw [h.schema_eq]
  dsimp only [Wiring.wire]
  rw [Tree.map, Tree.slotNavigation_extend, Tree.slotNavigation_extend]

/-- What a place reads is what its pointers name. -/
theorem mem_targets_iff (h : Stages settings raw data inlined offer derived c)
    {path : List Slot} {p : Tree.Place Attributes} (hp : derived.place? path = some p)
    {target : List Slot} :
    target ∈ (Wiring.ofPlace derived p).targets ↔
      ∃ keyword, ∃ pointer ∈ (wiredLabel derived p).pointers keyword,
        Wiring.target derived p keyword pointer = .ok target := by
  rw [Wiring.ofPlace, Wiring.mem_targets_ofKeywords_iff]
  constructor
  · rintro ⟨keyword, e, targets, he, hinstalled, hmem⟩
    rcases Wiring.installed?_eq_some hinstalled with ⟨-, hnil⟩ | ⟨source, hsource, htargets⟩
    · obtain rfl : targets = [] := hnil
      cases hmem
    · obtain ⟨pointer, hpointer, htarget⟩ := (mem_of_mapM htargets target).1 hmem
      exact ⟨keyword, pointer, (h.mem_pointers_iff hp).2 ⟨e, source, he, hsource, hpointer⟩, htarget⟩
  · rintro ⟨keyword, pointer, hpointer, htarget⟩
    obtain ⟨e, source, he, hsource, hmem⟩ := (h.mem_pointers_iff hp).1 hpointer
    obtain ⟨targets, hinstalled⟩ := Wiring.exists_installed_of_mem he
    refine ⟨keyword, e, targets, he, hinstalled, ?_⟩
    rcases Wiring.installed?_eq_some hinstalled with ⟨hnone, -⟩ | ⟨source', hsource', htargets⟩
    · rw [hnone] at hsource
      cases hsource
    · obtain rfl := Option.some.inj (hsource'.symm.trans hsource)
      exact (mem_of_mapM htargets target).2 ⟨pointer, hmem, htarget⟩

theorem mem_observers_iff (p : Tree.Place Attributes) (observer : List String) :
    observer ∈ (wiredLabel derived p).observers ↔
      ∃ q ∈ derived.places, p.label.path ∈ (Wiring.ofPlace derived q).targets ∧
        observer = q.label.tokens := by
  rw [wiredLabel, Wiring.observers, List.mem_eraseDups, List.mem_map, Tree.labels_extend,
    List.flatMap_map]
  constructor
  · rintro ⟨edge, hedge, rfl⟩
    obtain ⟨hedge, hpath⟩ := List.mem_filter.1 hedge
    obtain ⟨q, hq, hedge⟩ := List.mem_flatMap.1 hedge
    obtain ⟨target, htarget, rfl⟩ := List.mem_map.1 hedge
    exact ⟨q, hq, beq_iff_eq.1 hpath ▸ htarget, rfl⟩
  · rintro ⟨q, hq, htarget, rfl⟩
    refine ⟨(p.label.path, q.label.tokens), List.mem_filter.2 ⟨?_, beq_self_eq_true _⟩, rfl⟩
    exact List.mem_flatMap.2 ⟨q, hq, List.mem_map.2 ⟨_, htarget, rfl⟩⟩

/-- The path that a pointer in a keyword names, in the compiled schema. -/
theorem target_eq_ok_iff (h : Stages settings raw data inlined offer derived c)
    (labelled : derived.Labelled fun label => label.path) {path path' : List Slot}
    {p : Tree.Place Attributes} (hp : derived.place? path = some p) {keyword : Keyword}
    {pointer : String} :
    Wiring.target derived p keyword pointer = .ok path' ↔
      Pointer.resolveText c.schema.slotNavigation path.dropLast pointer = .ok (some path') := by
  rw [Wiring.target_eq_ok_iff labelled rfl (labelled.hasAt hp), h.slotNavigation_eq,
    labelled.path_eq hp]

/-- Whatever an expression mentions names a place, or else its evaluator would not be there. -/
theorem exists_named (h : Stages settings raw data inlined offer derived c)
    (labelled : derived.Labelled fun label => label.path) {path : List Slot}
    {p : Tree.Place Attributes} (hp : derived.place? path = some p) {keyword : Keyword}
    {pointer : String} (hpointer : pointer ∈ (wiredLabel derived p).pointers keyword) :
    ∃ target, Pointer.resolveText c.schema.slotNavigation path.dropLast pointer =
      .ok (some target) := by
  obtain ⟨e, source, he, hsource, hmem⟩ := (h.mem_pointers_iff hp).1 hpointer
  obtain ⟨targets, hinstalled⟩ := Wiring.exists_installed_of_mem he
  rcases Wiring.installed?_eq_some hinstalled with ⟨hnone, -⟩ | ⟨source', hsource', htargets⟩
  · rw [hnone] at hsource
    cases hsource
  · obtain rfl := Option.some.inj (hsource'.symm.trans hsource)
    obtain ⟨target, htarget⟩ := exists_of_mapM htargets pointer hmem
    exact ⟨target, (h.target_eq_ok_iff labelled hp).1 htarget⟩

/-- A place knows of those that mention it, in terms of paths. -/
theorem mem_observers_iff_mentions (h : Stages settings raw data inlined offer derived c)
    (shaped : Schema.Shaped derived) {path : List Slot} {p : Tree.Place Attributes}
    (hp : derived.place? path = some p) {observer : List String} :
    observer ∈ (wiredLabel derived p).observers ↔
      ∃ path' v, c.schema.sub? path' = some v ∧ observer = path'.map Slot.token ∧
        ∃ keyword, ∃ pointer ∈ v.label.pointers keyword,
          Pointer.resolveText c.schema.slotNavigation path'.dropLast pointer = .ok (some path) := by
  have labelled := shaped.labelled
  have tokens {path' : List Slot} {q : Tree.Place Attributes} (hq : derived.place? path' = some q) :
      q.label.tokens = path'.map Slot.token := by
    rw [Section.tokens, show q.label.path = path' from labelled.path_eq hq]
  rw [mem_observers_iff, show p.label.path = path from labelled.path_eq hp]
  constructor
  · rintro ⟨q, hq, htarget, rfl⟩
    obtain ⟨path', hq⟩ := Tree.exists_path_of_mem_places
      (shaped.slotsDistinct (rfl : derived.sub? [] = some derived)) hq
    obtain ⟨v, hv⟩ := h.exists_wired hq
    obtain ⟨q', hq', -, hlabel⟩ := h.exists_place hv
    obtain rfl := Option.some.inj (hq.symm.trans hq')
    obtain ⟨keyword, pointer, hpointer, htarget⟩ := (h.mem_targets_iff hq).1 htarget
    exact ⟨path', v, hv, tokens hq, keyword, pointer, hlabel ▸ hpointer,
      (h.target_eq_ok_iff labelled hq).1 htarget⟩
  · rintro ⟨path', v, hv, rfl, keyword, pointer, hpointer, htarget⟩
    obtain ⟨q, hq, -, hlabel⟩ := h.exists_place hv
    refine ⟨q, Tree.mem_places_of_place? hq, (h.mem_targets_iff hq).2 ?_, (tokens hq).symm⟩
    exact ⟨keyword, pointer, hlabel ▸ hpointer, (h.target_eq_ok_iff labelled hq).2 htarget⟩

/-- An evaluator that is there reads only what its source mentions. -/
theorem mentioned (h : Stages settings raw data inlined offer derived c) {path : List Slot}
    {p : Tree.Place Attributes} (hp : derived.place? path = some p) (keyword : Keyword) :
    ((wiredLabel derived p).evaluator keyword).Mentioned := by
  rcases h.evaluator_cases hp keyword with ⟨-, flavor, value, heq⟩ | hmem
  · exact heq ▸ Evaluator.mentioned_constant flavor value
  · obtain ⟨targets, hinstalled⟩ := Wiring.exists_installed_of_mem hmem
    obtain ⟨raw, hcompile, -⟩ := Wiring.exists_of_installed? hinstalled
    exact Evaluator.mentioned_of_compile hcompile

/-- A compiled schema knows who reads what, whatever problems there are. -/
theorem observant (h : Stages settings raw data inlined offer derived c)
    (distinct : raw.keysDistinct = true) : Schema.Observant c.schema where
  mentioned hu keyword := by
    obtain ⟨p, hp, -, hlabel⟩ := h.exists_place hu
    exact hlabel ▸ h.mentioned hp keyword
  named hu hpointer := by
    obtain ⟨p, hp, -, hlabel⟩ := h.exists_place hu
    exact h.exists_named (h.shaped_derived distinct).labelled hp (hlabel ▸ hpointer)
  observed hu := by
    obtain ⟨p, hp, -, hlabel⟩ := h.exists_place hu
    exact hlabel ▸ h.mem_observers_iff_mentions (h.shaped_derived distinct) hp
  once hu := by
    obtain ⟨p, -, -, hlabel⟩ := h.exists_place hu
    exact hlabel ▸ nodup_eraseDups _

end Stages

theorem observant_of_compile (distinct : raw.keysDistinct = true)
    (h : (compile settings cache raw data).1 = .ok c) : Schema.Observant c.schema := by
  obtain ⟨inlined, offer, derived, stages⟩ := exists_stages h
  exact stages.observant distinct

/-- A schema that compiles without problems is wired. -/
theorem wired_of_compile (distinct : raw.keysDistinct = true)
    (h : (compile settings cache raw data).1 = .ok c) (valid : c.problems = []) :
    Schema.Wired c.schema := by
  obtain ⟨inlined, offer, derived, passes⟩ := exists_passes h valid
  exact ⟨passes.regular distinct, passes.observant distinct⟩

theorem wired_of_run (distinct : raw.keysDistinct = true) (h : run settings raw data = .ok c)
    (valid : c.problems = []) : Schema.Wired c.schema := wired_of_compile distinct h valid

end Compilation

end FormSchema
