import FormSchema.Proofs.Json.Path
import FormSchema.Proofs.Outcome
import FormSchema.Schema.Typing
import Mathlib.Data.List.Basic

/-!
What a keyword says of the base type.  A keyword that applies to one kind leaves that kind alone in
the target, and a schema without a problem has it as its base type.
-/

namespace FormSchema

/-- What a fold keeps as long as every member lets it. -/
theorem foldl_and {α β : Type} {f : β → α → β} (p : β → Prop) (q : α → Prop)
    (step : ∀ b a, p (f b a) ↔ p b ∧ q a) (l : List α) (b : β) :
    p (l.foldl f b) ↔ p b ∧ ∀ a ∈ l, q a := by
  induction l generalizing b with
  | nil => simp
  | cons a l ih => rw [List.foldl_cons, ih, step, List.forall_mem_cons, and_assoc]

namespace KindSet

/-- What admits numbers admits integers. -/
theorem admits_integer {s : KindSet} (h : s.admits .number = true) : s.admits .integer = true := by
  simp only [admits, has, beq_iff_eq, reduceCtorEq, Bool.or_eq_true, Bool.and_eq_true,
    false_and, or_false] at h
  simp [admits, h]

theorem admits_inter (s t : KindSet) (k : Kind) :
    (s.inter t).admits k = (s.admits k && t.admits k) := by
  rw [inter, admits_ofTest, Bool.or_eq_left_iff_imp, Bool.and_eq_true, beq_iff_eq]
  rintro ⟨rfl, h⟩
  rw [Bool.and_eq_true] at h
  rw [admits_integer h.1, admits_integer h.2]
  rfl

theorem admits_foldl_inter {sets : List KindSet} {start : KindSet} {k : Kind} :
    (sets.foldl inter start).admits k = true ↔
      start.admits k = true ∧ ∀ s ∈ sets, s.admits k = true :=
  foldl_and (fun s => s.admits k = true) (fun s => s.admits k = true)
    (fun s t => by rw [admits_inter, Bool.and_eq_true]) sets start

theorem eq_of_admits_single {kind k : Kind} (hkind : kind ≠ .number)
    (h : (single kind).admits k = true) : k = kind := by
  rw [single, admits_ofTest, Bool.or_eq_true, Bool.and_eq_true, beq_iff_eq, beq_iff_eq,
    beq_iff_eq] at h
  rcases h with h | ⟨-, h⟩
  · exact h
  · exact absurd h.symm hkind

theorem admits_of_has {s : KindSet} {k : Kind} (h : s.has k = true) : s.admits k = true := by
  simp [admits, h]

end KindSet

namespace Inference

/-- What the value of a keyword constrains. -/
def nestedOf : Json → Nested
  | .arr items => ⟨.error ⟨"subschema", .unexpected .subschema (.arr items)⟩, ofBranches items⟩
  | value => ⟨ofSubschema value, []⟩

theorem lookup_nestedIn (fields : Fields) (key : String) :
    (nestedIn fields).lookup key = (fields.lookup key).map nestedOf := by
  have hmap : nestedIn fields = fields.map fun field => (field.1, nestedOf field.2) := by
    induction fields with
    | nil => rfl
    | cons field fields ih =>
      obtain ⟨key, value⟩ := field
      rw [List.map_cons, ← ih]
      cases value <;> rfl
  rw [hmap]
  exact Key.lookup_map_snd (fun _ => nestedOf) fields key

theorem exists_mem_of_mapM_id {ε α : Type} {l : List (Except ε α)} {out : List α}
    (h : l.mapM id = .ok out) : ∀ x ∈ l, ∃ a, x = .ok a ∧ a ∈ out := by
  induction l generalizing out with
  | nil => simp
  | cons x l ih =>
    rw [List.mapM_cons] at h
    cases x with
    | error e => cases h
    | ok a =>
      cases hl : l.mapM id with
      | error e =>
        rw [hl] at h
        cases h
      | ok rest =>
        rw [hl] at h
        obtain rfl : a :: rest = out := Except.ok.inj h
        refine List.forall_mem_cons.2 ⟨⟨a, rfl, List.mem_cons_self⟩, fun y hy => ?_⟩
        obtain ⟨b, hb, hmem⟩ := ih hl y hy
        exact ⟨b, hb, List.mem_cons_of_mem _ hmem⟩

/-- What a target admits is admitted by every constraint of the keywords. -/
theorem exists_of_target {fields : Fields} {t : KindSet} (h : target fields = .ok t)
    {source : Constraint} (hsource : source ∈ sources fields (nestedIn fields)) :
    ∃ constraint, source = .ok constraint ∧
      ∀ set, constraint = some set → ∀ k, t.admits k = true → set.admits k = true := by
  obtain ⟨constraints, hconstraints, h⟩ := bind_eq_ok.1 h
  obtain rfl := Except.ok.inj h
  obtain ⟨constraint, hok, hmem⟩ := exists_mem_of_mapM_id hconstraints _ hsource
  refine ⟨constraint, hok, fun set hset k hk => ?_⟩
  exact (KindSet.admits_foldl_inter.1 hk).2 set (List.mem_filterMap.2 ⟨_, hmem, hset⟩)

/-- A keyword of a family leaves only the kind of the family. -/
theorem eq_of_target_admits {fields : Fields} {t : KindSet} {kind k : Kind}
    {keywords : List String} {keyword : String} (htarget : target fields = .ok t)
    (hfamily : (kind, keywords) ∈ families) (hkind : kind ≠ .number) (hkeyword : keyword ∈ keywords)
    (hfield : fields.has keyword = true) (h : t.admits k = true) : k = kind := by
  have hsource : ofFamily fields kind keywords ∈ sources fields (nestedIn fields) := by
    refine List.mem_append_left _ (List.mem_append_right _ ?_)
    exact List.mem_map.2 ⟨(kind, keywords), hfamily, rfl⟩
  obtain ⟨constraint, hconstraint, hadmits⟩ := exists_of_target htarget hsource
  have hany : keywords.any fields.has = true := List.any_eq_true.2 ⟨keyword, hkeyword, hfield⟩
  rw [ofFamily, if_pos hany] at hconstraint
  exact KindSet.eq_of_admits_single hkind (hadmits _ (Except.ok.inj hconstraint).symm k h)

theorem has_of_baseType {t : KindSet} {base : Kind} {nullable : Bool}
    (h : baseType t = .ok (base, nullable)) : t.has base = true := by
  have member (k : Kind) (hk : k ∈ t.toList) : t.has k = true := (List.mem_filter.1 hk).2
  unfold baseType at h
  split at h
  · cases h
  · rename_i only hlist
    obtain ⟨rfl, -⟩ := Prod.mk.inj (Except.ok.inj h)
    exact member _ (by simp [hlist])
  · rename_i a b hlist
    split at h
    · obtain ⟨rfl, -⟩ := Prod.mk.inj (Except.ok.inj h)
      exact member _ (by simp [hlist])
    · split at h
      · obtain ⟨rfl, -⟩ := Prod.mk.inj (Except.ok.inj h)
        exact member _ (by simp [hlist])
      · cases h
  · cases h

end Inference

namespace Typing

variable {s : Section} {fields : Fields} {kind : Kind} {keywords : List String} {keyword : String}

/-- A schema that has a keyword of a family has no other base type than the kind of the family. -/
theorem eq_of_base {base : Kind} (hbase : (ofSection s).base = some base) (hraw : s.raw = .obj fields)
    (hfamily : (kind, keywords) ∈ Inference.families) (hkind : kind ≠ .number)
    (hkeyword : keyword ∈ keywords) (hfield : fields.has keyword = true) : base = kind := by
  unfold ofSection at hbase
  simp only [hraw] at hbase
  cases htarget : Inference.target fields with
  | error e => simp [htarget] at hbase
  | ok t =>
    simp only [htarget] at hbase
    cases hfound : Inference.baseType t with
    | error e => simp [hfound] at hbase
    | ok found =>
      obtain ⟨picked, nullable⟩ := found
      simp only [hfound] at hbase
      have hadmits := KindSet.admits_of_has (Inference.has_of_baseType hfound)
      obtain rfl := Inference.eq_of_target_admits htarget hfamily hkind hkeyword hfield hadmits
      split at hbase <;> exact (Option.some.inj hbase).symm

/-- A schema without a problem has a base type. -/
theorem exists_base (hproblem : (ofSection s).problem = none) (hraw : s.raw = .obj fields) :
    ∃ base, (ofSection s).base = some base := by
  unfold ofSection at hproblem ⊢
  simp only [hraw] at hproblem ⊢
  cases htarget : Inference.target fields with
  | error e => simp [htarget] at hproblem
  | ok t =>
    simp only [htarget] at hproblem ⊢
    cases hfound : Inference.baseType t with
    | error e => simp [hfound] at hproblem
    | ok found =>
      simp only
      split <;> exact ⟨_, rfl⟩

/-- A schema without a problem that has a keyword of a family has the kind of the family as its base
type. -/
theorem base_of_keyword (hproblem : (ofSection s).problem = none) (hraw : s.raw = .obj fields)
    (hfamily : (kind, keywords) ∈ Inference.families) (hkind : kind ≠ .number)
    (hkeyword : keyword ∈ keywords) (hfield : fields.has keyword = true) :
    (ofSection s).base = some kind := by
  obtain ⟨base, hbase⟩ := exists_base hproblem hraw
  rw [hbase, eq_of_base hbase hraw hfamily hkind hkeyword hfield]

end Typing

/-- Only what the name of a list of choices offers matters. -/
theorem Typing.attributes_congr {offer offer' : String → Option (List Choice)} (s : Section)
    {t : Typing} (h : ∀ name, t.choosing.name? = some name → offer name = offer' name) :
    t.attributes offer s = t.attributes offer' s := by
  have hchoices : t.choosing.choices offer = t.choosing.choices offer' := by
    cases hchoosing : t.choosing with
    | free => rfl
    | listed choices => rfl
    | named name => exact congrArg (·.getD []) (h name (by rw [hchoosing]; rfl))
  rw [attributes, attributes, hchoices]

end FormSchema
