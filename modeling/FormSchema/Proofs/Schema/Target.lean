import FormSchema.Proofs.Outcome
import FormSchema.Proofs.Schema.Typing
import FormSchema.Schema.Normal
import FormSchema.Validation.Basic

/-!
Targets and `type`.  A target admits a kind if one of its members does, which is how `type` is read;
what a schema writes as its type admits all that its target admits, and the type that a target is
written as admits nothing else.
-/

namespace FormSchema

theorem Kind.ofName?_name (k : Kind) : ofName? k.name = some k := by cases k <;> rfl

namespace KindSet

/-- Two sets that have the same members are the same. -/
theorem ext_has {s t : KindSet} (h : ∀ k, s.has k = t.has k) : s = t := by
  obtain ⟨null, boolean, object, array, number, string, integer, hs⟩ := s
  obtain ⟨null', boolean', object', array', number', string', integer', ht⟩ := t
  simp only [mk.injEq]
  exact ⟨h .null, h .boolean, h .object, h .array, h .number, h .string, h .integer⟩

theorem admits_eq_has {k : Kind} (h : k ≠ .integer) (s : KindSet) : s.admits k = s.has k := by
  rw [admits, beq_false_of_ne h, Bool.false_and, Bool.or_false]

/-- Two sets that admit the same kinds are the same. -/
theorem ext_admits {s t : KindSet} (h : ∀ k, s.admits k = t.admits k) : s = t := by
  have others (k : Kind) (hk : k ≠ .integer) : s.has k = t.has k := by
    rw [← admits_eq_has hk, ← admits_eq_has hk, h]
  refine ext_has fun k => ?_
  by_cases hk : k = .integer
  · have hnumber : s.number = t.number := others .number (by decide)
    have hinteger := h .integer
    have hs := s.number_or_integer
    have ht := t.number_or_integer
    rw [hk]
    simp only [admits, has, hnumber] at hinteger hs ⊢
    revert hinteger hs ht
    cases s.integer <;> cases t.integer <;> cases t.number <;> decide
  · exact others k hk

theorem mem_toList {s : KindSet} {k : Kind} : k ∈ s.toList ↔ s.has k = true := by
  simp [toList, Kind.mem_all]

theorem any_satisfies (s : KindSet) (k : Kind) : s.toList.any k.satisfies = s.admits k := by
  have hnumber : s.has .number = s.number := rfl
  rw [Bool.eq_iff_iff]
  simp only [List.any_eq_true, mem_toList, Kind.satisfies, admits, Bool.or_eq_true, beq_iff_eq,
    Bool.and_eq_true]
  constructor
  · rintro ⟨w, hw, rfl | ⟨rfl, rfl⟩⟩
    · exact .inl hw
    · exact .inr ⟨rfl, hw⟩
  · rintro (h | ⟨rfl, h⟩)
    · exact ⟨k, h, .inl rfl⟩
    · exact ⟨.number, h, .inr ⟨rfl, rfl⟩⟩

theorem admits_ofList (kinds : List Kind) (k : Kind) :
    (ofList kinds).admits k = kinds.any k.satisfies := by
  rw [ofList, admits_ofTest, Bool.eq_iff_iff]
  simp only [List.any_eq_true, Kind.satisfies, Bool.or_eq_true, beq_iff_eq, Bool.and_eq_true,
    List.contains_iff_mem]
  constructor
  · rintro (h | ⟨rfl, h⟩)
    · exact ⟨k, h, .inl rfl⟩
    · exact ⟨.number, h, .inr ⟨rfl, rfl⟩⟩
  · rintro ⟨w, hw, rfl | ⟨rfl, rfl⟩⟩
    · exact .inl hw
    · exact .inr ⟨rfl, hw⟩

theorem admits_single (k kind : Kind) : (single kind).admits k = k.satisfies kind := by
  rw [single, admits_ofTest, Kind.satisfies]
  cases k <;> cases kind <;> rfl

end KindSet

/-- What a target is written as: a name, or a list of names. -/
theorem Attributes.typeKeyword_eq (t : KindSet) :
    (∃ only, t.toList = [only] ∧ typeKeyword t = .str only.name) ∨
      typeKeyword t = .arr (t.toList.map fun kind => .str kind.name) := by
  rw [typeKeyword]
  split
  · rename_i only honly
    exact .inl ⟨only, honly, rfl⟩
  · rw [Json.ofStrings, List.map_map]
    exact .inr rfl

namespace Inference

/-- A target that is written as the type is read as it was. -/
theorem ofType_typeKeyword {fields : Fields} {t : KindSet}
    (h : fields.lookup "type" = some (Attributes.typeKeyword t)) : ofType fields = .ok (some t) := by
  have typeName_name (kind : Kind) : typeName (.str kind.name) = .ok kind := by
    rw [typeName, Json.str?, Option.bind_some, Kind.ofName?_name]
  rw [ofType, h]
  obtain ⟨only, honly, htype⟩ | htype := Attributes.typeKeyword_eq t
  · rw [htype]
    dsimp only
    rw [typeName_name]
    refine congrArg (fun set => Except.ok (some set)) (KindSet.ext_admits fun k => ?_)
    rw [KindSet.admits_single, ← KindSet.any_satisfies, honly, List.any_cons, List.any_nil,
      Bool.or_false]
  · have hkinds (kinds : List Kind) :
        (kinds.map fun kind => Json.str kind.name).mapM typeName = .ok kinds := by
      induction kinds with
      | nil => rfl
      | cons kind kinds ih =>
        rw [List.map_cons, List.mapM_cons, ih, typeName_name]
        rfl
    rw [htype]
    dsimp only
    rw [hkinds]
    refine congrArg (fun set => Except.ok (some set)) (KindSet.ext_admits fun k => ?_)
    rw [KindSet.admits_ofList, KindSet.any_satisfies]

/-- A target stays when it is written as the type, since it admits nothing that another keyword does
not admit. -/
theorem target_eq_of_ofType {fields fields' : Fields} {t : KindSet} (h : target fields = .ok t)
    (type : ofType fields' = .ok (some t))
    (others : (sources fields' (nestedIn fields')).tail = (sources fields (nestedIn fields)).tail) :
    target fields' = .ok t := by
  have hcons (fields : Fields) : sources fields (nestedIn fields) =
      ofType fields :: (sources fields (nestedIn fields)).tail := rfl
  obtain ⟨constraints, hconstraints, ht⟩ := bind_eq_ok.1 h
  rw [hcons, List.mapM_cons] at hconstraints
  obtain ⟨constraint, -, hconstraints⟩ := bind_eq_ok.1 hconstraints
  obtain ⟨rest, hrest, hconstraints⟩ := bind_eq_ok.1 hconstraints
  obtain rfl := Except.ok.inj hconstraints
  have hread : target fields' =
      .ok (((some t :: rest).filterMap id).foldl .inter .universal) := by
    rw [target, targetOf, hcons, List.mapM_cons, type, others, hrest]
    rfl
  have hlist : (some t :: rest).filterMap id = t :: rest.filterMap id := rfl
  rw [hread, hlist]
  refine congrArg Except.ok (KindSet.ext_admits fun k => Bool.eq_iff_iff.2 ?_)
  rw [KindSet.admits_foldl_inter, List.forall_mem_cons]
  refine ⟨fun hk => hk.2.1, fun hk => ⟨KindSet.admits_universal k, hk, fun set hset => ?_⟩⟩
  obtain rfl := Except.ok.inj ht
  refine (KindSet.admits_foldl_inter.1 hk).2 set ?_
  rw [List.filterMap_cons]
  split
  · exact hset
  · exact List.mem_cons_of_mem _ hset

/-- A base type stands for the kinds that its target admits. -/
theorem admits_of_baseType {t : KindSet} {base : Kind} {nullable : Bool}
    (h : baseType t = .ok (base, nullable)) (k : Kind) :
    t.admits k = (k.satisfies base || (k == .null && nullable)) := by
  have hnull (k : Kind) : k.satisfies .null = (k == .null) := by cases k <;> rfl
  rw [← KindSet.any_satisfies]
  unfold baseType at h
  split at h
  · cases h
  · rename_i only hlist
    obtain ⟨rfl, rfl⟩ := Prod.mk.inj (Except.ok.inj h)
    rw [hlist]
    cases only <;> cases k <;> rfl
  · rename_i a b hlist
    rw [hlist]
    split at h
    · rename_i ha
      obtain ⟨rfl, rfl⟩ := Prod.mk.inj (Except.ok.inj h)
      simp [ha, hnull, Bool.or_comm]
    · split at h
      · rename_i hb
        obtain ⟨rfl, rfl⟩ := Prod.mk.inj (Except.ok.inj h)
        simp [hb, hnull]
      · cases h
  · cases h

theorem toList_ne_nil {t : KindSet} {picked : Kind × Bool} (h : baseType t = .ok picked) :
    t.toList ≠ [] := by
  intro hnil
  rw [baseType, hnil] at h
  cases h

theorem filterMap_of_typeNames {names : List Json} {kinds : List Kind}
    (h : names.mapM typeName = .ok kinds) :
    names.filterMap (fun name => name.str?.bind Kind.ofName?) = kinds := by
  induction names generalizing kinds with
  | nil => exact Except.ok.inj h
  | cons name names ih =>
    rw [List.mapM_cons] at h
    obtain ⟨kind, hkind, h⟩ := bind_eq_ok.1 h
    obtain ⟨kinds', hkinds, h⟩ := bind_eq_ok.1 h
    obtain rfl := Except.ok.inj h
    rw [typeName] at hkind
    split at hkind
    · rename_i found hfound
      obtain rfl := Except.ok.inj hkind
      rw [List.filterMap_cons, ih hkinds]
      simp only [hfound]
    · cases hkind

/-- The kinds that a `type` names when it is checked are those that it admits when it is read. -/
theorem allowed_of_ofType {fields : Fields} {constraint : Option KindSet}
    (h : ofType fields = .ok constraint) :
    constraint = none ∧ Validation.allowedKinds fields = [] ∨
      ∃ set, constraint = some set ∧
        ∀ k : Kind, (Validation.allowedKinds fields).any k.satisfies = set.admits k := by
  unfold ofType at h
  unfold Validation.allowedKinds
  split at h
  · rename_i hnone
    rw [hnone]
    exact .inl ⟨(Except.ok.inj h).symm, rfl⟩
  · rename_i name hname
    obtain ⟨kind, hkind, rfl⟩ := map_eq_ok.1 h
    rw [hname]
    rw [typeName] at hkind
    split at hkind
    · rename_i found hfound
      obtain rfl := Except.ok.inj hkind
      refine .inr ⟨_, rfl, fun k => ?_⟩
      rw [KindSet.admits_single]
      simp only [Json.str?, Option.bind_some] at hfound
      simp [hfound]
    · cases hkind
  · rename_i names hnames
    obtain ⟨kinds, hkinds, rfl⟩ := map_eq_ok.1 h
    rw [hnames]
    refine .inr ⟨_, rfl, fun k => ?_⟩
    dsimp only
    rw [filterMap_of_typeNames hkinds, KindSet.admits_ofList]
  · cases h

end Inference

namespace Validation

variable {fields : Fields} {t : KindSet} {data : Json}

/-- A value that the target admits is not blamed for its kind. -/
theorem wrongKind?_eq_none (htarget : Inference.target fields = .ok t)
    (hadmits : t.admits (Kind.ofJson data) = true) : wrongKind? fields data = none := by
  have hsource : Inference.ofType fields ∈ Inference.sources fields (Inference.nestedIn fields) :=
    .head _
  obtain ⟨constraint, hok, hconstraint⟩ := Inference.exists_of_target htarget hsource
  rw [wrongKind?]
  obtain ⟨-, hallowed⟩ | ⟨set, hset, hallowed⟩ := Inference.allowed_of_ofType hok
  · rw [hallowed]
    rfl
  · rw [hallowed, hconstraint set hset _ hadmits]
    simp

theorem allowedKinds_typeKeyword {schema : Fields}
    (h : schema.lookup "type" = some (Attributes.typeKeyword t)) :
    allowedKinds schema = t.toList := by
  obtain ⟨only, honly, htype⟩ | htype := Attributes.typeKeyword_eq t
  · rw [allowedKinds, h, htype, honly]
    simp [Kind.ofName?_name]
  · rw [allowedKinds, h, htype]
    dsimp only
    rw [List.filterMap_map]
    exact (List.filterMap_congr fun k _ => Kind.ofName?_name k).trans List.filterMap_some

/-- A schema with a target for its type blames exactly the kinds that the target does not admit. -/
theorem wrongKind?_typeKeyword {schema : Fields}
    (h : schema.lookup "type" = some (Attributes.typeKeyword t)) (hne : t.toList ≠ []) :
    wrongKind? schema data =
      if t.admits (Kind.ofJson data) then none
      else some (.wrongKind t.toList (Kind.ofJson data)) := by
  have hempty : t.toList.isEmpty = false := by simpa using hne
  rw [wrongKind?, allowedKinds_typeKeyword h, KindSet.any_satisfies, hempty, Bool.false_or]

end Validation

end FormSchema
