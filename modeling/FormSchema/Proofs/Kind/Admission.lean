import FormSchema.Json.Size
import FormSchema.Proofs.Schema.Target

/-!
What a target stands for.  Whether a schema admits a kind is said here by recursion on the schema,
keyword by keyword and without sets of kinds; the target of a schema, if it has one, admits the
kinds that the schema admits.  A source that is silent and one that lists every kind say the same,
and so do sets that have `number` with and without `integer`: what they admit is all that counts.
-/

namespace FormSchema

namespace KindSet

theorem admits_union (s t : KindSet) (k : Kind) :
    (s.union t).admits k = (s.admits k || t.admits k) := by
  have hnumber (s : KindSet) : s.has .number = s.number := rfl
  rw [union, admits_ofTest, admits, admits, hnumber, hnumber, Bool.and_or_distrib_left]
  ac_rfl

/-- A complement admits what the set does not admit; it admits integers as soon as it admits
numbers. -/
theorem admits_compl (s : KindSet) (k : Kind) :
    s.compl.admits k = !s.admits (if k = .integer then .number else k) := by
  rw [compl, admits_ofTest]
  split
  · rename_i h
    rw [h, Bool.or_eq_right_iff_imp.2, beq_self_eq_true, Bool.true_and]
    cases hnumber : s.admits .number with
    | false => simp
    | true => simp [admits_integer hnumber]
  · rename_i h
    rw [beq_false_of_ne h, Bool.false_and, Bool.or_false]

end KindSet

theorem Kind.name_injective : Function.Injective Kind.name := fun k k' h =>
  Option.some.inj ((ofName?_name k).symm.trans ((congrArg ofName? h).trans (ofName?_name k')))

namespace Inference

variable {fields : Fields} {t : KindSet} {k : Kind}

/-! ## The kinds that a schema admits -/

theorem size_lt_of_branch {keyword : String} {branches : List Json} {branch : Json}
    (h : fields.lookup keyword = some (.arr branches)) (hbranch : branch ∈ branches) :
    branch.size < (Json.obj fields).size := by
  have hbranches := Json.size_le_of_lookup h
  have := Json.size_le_sizeItems hbranch
  simp only [Json.size] at hbranches ⊢
  omega

/-- The names that a `type` lists: a name alone is the only one. -/
def listed : Json → List Json
  | .arr names => names
  | name => [name]

/-- Whether the keywords that hold no schemas admit a kind. -/
structure Plain (fields : Fields) (k : Kind) : Prop where
  type : ∀ type, fields.lookup "type" = some type →
    ∃ kind : Kind, .str kind.name ∈ listed type ∧ k.satisfies kind = true
  const : ∀ value, fields.lookup "const" = some value → k.satisfies (Kind.ofJson value) = true
  enum : ∀ members, fields.lookup "enum" = some (.arr members) →
    ∃ member ∈ members, k.satisfies (Kind.ofJson member) = true
  family : ∀ family ∈ families, ∀ keyword ∈ family.2, fields.has keyword = true →
    k.satisfies family.1 = true

/-- Whether a schema admits the values of a kind.  Integers are numbers, so `not` excludes them
exactly if it excludes numbers. -/
def Admits (schema : Json) (k : Kind) : Prop :=
  match schema with
  | .bool admitted => admitted = true
  | .obj fields =>
    Plain fields k ∧
    (∀ sub, (_ : fields.lookup "not" = some sub) →
      ¬ Admits sub (if k = .integer then .number else k)) ∧
    (∀ branches, (_ : fields.lookup "allOf" = some (.arr branches)) →
      ∀ branch, (_ : branch ∈ branches) → Admits branch k) ∧
    ∀ keyword ∈ ["anyOf", "oneOf"], ∀ branches,
      (_ : fields.lookup keyword = some (.arr branches)) →
        ∃ branch, ∃ _ : branch ∈ branches, Admits branch k
  | _ => False
termination_by schema.size
decreasing_by
  · have := Json.size_le_of_lookup ‹_›
    simp only [Json.size]
    omega
  all_goals exact size_lt_of_branch ‹_› ‹_›

/-! ## What a source leaves -/

theorem typeName_eq_ok {name : Json} {kind : Kind} :
    typeName name = .ok kind ↔ name = .str kind.name := by
  constructor
  · intro h
    rw [typeName] at h
    split at h
    · rename_i found hfound
      obtain rfl := Except.ok.inj h
      obtain ⟨text, htext, hkind⟩ := Option.bind_eq_some_iff.1 hfound
      have hname := List.find?_some hkind
      rw [beq_iff_eq] at hname
      cases name with
      | str s => rw [hname, Option.some.inj htext]
      | _ => cases htext
    · cases h
  · rintro rfl
    rw [typeName, Json.str?, Option.bind_some, Kind.ofName?_name]

theorem nestedOf_whole (v : Json) : (nestedOf v).whole = ofSubschema v := by
  cases v with
  | arr items => rw [nestedOf, ofSubschema] <;> nofun
  | _ => rfl

theorem ofBranches_eq (items : List Json) : ofBranches items = items.map ofSubschema := by
  induction items with
  | nil => simp only [ofBranches, List.map_nil]
  | cons item items ih => rw [ofBranches, ih, List.map_cons]

/-- The branches of a keyword are its items, each taken as a subschema. -/
theorem branches_nestedIn (fields : Fields) (keyword : String) :
    branches fields (nestedIn fields) keyword =
      match fields.lookup keyword with
      | none => .ok none
      | some (.arr items) => (items.mapM ofSubschema).map some
      | some other => .error ⟨keyword, .unexpected .schemas other⟩ := by
  rw [branches, lookup_nestedIn]
  cases fields.lookup keyword with
  | none => rfl
  | some v =>
    cases v with
    | arr items =>
      simp only [Option.map_some, nestedOf, ofBranches_eq, List.mapM_map]
      rfl
    | _ => rfl

theorem ofNot_nestedIn (fields : Fields) :
    ofNot (nestedIn fields) =
      match fields.lookup "not" with
      | none => .ok none
      | some sub => (ofSubschema sub).map fun constraint => some (orUniversal constraint).compl := by
  rw [ofNot, lookup_nestedIn]
  cases fields.lookup "not" with
  | none => rfl
  | some v =>
    dsimp only [Option.map_some]
    rw [nestedOf_whole]

theorem ofSubschema_obj (fields : Fields) :
    ofSubschema (.obj fields) =
      (target fields).map fun t => if t = .universal then none else some t := by
  rw [ofSubschema, target]
  cases targetOf fields (nestedIn fields) <;> rfl

/-- Whether a source lets the values of a kind pass: one that is silent lets all pass. -/
def Lets (source : Constraint) (k : Kind) : Prop :=
  ∃ constraint, source = .ok constraint ∧ (orUniversal constraint).admits k = true

theorem lets_ok {constraint : Option KindSet} :
    Lets (.ok constraint) k ↔ (orUniversal constraint).admits k = true :=
  ⟨fun ⟨_, h, hk⟩ => Except.ok.inj h ▸ hk, fun hk => ⟨_, rfl, hk⟩⟩

theorem lets_silent : Lets (.ok none) k := lets_ok.2 (KindSet.admits_universal k)

theorem lets_ofType (h : ∃ constraint, ofType fields = .ok constraint) :
    Lets (ofType fields) k ↔ ∀ type, fields.lookup "type" = some type →
      ∃ kind : Kind, .str kind.name ∈ listed type ∧ k.satisfies kind = true := by
  obtain ⟨constraint, h⟩ := h
  rw [h, lets_ok]
  rw [ofType] at h
  split at h
  · rename_i hnone
    obtain rfl := Except.ok.inj h
    simp [hnone, orUniversal]
  · rename_i name hname
    obtain ⟨kind, hkind, rfl⟩ := map_eq_ok.1 h
    obtain rfl := Json.str.inj (typeName_eq_ok.1 hkind)
    rw [hname, orUniversal, Function.comp_apply, Option.getD_some, KindSet.admits_single]
    constructor
    · intro hk type htype
      obtain rfl := Option.some.inj htype
      exact ⟨kind, List.mem_singleton_self _, hk⟩
    · intro h
      obtain ⟨other, hother, hk⟩ := h _ rfl
      rwa [← Kind.name_injective (Json.str.inj (List.mem_singleton.1 hother))]
  · rename_i names hnames
    obtain ⟨kinds, hkinds, rfl⟩ := map_eq_ok.1 h
    have hmem (kind : Kind) : kind ∈ kinds ↔ .str kind.name ∈ names := by
      simp [mem_of_mapM hkinds, typeName_eq_ok]
    simp [hnames, orUniversal, KindSet.admits_ofList, listed, hmem]
  · cases h

theorem lets_ofConst : Lets (ofConst fields) k ↔ ∀ value, fields.lookup "const" = some value →
    k.satisfies (Kind.ofJson value) = true := by
  rw [ofConst, lets_ok]
  cases fields.lookup "const" with
  | none => simp [orUniversal]
  | some value => simp [orUniversal, KindSet.admits_single]

theorem lets_ofEnum (h : ∃ constraint, ofEnum fields = .ok constraint) :
    Lets (ofEnum fields) k ↔ ∀ members, fields.lookup "enum" = some (.arr members) →
      ∃ member ∈ members, k.satisfies (Kind.ofJson member) = true := by
  obtain ⟨constraint, h⟩ := h
  rw [h, lets_ok]
  rw [ofEnum] at h
  split at h
  · rename_i hnone
    obtain rfl := Except.ok.inj h
    simp [hnone, orUniversal]
  · rename_i members hmembers
    obtain rfl := Except.ok.inj h
    simp [hmembers, orUniversal, KindSet.admits_ofList]
  · cases h

theorem lets_ofFamily (kind : Kind) (keywords : List String) :
    Lets (ofFamily fields kind keywords) k ↔
      ∀ keyword ∈ keywords, fields.has keyword = true → k.satisfies kind = true := by
  rw [ofFamily, lets_ok]
  split
  · rename_i h
    obtain ⟨keyword, hkeyword, hhas⟩ := List.any_eq_true.1 h
    rw [orUniversal, Option.getD_some, KindSet.admits_single]
    exact ⟨fun hk _ _ _ => hk, fun hk => hk keyword hkeyword hhas⟩
  · rename_i h
    simp only [List.any_eq_true, not_exists, not_and] at h
    exact ⟨fun _ keyword hkeyword hhas => absurd hhas (h keyword hkeyword),
      fun _ => KindSet.admits_universal k⟩

theorem lets_ofNot (h : ∃ constraint, ofNot (nestedIn fields) = .ok constraint) :
    Lets (ofNot (nestedIn fields)) k ↔ ∀ sub, fields.lookup "not" = some sub →
      ¬ Lets (ofSubschema sub) (if k = .integer then .number else k) := by
  obtain ⟨constraint, h⟩ := h
  rw [h, lets_ok]
  rw [ofNot_nestedIn] at h
  split at h
  · rename_i hnone
    obtain rfl := Except.ok.inj h
    simp [hnone, orUniversal]
  · rename_i sub hsub
    obtain ⟨nested, hnested, rfl⟩ := map_eq_ok.1 h
    simp [hsub, hnested, lets_ok, orUniversal, KindSet.admits_compl]

/-- What all of a list of constraints admit. -/
theorem admits_meet (constraints : List (Option KindSet)) :
    (orUniversal (meet constraints)).admits k = true ↔
      ∀ constraint ∈ constraints, (orUniversal constraint).admits k = true := by
  rw [meet, foldl_and (fun acc => (orUniversal acc).admits k = true)
    fun constraint => (orUniversal constraint).admits k = true]
  · simp [orUniversal]
  · intro acc constraint
    cases acc <;> cases constraint <;> simp [orUniversal, KindSet.admits_inter]

/-- What one of a list of constraints admits. -/
theorem admits_join (constraints : List (Option KindSet)) :
    (join constraints).admits k = true ↔
      ∃ constraint ∈ constraints, (orUniversal constraint).admits k = true := by
  have fold (acc : KindSet) : (constraints.foldl (fun acc constraint =>
      acc.union (orUniversal constraint)) acc).admits k = true ↔
        acc.admits k = true ∨
          ∃ constraint ∈ constraints, (orUniversal constraint).admits k = true := by
    induction constraints generalizing acc with
    | nil => simp
    | cons constraint constraints ih =>
      rw [List.foldl_cons, ih, KindSet.admits_union, Bool.or_eq_true, List.exists_mem_cons_iff,
        or_assoc]
  rw [join, fold]
  simp

/-- The branches of a keyword that are read are the constraints of its items. -/
theorem exists_of_branches {keyword : String} {found : Option (List (Option KindSet))}
    (h : branches fields (nestedIn fields) keyword = .ok found) :
    fields.lookup keyword = none ∧ found = none ∨
      ∃ items constraints, fields.lookup keyword = some (.arr items) ∧ found = some constraints ∧
        items.mapM ofSubschema = .ok constraints := by
  rw [branches_nestedIn] at h
  split at h
  · rename_i hnone
    exact .inl ⟨hnone, (Except.ok.inj h).symm⟩
  · rename_i items hitems
    obtain ⟨constraints, hconstraints, rfl⟩ := map_eq_ok.1 h
    exact .inr ⟨items, constraints, hitems, rfl, hconstraints⟩
  · cases h

theorem lets_ofAllOf (h : ∃ constraint, ofAllOf fields (nestedIn fields) = .ok constraint) :
    Lets (ofAllOf fields (nestedIn fields)) k ↔
      ∀ branches, fields.lookup "allOf" = some (.arr branches) →
        ∀ branch ∈ branches, Lets (ofSubschema branch) k := by
  obtain ⟨constraint, h⟩ := h
  rw [h, lets_ok]
  obtain ⟨found, hfound, h⟩ := bind_eq_ok.1 h
  obtain rfl := Except.ok.inj h
  obtain ⟨hnone, rfl⟩ | ⟨items, constraints, hitems, rfl, hread⟩ := exists_of_branches hfound
  · simp [hnone, orUniversal]
  · rw [Option.bind_some, admits_meet]
    constructor
    · intro hk branches hbranches branch hbranch
      obtain rfl := Json.arr.inj (Option.some.inj (hitems.symm.trans hbranches))
      obtain ⟨constraint, hconstraint⟩ := exists_of_mapM hread branch hbranch
      exact ⟨constraint, hconstraint, hk _ ((mem_of_mapM hread _).2 ⟨branch, hbranch, hconstraint⟩)⟩
    · intro hk constraint hconstraint
      obtain ⟨branch, hbranch, hok⟩ := (mem_of_mapM hread _).1 hconstraint
      have := hk items hitems branch hbranch
      rwa [hok, lets_ok] at this

theorem lets_ofAnyOf {keyword : String}
    (h : ∃ constraint, ofAnyOf fields (nestedIn fields) keyword = .ok constraint) :
    Lets (ofAnyOf fields (nestedIn fields) keyword) k ↔
      ∀ branches, fields.lookup keyword = some (.arr branches) →
        ∃ branch ∈ branches, Lets (ofSubschema branch) k := by
  obtain ⟨constraint, h⟩ := h
  rw [h, lets_ok]
  obtain ⟨found, hfound, h⟩ := bind_eq_ok.1 h
  obtain rfl := Except.ok.inj h
  obtain ⟨hnone, rfl⟩ | ⟨items, constraints, hitems, rfl, hread⟩ := exists_of_branches hfound
  · simp [hnone, orUniversal]
  · rw [Option.map_some, orUniversal, Option.getD_some, admits_join]
    constructor
    · rintro ⟨constraint, hconstraint, hk⟩ branches hbranches
      obtain rfl := Json.arr.inj (Option.some.inj (hitems.symm.trans hbranches))
      obtain ⟨branch, hbranch, hok⟩ := (mem_of_mapM hread _).1 hconstraint
      exact ⟨branch, hbranch, constraint, hok, hk⟩
    · intro hk
      obtain ⟨branch, hbranch, constraint, hok, hk⟩ := hk items hitems
      exact ⟨constraint, (mem_of_mapM hread _).2 ⟨branch, hbranch, hok⟩, hk⟩

/-! ## What a target admits -/

theorem forall_sources {nested : List (String × Nested)} {P : Constraint → Prop} :
    (∀ source ∈ sources fields nested, P source) ↔
      (P (ofType fields) ∧ P (ofConst fields) ∧ P (ofEnum fields) ∧
        ∀ family ∈ families, P (ofFamily fields family.1 family.2)) ∧
      P (ofNot nested) ∧ P (ofAllOf fields nested) ∧
      ∀ keyword ∈ ["anyOf", "oneOf"], P (ofAnyOf fields nested keyword) := by
  simp only [sources, List.forall_mem_append, List.forall_mem_cons, List.forall_mem_map,
    List.not_mem_nil, false_implies, implies_true, and_true, and_assoc]

theorem exists_of_source (h : target fields = .ok t) :
    ∀ source ∈ sources fields (nestedIn fields), ∃ constraint, source = .ok constraint := by
  obtain ⟨constraints, hconstraints, -⟩ := bind_eq_ok.1 h
  exact exists_of_mapM hconstraints

/-- A target admits what every source lets pass. -/
theorem admits_iff_lets (h : target fields = .ok t) :
    t.admits k = true ↔ ∀ source ∈ sources fields (nestedIn fields), Lets source k := by
  obtain ⟨constraints, hconstraints, ht⟩ := bind_eq_ok.1 h
  obtain rfl := Except.ok.inj ht
  rw [KindSet.admits_foldl_inter]
  constructor
  · intro hk source hsource
    obtain ⟨constraint, hok⟩ := exists_of_source h source hsource
    refine ⟨constraint, hok, ?_⟩
    cases constraint with
    | none => exact KindSet.admits_universal k
    | some set =>
      have hmem := (mem_of_mapM hconstraints _).2 ⟨source, hsource, hok⟩
      exact hk.2 set (List.mem_filterMap.2 ⟨_, hmem, rfl⟩)
  · intro hk
    refine ⟨KindSet.admits_universal k, fun set hset => ?_⟩
    obtain ⟨constraint, hmem, hset⟩ := List.mem_filterMap.1 hset
    obtain rfl : constraint = some set := hset
    obtain ⟨source, hsource, hok⟩ := (mem_of_mapM hconstraints _).1 hmem
    have := hk source hsource
    rwa [show source = .ok (some set) from hok, lets_ok] at this

/-- Every subschema that a target depends on is read. -/
theorem exists_of_nested (h : target fields = .ok t) :
    (∀ sub, fields.lookup "not" = some sub → ∃ constraint, ofSubschema sub = .ok constraint) ∧
      ∀ keyword ∈ ["allOf", "anyOf", "oneOf"], ∀ items,
        fields.lookup keyword = some (.arr items) →
          ∀ item ∈ items, ∃ constraint, ofSubschema item = .ok constraint := by
  obtain ⟨-, ⟨_, hnot⟩, ⟨_, hallOf⟩, hanyOf⟩ := forall_sources.1 (exists_of_source h)
  constructor
  · intro sub hsub
    rw [ofNot_nestedIn, hsub] at hnot
    obtain ⟨constraint, hok, -⟩ := map_eq_ok.1 hnot
    exact ⟨constraint, hok⟩
  · have read (keyword : String) (found : Option (List (Option KindSet)))
        (hfound : branches fields (nestedIn fields) keyword = .ok found) : ∀ items,
        fields.lookup keyword = some (.arr items) →
          ∀ item ∈ items, ∃ constraint, ofSubschema item = .ok constraint := by
      intro items hitems
      rw [branches_nestedIn, hitems] at hfound
      obtain ⟨constraints, hconstraints, -⟩ := map_eq_ok.1 hfound
      exact exists_of_mapM hconstraints
    intro keyword hkeyword
    rcases List.mem_cons.1 hkeyword with rfl | hkeyword
    · obtain ⟨found, hfound, -⟩ := bind_eq_ok.1 hallOf
      exact read _ found hfound
    · obtain ⟨_, hok⟩ := hanyOf keyword hkeyword
      obtain ⟨found, hfound, -⟩ := bind_eq_ok.1 hok
      exact read _ found hfound

/-- A schema admits what its keywords and the subschemas in them admit. -/
theorem admits_target_iff (h : target fields = .ok t) :
    t.admits k = true ↔
      Plain fields k ∧
      (∀ sub, fields.lookup "not" = some sub →
        ¬ Lets (ofSubschema sub) (if k = .integer then .number else k)) ∧
      (∀ branches, fields.lookup "allOf" = some (.arr branches) →
        ∀ branch ∈ branches, Lets (ofSubschema branch) k) ∧
      ∀ keyword ∈ ["anyOf", "oneOf"], ∀ branches, fields.lookup keyword = some (.arr branches) →
        ∃ branch ∈ branches, Lets (ofSubschema branch) k := by
  obtain ⟨⟨htype, -, henum, -⟩, hnot, hallOf, hanyOf⟩ := forall_sources.1 (exists_of_source h)
  have plain : (Lets (ofType fields) k ∧ Lets (ofConst fields) k ∧ Lets (ofEnum fields) k ∧
      ∀ family ∈ families, Lets (ofFamily fields family.1 family.2) k) ↔ Plain fields k := by
    simp only [lets_ofType htype, lets_ofConst, lets_ofEnum henum, lets_ofFamily]
    exact ⟨fun ⟨type, const, enum, family⟩ => ⟨type, const, enum, family⟩,
      fun ⟨type, const, enum, family⟩ => ⟨type, const, enum, family⟩⟩
  rw [admits_iff_lets h, forall_sources, plain, lets_ofNot hnot, lets_ofAllOf hallOf]
  refine and_congr_right fun _ => and_congr_right fun _ => and_congr_right fun _ => ?_
  exact forall₂_congr fun keyword hkeyword => lets_ofAnyOf (hanyOf keyword hkeyword)

theorem lets_obj (h : target fields = .ok t) :
    Lets (ofSubschema (.obj fields)) k ↔ t.admits k = true := by
  rw [ofSubschema_obj, h, Except.map, lets_ok]
  split
  · rename_i htop
    rw [htop]
    rfl
  · rfl

/-- A subschema that is read lets the kinds pass that it admits. -/
theorem lets_ofSubschema {schema : Json} (h : ∃ constraint, ofSubschema schema = .ok constraint) :
    Lets (ofSubschema schema) k ↔ Admits schema k := by
  induction schema, k using Admits.induct with
  | case1 k admitted =>
    rw [Admits]
    cases admitted with
    | true => exact iff_of_true lets_silent rfl
    | false => simp [ofSubschema, lets_ok, orUniversal]
  | case2 k fields not allOf anyOf =>
    obtain ⟨constraint, h⟩ := h
    rw [ofSubschema_obj] at h
    obtain ⟨t, ht, -⟩ := map_eq_ok.1 h
    obtain ⟨hnot, hbranches⟩ := exists_of_nested ht
    rw [lets_obj ht, admits_target_iff ht, Admits]
    refine and_congr_right fun _ => and_congr ?_ (and_congr ?_ ?_)
    · exact forall₂_congr fun sub hsub => not_congr (not sub hsub (hnot sub hsub))
    · refine forall₂_congr fun items hitems => forall₂_congr fun branch hbranch => ?_
      exact allOf items hitems branch hbranch
        (hbranches "allOf" (by decide) items hitems branch hbranch)
    · refine forall₂_congr fun keyword hkeyword => forall₂_congr fun items hitems => ?_
      refine exists_congr fun branch => ?_
      rw [exists_prop]
      refine and_congr_right fun hbranch => anyOf keyword items hitems branch hbranch ?_
      exact hbranches keyword (List.mem_cons_of_mem _ hkeyword) items hitems branch hbranch
  | case3 schema k hbool hobj =>
    obtain ⟨constraint, h⟩ := h
    cases schema with
    | bool b => exact absurd rfl (hbool b)
    | obj fields => exact absurd rfl (hobj fields)
    | _ => cases h

/-- A value satisfies a member of the target of a schema if and only if the schema admits its
kind. -/
theorem satisfies_target_iff_admits (h : target fields = .ok t) (k : Kind) :
    (∃ kind ∈ t.toList, k.satisfies kind = true) ↔ Admits (.obj fields) k := by
  rw [← List.any_eq_true, KindSet.any_satisfies, ← lets_obj h]
  refine lets_ofSubschema ?_
  rw [ofSubschema_obj, h]
  exact ⟨_, rfl⟩

/-- Numbers, texts and null; the kinds of integers and of texts are excluded. -/
def exclusion : Fields :=
  [("type", .arr [.str "number", .str "string", .str "null"]),
    ("not", .obj [("anyOf", .arr [.obj [("type", .str "integer")],
      .obj [("minLength", .num (.int 1))]])]),
    ("oneOf", .arr [.bool true, .obj [("not", .bool true)]])]

/-- Texts are not admitted.  Integers still are, since the other numbers have no kind of their own. -/
theorem satisfies_target_iff_admits_exclusion :
    target exclusion = .ok (.ofList [.null, .number]) ∧
      Admits (.obj exclusion) .integer ∧ ¬ Admits (.obj exclusion) .string := by
  have h : target exclusion = .ok (.ofList [.null, .number]) := by rfl
  have admits := satisfies_target_iff_admits h
  exact ⟨h, (admits .integer).1 (by decide), mt (admits .string).2 (by decide)⟩

end Inference

end FormSchema
