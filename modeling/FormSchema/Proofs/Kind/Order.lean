import FormSchema.Proofs.Kind.Admission
import Mathlib.Data.List.Perm.Basic
import Mathlib.Logic.Relation

/-!
Order.  A target depends on what the keywords of a schema hold and not on the order in which the
keywords or the members of their lists stand, at any depth.  Unions and intersections of sets of
kinds come out the same in every order, since a set has one form for what it admits.  Only which of
several mistakes is reported depends on the order.
-/

namespace FormSchema

namespace KindSet

theorem inter_comm (s t : KindSet) : s.inter t = t.inter s :=
  ext_admits fun k => by rw [admits_inter, admits_inter, Bool.and_comm]

theorem inter_right_comm (s t u : KindSet) : (s.inter t).inter u = (s.inter u).inter t :=
  ext_admits fun k => by simp only [admits_inter, Bool.and_right_comm]

theorem union_right_comm (s t u : KindSet) : (s.union t).union u = (s.union u).union t :=
  ext_admits fun k => by simp only [admits_union, Bool.or_right_comm]

theorem ofList_perm {kinds kinds' : List Kind} (h : kinds.Perm kinds') :
    ofList kinds = ofList kinds' :=
  ext_admits fun k => by rw [admits_ofList, admits_ofList, h.any_eq]

end KindSet

theorem Fields.lookup_perm {fields fields' : Fields} (nodup : (fields.map (·.1)).Nodup)
    (h : fields.Perm fields') (key : String) : fields.lookup key = fields'.lookup key := by
  have nodup' : (fields'.map (·.1)).Nodup := (h.map _).nodup_iff.1 nodup
  refine Option.ext fun v => ⟨fun hv => ?_, fun hv => ?_⟩
  · exact Key.lookup_eq_some_of_mem nodup' (h.mem_iff.1 (Key.mem_of_lookup hv))
  · exact Key.lookup_eq_some_of_mem nodup (h.mem_iff.2 (Key.mem_of_lookup hv))

theorem mapM_cons_eq_some {α β : Type} {f : α → Option β} {a : α} {l : List α} {out : List β} :
    (a :: l).mapM f = some out ↔ ∃ b rest, f a = some b ∧ l.mapM f = some rest ∧ b :: rest = out := by
  simp [List.mapM_cons, Option.bind_eq_some_iff]

theorem exists_perm_of_mapM {α β : Type} {f : α → Option β} {l l' : List α} (h : l.Perm l')
    {out : List β} (hout : l.mapM f = some out) : ∃ out', l'.mapM f = some out' ∧ out.Perm out' := by
  induction h generalizing out with
  | nil => exact ⟨out, hout, .rfl⟩
  | cons a h ih =>
    obtain ⟨b, rest, hb, hrest, rfl⟩ := mapM_cons_eq_some.1 hout
    obtain ⟨rest', hrest', perm⟩ := ih hrest
    exact ⟨b :: rest', mapM_cons_eq_some.2 ⟨b, rest', hb, hrest', rfl⟩, perm.cons b⟩
  | swap a a' l =>
    obtain ⟨b', tail, hb', htail, rfl⟩ := mapM_cons_eq_some.1 hout
    obtain ⟨b, rest, hb, hrest, rfl⟩ := mapM_cons_eq_some.1 htail
    refine ⟨b :: b' :: rest, mapM_cons_eq_some.2 ⟨b, b' :: rest, hb, ?_, rfl⟩, .swap ..⟩
    exact mapM_cons_eq_some.2 ⟨b', rest, hb', hrest, rfl⟩
  | trans h h' ih ih' =>
    obtain ⟨middle, hmiddle, perm⟩ := ih hout
    obtain ⟨out', hout', perm'⟩ := ih' hmiddle
    exact ⟨out', hout', perm.trans perm'⟩

/-- What is made of a list's outcomes without regard to their order does not depend on the order of
the list. -/
theorem map_mapM_perm {ε α β γ : Type} {f : α → Except ε β} {g : List β → γ}
    (hg : ∀ out out', out.Perm out' → g out = g out') {l l' : List α} (h : l.Perm l') :
    ((l.mapM f).map g).toOption = ((l'.mapM f).map g).toOption := by
  have forward {l l' : List α} (h : l.Perm l') {c : γ}
      (hc : ((l.mapM f).map g).toOption = some c) : ((l'.mapM f).map g).toOption = some c := by
    rw [toOption_map, toOption_mapM, Option.map_eq_some_iff] at hc ⊢
    obtain ⟨out, hout, rfl⟩ := hc
    obtain ⟨out', hout', perm⟩ := exists_perm_of_mapM h hout
    exact ⟨out', hout', (hg _ _ perm).symm⟩
  exact Option.ext fun c => ⟨forward h, forward h.symm⟩

namespace Inference

variable {fields fields' : Fields}

theorem meet_perm {constraints constraints' : List (Option KindSet)}
    (h : constraints.Perm constraints') : meet constraints = meet constraints' := by
  rw [meet, meet]
  refine h.foldl_eq' (fun x _ y _ acc => ?_) none
  cases x with
  | none => cases acc <;> cases y <;> rfl
  | some set =>
    cases y with
    | none => cases acc <;> rfl
    | some set' =>
      cases acc with
      | none => exact congrArg some (KindSet.inter_comm set set')
      | some acc => exact congrArg some (KindSet.inter_right_comm acc set set')

theorem join_perm {constraints constraints' : List (Option KindSet)}
    (h : constraints.Perm constraints') : join constraints = join constraints' := by
  rw [join, join]
  refine h.foldl_eq' (fun x _ y _ acc => ?_) KindSet.empty
  exact KindSet.union_right_comm ..

/-- One change of order: the keywords of a schema, the members of a list that a target is read from,
or the same in a subschema. -/
inductive Reorders : Fields → Fields → Prop
  | keywords {fields fields' : Fields} (nodup : (fields.map (·.1)).Nodup)
      (perm : fields.Perm fields') : Reorders fields fields'
  | members {fields : Fields} {keyword : String} {items items' : List Json}
      (listing : keyword ∈ ["type", "enum", "allOf", "anyOf", "oneOf"])
      (lookup : fields.lookup keyword = some (.arr items)) (perm : items.Perm items') :
      Reorders fields (fields.set keyword (.arr items'))
  | negated {fields sub sub' : Fields} (lookup : fields.lookup "not" = some (.obj sub))
      (reorders : Reorders sub sub') : Reorders fields (fields.set "not" (.obj sub'))
  | branch {fields sub sub' : Fields} {keyword : String} {before after : List Json}
      (branching : keyword ∈ ["allOf", "anyOf", "oneOf"])
      (lookup : fields.lookup keyword = some (.arr (before ++ .obj sub :: after)))
      (reorders : Reorders sub sub') :
      Reorders fields (fields.set keyword (.arr (before ++ .obj sub' :: after)))

/-- How the value of a keyword changes with the order and with the subschemas in it, if they agree
with the former ones. -/
inductive Alike (keyword : String) : Option Json → Option Json → Prop
  | same (v : Option Json) : Alike keyword v v
  | members {items items' : List Json}
      (listing : keyword ∈ ["type", "enum", "allOf", "anyOf", "oneOf"]) (perm : items.Perm items') :
      Alike keyword (some (.arr items)) (some (.arr items'))
  | negated {v v' : Json} (negation : keyword = "not")
      (agree : (ofSubschema v).toOption = (ofSubschema v').toOption) :
      Alike keyword (some v) (some v')
  | branch {before after : List Json} {v v' : Json}
      (branching : keyword ∈ ["allOf", "anyOf", "oneOf"])
      (agree : (ofSubschema v).toOption = (ofSubschema v').toOption) :
      Alike keyword (some (.arr (before ++ v :: after))) (some (.arr (before ++ v' :: after)))

variable (h : ∀ keyword, Alike keyword (fields.lookup keyword) (fields'.lookup keyword))

include h

theorem has_of_alike (keyword : String) : fields.has keyword = fields'.has keyword := by
  have h := h keyword
  rw [Fields.has, Fields.has]
  generalize fields.lookup keyword = v, fields'.lookup keyword = v' at h
  cases h <;> rfl

theorem ofType_of_alike : (ofType fields).toOption = (ofType fields').toOption := by
  have h := h "type"
  rw [ofType, ofType]
  generalize fields.lookup "type" = v, fields'.lookup "type" = v' at h
  cases h with
  | same => rfl
  | members _ perm =>
    exact map_mapM_perm (fun _ _ perm => congrArg some (KindSet.ofList_perm perm)) perm
  | negated negation _ => exact absurd negation (by decide)
  | branch branching _ => exact absurd branching (by decide)

theorem ofConst_of_alike : ofConst fields = ofConst fields' := by
  have h := h "const"
  rw [ofConst, ofConst]
  generalize fields.lookup "const" = v, fields'.lookup "const" = v' at h
  cases h with
  | same => rfl
  | members listing _ => exact absurd listing (by decide)
  | negated negation _ => exact absurd negation (by decide)
  | branch branching _ => exact absurd branching (by decide)

theorem ofEnum_of_alike : ofEnum fields = ofEnum fields' := by
  have h := h "enum"
  rw [ofEnum, ofEnum]
  generalize fields.lookup "enum" = v, fields'.lookup "enum" = v' at h
  cases h with
  | same => rfl
  | members _ perm =>
    exact congrArg (fun set => Except.ok (some set)) (KindSet.ofList_perm (perm.map _))
  | negated negation _ => exact absurd negation (by decide)
  | branch branching _ => exact absurd branching (by decide)

theorem ofFamily_of_alike (kind : Kind) (keywords : List String) :
    ofFamily fields kind keywords = ofFamily fields' kind keywords := by
  rw [ofFamily, ofFamily, funext (has_of_alike h)]

theorem ofNot_of_alike :
    (ofNot (nestedIn fields)).toOption = (ofNot (nestedIn fields')).toOption := by
  have h := h "not"
  rw [ofNot_nestedIn, ofNot_nestedIn]
  generalize fields.lookup "not" = v, fields'.lookup "not" = v' at h
  cases h with
  | same => rfl
  | members listing _ => exact absurd listing (by decide)
  | negated _ agree =>
    dsimp only
    rw [toOption_map, toOption_map, agree]
  | branch branching _ => exact absurd branching (by decide)

/-- What is made of the branches of a keyword without regard to their order. -/
theorem branches_of_alike {f : Option (List (Option KindSet)) → Option KindSet}
    (hf : ∀ constraints constraints', constraints.Perm constraints' →
      f (some constraints) = f (some constraints')) {keyword : String} (hkeyword : keyword ≠ "not") :
    ((branches fields (nestedIn fields) keyword).map f).toOption =
      ((branches fields' (nestedIn fields') keyword).map f).toOption := by
  have read (x : Except InvalidKeyword (List (Option KindSet))) :
      (x.map some).map f = x.map (f ∘ some) := by
    cases x <;> rfl
  have h := h keyword
  rw [branches_nestedIn, branches_nestedIn]
  generalize fields.lookup keyword = v, fields'.lookup keyword = v' at h
  cases h with
  | same => rfl
  | members _ perm =>
    dsimp only
    rw [read, read]
    exact map_mapM_perm hf perm
  | negated negation _ => exact absurd negation hkeyword
  | branch _ agree =>
    dsimp only
    rw [read, read, toOption_map, toOption_map, toOption_mapM, toOption_mapM, List.mapM_append,
      List.mapM_append, List.mapM_cons, List.mapM_cons, agree]

theorem ofAllOf_of_alike : (ofAllOf fields (nestedIn fields)).toOption =
    (ofAllOf fields' (nestedIn fields')).toOption :=
  branches_of_alike h (fun _ _ perm => meet_perm perm) (by decide)

theorem ofAnyOf_of_alike {keyword : String} (hkeyword : keyword ≠ "not") :
    (ofAnyOf fields (nestedIn fields) keyword).toOption =
      (ofAnyOf fields' (nestedIn fields') keyword).toOption :=
  branches_of_alike h (fun _ _ perm => congrArg some (join_perm perm)) hkeyword

/-- Schemas whose keywords are alike have the same target or both have none. -/
theorem target_of_alike : (target fields).toOption = (target fields').toOption := by
  have hsources : (sources fields (nestedIn fields)).map Except.toOption =
      (sources fields' (nestedIn fields')).map Except.toOption := by
    simp only [sources, List.map_append, List.map_cons, List.map_nil, ofType_of_alike h,
      ofConst_of_alike h, ofEnum_of_alike h, ofFamily_of_alike h, ofNot_of_alike h,
      ofAllOf_of_alike h, ofAnyOf_of_alike h (by decide : "anyOf" ≠ "not"),
      ofAnyOf_of_alike h (by decide : "oneOf" ≠ "not")]
  have read (fields : Fields) : (target fields).toOption =
      (((sources fields (nestedIn fields)).map Except.toOption).mapM id).map fun constraints =>
        (constraints.filterMap id).foldl .inter .universal := by
    rw [List.mapM_map, Function.id_comp]
    exact (toOption_map _ _).trans (congrArg _ (toOption_mapM id _))
  rw [read, read, hsources]

omit h

theorem alike_set {keyword : String} {v v' : Json} (lookup : fields.lookup keyword = some v)
    (h : Alike keyword (some v) (some v')) (other : String) :
    Alike other (fields.lookup other) ((fields.set keyword v').lookup other) := by
  by_cases hother : other = keyword
  · rw [hother, lookup, Fields.lookup_set_self]
    exact h
  · rw [Fields.lookup_set_ne hother]
    exact .same _

theorem ofSubschema_of_target {sub sub' : Fields}
    (h : (target sub).toOption = (target sub').toOption) :
    (ofSubschema (.obj sub)).toOption = (ofSubschema (.obj sub')).toOption := by
  rw [ofSubschema_obj, ofSubschema_obj, toOption_map, toOption_map, h]

/-- A change of order leaves the target. -/
theorem target_of_reorders (h : Reorders fields fields') :
    (target fields).toOption = (target fields').toOption := by
  induction h with
  | keywords nodup perm =>
    refine target_of_alike fun keyword => ?_
    rw [Fields.lookup_perm nodup perm]
    exact .same _
  | members listing lookup perm => exact target_of_alike (alike_set lookup (.members listing perm))
  | negated lookup _ ih =>
    exact target_of_alike (alike_set lookup (.negated rfl (ofSubschema_of_target ih)))
  | branch branching lookup _ ih =>
    exact target_of_alike (alike_set lookup (.branch branching (ofSubschema_of_target ih)))

/-- Two schemas that differ in the order of keywords and of members of lists only, however deep,
have the same target or both have none; so they have the same base type or lack one for the same
reason. -/
theorem target_eq_ok_iff_of_reordered (h : Relation.ReflTransGen Reorders fields fields') :
    (∀ t, target fields = .ok t ↔ target fields' = .ok t) ∧
      ∀ picked, (∃ t, target fields = .ok t ∧ baseType t = picked) ↔
        ∃ t, target fields' = .ok t ∧ baseType t = picked := by
  have agree : (target fields).toOption = (target fields').toOption := by
    induction h with
    | refl => rfl
    | tail _ step ih => exact ih.trans (target_of_reorders step)
  have hiff (t : KindSet) : target fields = .ok t ↔ target fields' = .ok t := by
    rw [← toOption_eq_some, ← toOption_eq_some, agree]
  exact ⟨hiff, fun picked => exists_congr fun t => and_congr_left fun _ => hiff t⟩

/-- `exclusion` with the last keyword in front and the branches under `not` the other way round. -/
def turned : Fields :=
  [("oneOf", .arr [.bool true, .obj [("not", .bool true)]]),
    ("type", .arr [.str "number", .str "string", .str "null"]),
    ("not", .obj [("anyOf", .arr [.obj [("minLength", .num (.int 1))],
      .obj [("type", .str "integer")]])])]

theorem target_eq_ok_iff_of_reordered_turned :
    Relation.ReflTransGen Reorders exclusion turned ∧
      target turned = .ok (.ofList [.null, .number]) := by
  have inner : Reorders [("anyOf", .arr [.obj [("type", .str "integer")],
      .obj [("minLength", .num (.int 1))]])] [("anyOf", .arr [.obj [("minLength", .num (.int 1))],
        .obj [("type", .str "integer")]])] :=
    .members (by decide : "anyOf" ∈ _) rfl (.swap ..)
  have rotated : (turned.tail ++ turned.take 1).Perm turned := List.perm_append_comm
  have h : Relation.ReflTransGen Reorders exclusion turned :=
    (Relation.ReflTransGen.single (.negated rfl inner)).tail (.keywords (by decide) rotated)
  exact ⟨h, ((target_eq_ok_iff_of_reordered h).1 _).1 rfl⟩

end Inference

end FormSchema
