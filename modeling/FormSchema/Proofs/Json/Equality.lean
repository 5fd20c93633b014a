import FormSchema.Expr.Coercion
import FormSchema.Proofs.Json.Path
import FormSchema.Proofs.Number.Rounding

/-!
Equality of values.  Two values are the same value if they have the same parts at all places, where
numbers count by their mathematical values.  Strict equality finds that out, except that it takes two
numbers as doubles, and that it tells integers from doubles within arrays and objects.
-/

namespace FormSchema

namespace Number

variable {a b : Number}

/-- The value of a number; doubles that are not finite have none. -/
def value? : Number → Option ℚ
  | .int n => some n
  | .float x => (Binary64.ofFloat? x).map Binary64.toRat

/-- The value that is left of a number as a double. -/
def rounded? : Number → Option ℚ
  | .int n => some (roundInt n : ℚ)
  | .float x => (Number.float x).value?

def isInt : Number → Bool
  | .int _ => true
  | .float _ => false

/-- Whether a number is one that values hold: an integer of 64 bits, with or without a sign, or a finite
double. -/
def IsProper : Number → Prop
  | .int n => -2 ^ 63 ≤ n ∧ n < 2 ^ 64
  | .float x => isFinite x = true

theorem IsProper.exists_toFloat (h : a.IsProper) :
    ∃ b, Binary64.ofFloat? a.toFloat = some b ∧ a.rounded? = some b.toRat := by
  cases a with
  | int n =>
    obtain ⟨hlower, hupper⟩ := h
    obtain ⟨b, hb, hvalue⟩ := exists_ofInt (n := n) (by omega)
    exact ⟨b, hb, congrArg some hvalue.symm⟩
  | float x =>
    obtain ⟨b, hb⟩ := Option.isSome_iff_exists.1 h
    exact ⟨b, hb, by rw [rounded?, value?, hb]; rfl⟩

theorem toFloat_beq_iff (ha : a.IsProper) (hb : b.IsProper) :
    (a.toFloat == b.toFloat) = true ↔ a.rounded? = b.rounded? := by
  obtain ⟨x, hx, hvalue⟩ := ha.exists_toFloat
  obtain ⟨y, hy, hvalue'⟩ := hb.exists_toFloat
  rw [Binary64.beq_iff_toRat_eq hx hy, hvalue, hvalue', Option.some_inj]

/-- Numbers of one value are the same doubles. -/
theorem rounded?_congr (ha : a.IsProper) (hb : b.IsProper) (h : a.value? = b.value?) :
    a.rounded? = b.rounded? := by
  have hmixed {n : Int} {x : Float} (hx : (Number.float x).IsProper)
      (h : (Number.int n).value? = (Number.float x).value?) :
      (Number.int n).rounded? = (Number.float x).rounded? := by
    obtain ⟨b, hb⟩ := Option.isSome_iff_exists.1 hx
    have hvalue : (Number.float x).value? = some b.toRat := congrArg (Option.map Binary64.toRat) hb
    rw [hvalue] at h
    have hround := roundInt_of_toRat (Binary64.isCanonical_of_ofFloat? hb) (Option.some.inj h).symm
    rw [rounded?, rounded?, hround, ← h.trans hvalue.symm]
    rfl
  cases a with
  | int m =>
    cases b with
    | int n => rw [Int.cast_inj.1 (Option.some.inj h)]
    | float y => exact hmixed hb h
  | float x =>
    cases b with
    | int n => exact (hmixed ha h.symm).symm
    | float y => exact h

/-- Numbers are equal as they are stored if they have the same value and none is a double for the
other's integer. -/
theorem same_iff (ha : a.IsProper) (hb : b.IsProper) :
    a.same b = true ↔ a.value? = b.value? ∧ a.isInt = b.isInt := by
  cases a with
  | int m =>
    cases b with
    | int n => simp [same, value?, isInt]
    | float y => simp [same, isInt]
  | float x =>
    cases b with
    | int n => simp [same, isInt]
    | float y =>
      rw [same]
      exact (toFloat_beq_iff (a := .float x) (b := .float y) ha hb).trans (and_iff_left rfl).symm

end Number

namespace Json

variable {a b v : Json}

/-- What a value is apart from its parts. -/
inductive Face where
  | null
  | bool (value : Bool)
  | num (value : Option ℚ)
  | str (value : String)
  | arr
  | obj

def face : Json → Face
  | .null => .null
  | .bool b => .bool b
  | .num n => .num n.value?
  | .str s => .str s
  | .arr _ => .arr
  | .obj _ => .obj

/-- Whether two values are the same value: at every place both have a part of the same kind and the
same value, or both have none. -/
def Agree (a b : Json) : Prop := ∀ path, (a.at? path).map face = (b.at? path).map face

/-- Whether a value is one that text yields: each key of an object stands once, and the numbers are
integers of 64 bits and finite doubles. -/
structure IsProper (v : Json) : Prop where
  keys : v.keysDistinct = true
  numbers : ∀ path n, v.at? path = some (.num n) → n.IsProper

/-- Whether no integer in one value meets a double of its value in the other. -/
def Aligned (a b : Json) : Prop :=
  ∀ path m n, a.at? path = some (.num m) → b.at? path = some (.num n) →
    m.value? = n.value? → m.isInt = n.isInt

theorem IsProper.of_parts (hkeys : (v.children.map (·.1)).Nodup) (hnum : ∀ n, v = .num n → n.IsProper)
    (hparts : ∀ part ∈ v.children, part.2.IsProper) : v.IsProper where
  keys := keysDistinct_iff.2 ⟨hkeys, fun part hpart => (hparts part hpart).keys⟩
  numbers path n hn := by
    cases path with
    | nil => exact hnum n (Option.some.inj hn)
    | cons key path =>
      rw [at?_cons] at hn
      obtain ⟨part, hpart, hn⟩ := Option.bind_eq_some_iff.1 hn
      exact (hparts _ (Key.mem_of_lookup hpart)).numbers path n hn

theorem IsProper.get? {key : Key} {part : Json} (h : v.IsProper) (hpart : v.get? key = some part) :
    part.IsProper where
  keys := (keysDistinct_iff.1 h.keys).2 _ (Key.mem_of_lookup hpart)
  numbers path n hn := h.numbers (key :: path) n (by rw [at?_cons, hpart]; exact hn)

theorem isProper_num_iff {n : Number} : IsProper (.num n) ↔ n.IsProper :=
  ⟨fun h => h.numbers [] n rfl, fun h => .of_parts List.nodup_nil (fun _ hn => Json.num.inj hn ▸ h)
    (fun _ hpart => absurd hpart List.not_mem_nil)⟩

theorem aligned_iff : a.Aligned b ↔
    (∀ m n, a = .num m → b = .num n → m.value? = n.value? → m.isInt = n.isInt) ∧
      ∀ key v w, a.get? key = some v → b.get? key = some w → v.Aligned w := by
  constructor
  · refine fun h => ⟨fun m n hm hn => h [] m n (congrArg some hm) (congrArg some hn),
      fun key v w hv hw path m n hm hn => h (key :: path) m n ?_ ?_⟩
    · rw [at?_cons, hv]
      exact hm
    · rw [at?_cons, hw]
      exact hn
  · rintro ⟨hself, hparts⟩ (_ | ⟨key, path⟩) m n hm hn
    · exact hself m n (Option.some.inj hm) (Option.some.inj hn)
    · rw [at?_cons] at hm hn
      obtain ⟨v, hv, hm⟩ := Option.bind_eq_some_iff.1 hm
      obtain ⟨w, hw, hn⟩ := Option.bind_eq_some_iff.1 hn
      exact hparts key v w hv hw path m n hm hn

/-- Two values agree if they do apart from their parts, and in each part. -/
theorem agree_iff : a.Agree b ↔
    a.face = b.face ∧ ∀ key, Option.Rel Agree (a.get? key) (b.get? key) := by
  constructor
  · intro h
    refine ⟨Option.some.inj (h []), fun key => ?_⟩
    have hkey (path : List Key) := h (key :: path)
    simp only [at?_cons] at hkey
    cases ha : a.get? key with
    | none =>
      cases hb : b.get? key with
      | none => exact .none
      | some w =>
        rw [ha, hb] at hkey
        cases hkey []
    | some v =>
      rw [ha] at hkey
      cases hb : b.get? key with
      | none =>
        rw [hb] at hkey
        cases hkey []
      | some w =>
        rw [hb] at hkey
        exact .some hkey
  · rintro ⟨hface, hparts⟩ path
    cases path with
    | nil => exact congrArg some hface
    | cons key path =>
      have hpart := hparts key
      rw [at?_cons, at?_cons]
      generalize a.get? key = v at hpart ⊢
      generalize b.get? key = w at hpart ⊢
      cases hpart with
      | some h => exact h path
      | none => rfl

theorem sameItems_iff {as bs : List Json} (start : Nat) : sameItems as bs = true ↔
    ∀ key, Option.Rel (fun v w => v.same w = true) ((Key.ofItems start as).lookup key)
      ((Key.ofItems start bs).lookup key) := by
  induction as generalizing bs start with
  | nil =>
    cases bs with
    | nil => exact iff_of_true rfl fun key => .none
    | cons b bs =>
      refine iff_of_false Bool.false_ne_true fun h => ?_
      have := h (.index start)
      rw [Key.ofItems_cons, List.lookup_cons_self] at this
      cases this
  | cons a as ih =>
    cases bs with
    | nil =>
      refine iff_of_false Bool.false_ne_true fun h => ?_
      have := h (.index start)
      rw [Key.ofItems_cons, List.lookup_cons_self] at this
      cases this
    | cons b bs =>
      have hfresh (items : List Json) : (Key.ofItems (start + 1) items).lookup (.index start) = none := by
        rw [Key.lookup_ofItems, if_neg (by omega)]
      rw [sameItems, Bool.and_eq_true, ih (start + 1), Key.ofItems_cons, Key.ofItems_cons]
      constructor
      · rintro ⟨hfirst, hrest⟩ key
        by_cases hkey : key = .index start
        · subst hkey
          rw [List.lookup_cons_self, List.lookup_cons_self]
          exact .some hfirst
        · rw [List.lookup_cons, List.lookup_cons, beq_false_of_ne hkey]
          exact hrest key
      · intro h
        refine ⟨?_, fun key => ?_⟩
        · have := h (.index start)
          rw [List.lookup_cons_self, List.lookup_cons_self] at this
          cases this with
          | some hfirst => exact hfirst
        · by_cases hkey : key = .index start
          · subst hkey
            rw [hfresh, hfresh]
            exact .none
          · have := h key
            rwa [List.lookup_cons, List.lookup_cons, beq_false_of_ne hkey] at this

theorem sameFields_iff {as bs : Fields} : sameFields as bs = true ↔
    ∀ field ∈ as, ∃ v, bs.lookup field.1 = some v ∧ field.2.same v = true := by
  induction as with
  | nil => simp [sameFields]
  | cons field as ih =>
    obtain ⟨key, a⟩ := field
    rw [sameFields, Bool.and_eq_true, ih, List.forall_mem_cons]
    refine and_congr_left fun _ => ?_
    cases bs.lookup key <;> simp

theorem mem_keys_iff {fields : Fields} {key : String} :
    key ∈ fields.map (·.1) ↔ (fields.lookup key).isSome = true := by
  simp [List.lookup_isSome_iff]

/-- Objects have the same fields if one has those of the other and as many. -/
theorem same_obj_iff {as bs : Fields} (ha : (as.map (·.1)).Nodup) (hb : (bs.map (·.1)).Nodup) :
    (as.length == bs.length && sameFields as bs) = true ↔
      ∀ key, Option.Rel (fun v w => v.same w = true) (as.lookup key) (bs.lookup key) := by
  rw [Bool.and_eq_true, beq_iff_eq, sameFields_iff]
  constructor
  · rintro ⟨hlength, h⟩ key
    cases hv : as.lookup key with
    | some v =>
      obtain ⟨w, hw, hsame⟩ := h _ (mem_of_lookup hv)
      rw [hw]
      exact .some hsame
    | none =>
      cases hw : bs.lookup key with
      | none => exact .none
      | some w =>
        -- The keys of the first are keys of the second, which has no room for others.
        have hsub : as.map (·.1) ⊆ bs.map (·.1) := by
          intro k hk
          obtain ⟨field, hfield, rfl⟩ := List.mem_map.1 hk
          obtain ⟨v, hv, -⟩ := h field hfield
          exact mem_keys_iff.2 (by rw [hv]; rfl)
        have hperm := (ha.subperm hsub).perm_of_length_le (by simp [hlength])
        have hmem := mem_keys_iff.1 (hperm.mem_iff.2 (mem_keys_iff.2 (by rw [hw]; rfl)))
        rw [hv] at hmem
        cases hmem
  · intro h
    have hmem (key : String) : key ∈ as.map (·.1) ↔ key ∈ bs.map (·.1) := by
      rw [mem_keys_iff, mem_keys_iff]
      have hkey := h key
      generalize as.lookup key = v at hkey ⊢
      generalize bs.lookup key = w at hkey ⊢
      cases hkey <;> rfl
    have hlength := ((List.perm_ext_iff_of_nodup ha hb).2 hmem).length_eq
    rw [List.length_map, List.length_map] at hlength
    refine ⟨hlength, fun field hfield => ?_⟩
    have hkey := h field.1
    rw [Key.lookup_eq_some_of_mem ha hfield] at hkey
    generalize bs.lookup field.1 = w at hkey ⊢
    cases hkey with
    | some hsame => exact ⟨_, rfl, hsame⟩

/-- Two values are equal as they are stored if they are apart from their parts, and in each part. -/
theorem same_step (ha : a.IsProper) (hb : b.IsProper) : a.same b = true ↔
    a.face = b.face ∧
      (∀ m n, a = .num m → b = .num n → m.value? = n.value? → m.isInt = n.isInt) ∧
      ∀ key, Option.Rel (fun v w => v.same w = true) (a.get? key) (b.get? key) := by
  cases a with
  | arr as =>
    cases b with
    | arr bs =>
      rw [same, sameItems_iff 0]
      exact ⟨fun h => ⟨rfl, nofun, h⟩, fun h => h.2.2⟩
    | _ => simp [same, face]
  | obj as =>
    cases b with
    | obj bs =>
      have hkeys := (Bool.and_eq_true _ _ ▸ ha.keys).1
      have hkeys' := (Bool.and_eq_true _ _ ▸ hb.keys).1
      rw [same, same_obj_iff (of_decide_eq_true hkeys) (of_decide_eq_true hkeys')]
      refine ⟨fun hfields => ⟨rfl, nofun, fun key => ?_⟩, fun h key => ?_⟩
      · cases key with
        | index i => simp [get?, children, Key.lookup_index_ofFields]
        | name key =>
          rw [get?, get?, children, children, Key.lookup_ofFields, Key.lookup_ofFields]
          exact hfields key
      · have hpart := h.2.2 (.name key)
        rwa [get?, get?, children, children, Key.lookup_ofFields, Key.lookup_ofFields] at hpart
    | _ => simp [same, face]
  | num m =>
    cases b with
    | num n =>
      rw [same, Number.same_iff (ha.numbers [] m rfl) (hb.numbers [] n rfl)]
      simp +contextual [face, get?, children]
    | _ => simp [same, face]
  | null => cases b <;> simp [same, face, get?, children]
  | bool x => cases b <;> simp [same, face, get?, children]
  | str x => cases b <;> simp [same, face, get?, children]

theorem rel_and_iff {r s : Json → Json → Prop} {x y : Option Json} :
    Option.Rel (fun v w => r v w ∧ s v w) x y ↔
      Option.Rel r x y ∧ ∀ v w, x = some v → y = some w → s v w := by
  cases x <;> cases y <;> simp

/-- Values that text yields are equal as they are stored if they are the same value and no integer
meets a double. -/
theorem same_iff (ha : a.IsProper) (hb : b.IsProper) :
    a.same b = true ↔ a.Agree b ∧ a.Aligned b := by
  induction a using induct generalizing b with
  | step a ih =>
    have hparts (key : Key) :
        Option.Rel (fun v w => v.same w = true) (a.get? key) (b.get? key) ↔
          Option.Rel (fun v w => v.Agree w ∧ v.Aligned w) (a.get? key) (b.get? key) := by
      cases hv : a.get? key with
      | none => cases b.get? key <;> simp
      | some v =>
        cases hw : b.get? key with
        | none => simp
        | some w =>
          rw [Option.rel_some_some, Option.rel_some_some]
          exact ih _ (Key.mem_of_lookup hv) (ha.get? hv) (hb.get? hw)
    rw [same_step ha hb, agree_iff, aligned_iff]
    simp only [hparts, rel_and_iff, forall_and]
    exact ⟨fun ⟨hface, hself, hagree, haligned⟩ => ⟨⟨hface, hagree⟩, hself, haligned⟩,
      fun ⟨⟨hface, hagree⟩, hself, haligned⟩ => ⟨hface, hself, hagree, haligned⟩⟩

/-- Whether two values are numbers of which the same is left as doubles. -/
def EqualRounded (a b : Json) : Prop :=
  ∃ m n, a = .num m ∧ b = .num n ∧ m.rounded? = n.rounded?

/-- Two values that are strictly equal are the same value, or numbers of which the same is left as
doubles.  Such numbers are strictly equal, and so are two that are the same value if no integer among
the parts of one meets a double among those of the other. -/
theorem strictEq_iff_agree (ha : a.IsProper) (hb : b.IsProper) :
    (a.strictEq b = true → a.Agree b ∨ a.EqualRounded b) ∧
    (a.EqualRounded b → a.strictEq b = true) ∧
    (a.Agree b → (∀ key v w, a.get? key = some v → b.get? key = some w → v.Aligned w) →
      a.strictEq b = true) := by
  by_cases hnum : ∃ m n, a = .num m ∧ b = .num n
  · obtain ⟨m, n, rfl, rfl⟩ := hnum
    have hm := ha.numbers [] m rfl
    have hn := hb.numbers [] n rfl
    rw [strictEq, Number.toFloat_beq_iff hm hn]
    refine ⟨fun h => .inr ⟨m, n, rfl, rfl, h⟩, ?_, fun h _ => ?_⟩
    · rintro ⟨m', n', hm', hn', h⟩
      obtain rfl := Json.num.inj hm'
      obtain rfl := Json.num.inj hn'
      exact h
    · exact Number.rounded?_congr hm hn (Face.num.inj (Option.some.inj (h [])))
  · have hsame : a.strictEq b = a.same b := by
      rw [strictEq]
      exact fun m n ha hb => hnum ⟨m, n, ha, hb⟩
    rw [hsame, same_iff ha hb]
    refine ⟨fun h => .inl h.1, fun ⟨m, n, ha, hb, _⟩ => absurd ⟨m, n, ha, hb⟩ hnum,
      fun h hparts => ⟨h, aligned_iff.2 ⟨fun m n ha hb => absurd ⟨m, n, ha, hb⟩ hnum, hparts⟩⟩⟩

theorem agree_reordered :
    Agree (.obj [("a", .num (.int 1)), ("b", .num (.int 2))])
      (.obj [("b", .num (.int 2)), ("a", .num (.int 1))]) := by
  have hobj (fields : Fields) (n : Number) : Json.obj fields ≠ .num n := Json.noConfusion
  have hproper : IsProper (.obj [("a", .num (.int 1)), ("b", .num (.int 2))]) :=
    .of_parts (by simp [children, Key.ofFields]) (fun n hn => absurd hn (hobj _ n))
      (by simp [children, Key.ofFields, isProper_num_iff, Number.IsProper])
  have hproper' : IsProper (.obj [("b", .num (.int 2)), ("a", .num (.int 1))]) :=
    .of_parts (by simp [children, Key.ofFields]) (fun n hn => absurd hn (hobj _ n))
      (by simp [children, Key.ofFields, isProper_num_iff, Number.IsProper])
  refine ((strictEq_iff_agree hproper hproper').1 (by decide +kernel)).resolve_right ?_
  rintro ⟨m, n, hm, -⟩
  exact hobj _ m hm

/-- Two integers that are no longer told apart as doubles are strictly equal, and a double in an array
is not strictly equal to the integer of its value. -/
theorem strictEq_ne_agree :
    strictEq (.num (.int 9007199254740992)) (.num (.int 9007199254740993)) = true ∧
    ¬ Agree (.num (.int 9007199254740992)) (.num (.int 9007199254740993)) ∧
    strictEq (.arr [.num (.int 1)]) (.arr [.num (.float 1)]) = false ∧
    Agree (.arr [.num (.int 1)]) (.arr [.num (.float 1)]) := by
  have hone : (Number.float 1).value? = some 1 := by
    have hdecoded : Binary64.ofFloat? 1 = some ⟨false, 2 ^ 52, -52⟩ := by decide +kernel
    have hvalue : Binary64.toRat ⟨false, 2 ^ 52, -52⟩ = (1 : Int) :=
      Binary64.toInt?_eq_some_iff.1 (by decide +kernel)
    rw [Number.value?, hdecoded, Option.map_some, hvalue, Int.cast_one]
  refine ⟨by decide +kernel, fun h => ?_, by decide +kernel, ?_⟩
  · have := Option.some.inj (Face.num.inj (Option.some.inj (h [])))
    norm_num at this
  · have hitem : Agree (.num (.int 1)) (.num (.float 1)) := by
      refine agree_iff.2 ⟨?_, fun key => .none⟩
      rw [face, face, hone, Number.value?, Int.cast_one]
    refine agree_iff.2 ⟨rfl, fun key => ?_⟩
    by_cases hkey : key = .index 0
    · subst hkey
      exact .some hitem
    · rw [get?, get?, children, children, Key.ofItems_cons, Key.ofItems_cons, List.lookup_cons,
        List.lookup_cons, beq_false_of_ne hkey]
      exact .none

end Json

end FormSchema
