import FormSchema.Expr.Evaluator

/-!
What the value of an expression depends on: the names that it mentions and the pointers that it
reads.  Two scopes that agree on those yield the same value.
-/

namespace FormSchema

namespace Expr

mutual

/-- The names that an expression mentions, from left to right. -/
def names : Expr → List Name
  | .literal _ | .deref _ => []
  | .name n => [n]
  | .array items => namesList items
  | .member object _ => object.names
  | .index object key => object.names ++ key.names
  | .call callee args => callee.names ++ namesList args
  | .unary _ operand => operand.names
  | .binary _ left right => left.names ++ right.names
  | .conditional test yes no => test.names ++ yes.names ++ no.names

def namesList : List Expr → List Name
  | [] => []
  | e :: es => e.names ++ namesList es

end

end Expr

/-- Whether two scopes give names the same values and pointers the same targets. -/
structure Scope.Agree (scope scope' : Scope) (names : List Name) (pointers : List String) : Prop where
  get : ∀ n ∈ names, scope.get n = scope'.get n
  deref : ∀ pointer ∈ pointers, scope.deref pointer = scope'.deref pointer

namespace Scope.Agree

variable {scope scope' : Scope} {names names' : List Name} {pointers pointers' : List String}

theorem left (h : Agree scope scope' (names ++ names') (pointers ++ pointers')) :
    Agree scope scope' names pointers where
  get n hn := h.get n (List.mem_append_left _ hn)
  deref p hp := h.deref p (List.mem_append_left _ hp)

theorem right (h : Agree scope scope' (names ++ names') (pointers ++ pointers')) :
    Agree scope scope' names' pointers' where
  get n hn := h.get n (List.mem_append_right _ hn)
  deref p hp := h.deref p (List.mem_append_right _ hp)

end Scope.Agree

namespace Expr

variable {scope scope' : Scope}

mutual

/-- The value of an expression depends only on what it mentions. -/
theorem eval_congr (e : Expr) (h : scope.Agree scope' e.names e.derefs) :
    e.eval scope = e.eval scope' := by
  match e with
  | .literal value => rw [eval, eval]
  | .name n => rw [eval, eval, h.get n (List.mem_singleton.2 rfl)]
  | .deref pointer => rw [eval, eval, h.deref pointer (List.mem_singleton.2 rfl)]
  | .array items => rw [eval, eval, evalList_congr items h]
  | .member object key => rw [eval, eval, eval_congr object h]
  | .index object key => rw [eval, eval, eval_congr object h.left, eval_congr key h.right]
  | .call callee args =>
    have hargs := evalList_congr args h.right
    rw [eval, eval, hargs]
    match callee with
    | .member receiver key =>
      have hreceiver := eval_congr receiver h.left
      refine congrArg (Bind.bind _) (funext fun args => ?_)
      split
      · rfl
      · rfl
      · rename_i heq
        obtain ⟨rfl, rfl⟩ := Expr.member.inj heq
        rw [hreceiver]
      · rfl
      · rfl
    | .name n => rfl
    | .literal _ | .deref _ | .array _ | .index _ _ | .call _ _ | .unary _ _ | .binary _ _ _
    | .conditional _ _ _ => rfl
  | .unary op operand => rw [eval, eval, eval_congr operand h]
  | .binary op left right => rw [eval, eval, eval_congr left h.left, eval_congr right h.right]
  | .conditional test yes no =>
    rw [eval, eval, eval_congr test h.left.left, eval_congr yes h.left.right, eval_congr no h.right]

theorem evalList_congr (es : List Expr) (h : scope.Agree scope' (namesList es) (derefsList es)) :
    evalList scope es = evalList scope' es := by
  match es with
  | [] => rw [evalList, evalList]
  | e :: es => rw [evalList, evalList, eval_congr e h.left, evalList_congr es h.right]

end

end Expr

/-- Whether two scopes have the same values for the names that occur in an expression, and the same
targets for the pointers that it follows. -/
structure Scope.AgreeOn (scope scope' : Scope) (e : Expr) : Prop where
  schema : .schema ∈ e.names → scope.schema = scope'.schema
  value : .value ∈ e.names → scope.value = scope'.value
  parent : .parent ∈ e.names → scope.parent = scope'.parent
  key : .key ∈ e.names → scope.key = scope'.key
  userData : .userData ∈ e.names → scope.userData = scope'.userData
  deref : ∀ pointer ∈ e.derefs, scope.deref pointer = scope'.deref pointer

theorem Scope.AgreeOn.agree {scope scope' : Scope} {e : Expr} (h : scope.AgreeOn scope' e) :
    scope.Agree scope' e.names e.derefs where
  get n hn := by
    cases n with
    | schema => exact congrArg _ (h.schema hn)
    | value => exact congrArg _ (h.value hn)
    | parent => exact congrArg _ (h.parent hn)
    | key => exact congrArg _ (h.key hn)
    | userData => exact congrArg _ (h.userData hn)
    | _ => rfl
  deref := h.deref

namespace Expr

/-- An expression has the same outcome in scopes that differ only in what it does not mention.  One
that follows no pointer does not depend on what pointers lead to. -/
theorem eval_agreeOn (e : Expr) :
    (∀ scope scope' : Scope, scope.AgreeOn scope' e → e.eval scope = e.eval scope') ∧
    (e.derefs = [] → ∀ (scope : Scope) (deref : String → Except Pointer.Error (Option Json)),
      e.eval { scope with deref } = e.eval scope) := by
  refine ⟨fun scope scope' h => eval_congr e h.agree, fun hnone scope deref => ?_⟩
  refine eval_congr e ⟨fun n _ => ?_, fun pointer hpointer => ?_⟩
  · cases n <;> rfl
  · rw [hnone] at hpointer
    cases hpointer

theorem eval_agreeOn_match :
    (binary .strictEq (.name .value) (.deref "/a")).eval
        ⟨.null, .str "x", .null, .null, .null, fun _ => .ok (some (.str "x"))⟩ =
      (binary .strictEq (.name .value) (.deref "/a")).eval
        ⟨.bool true, .str "x", .arr [], .str "k", .obj [],
          fun pointer => .ok (if pointer = "/a" then some (.str "x") else none)⟩ ∧
    (member (.name .value) "length").eval
        ⟨.null, .str "x", .null, .null, .null, fun _ => .ok (some (.str "x"))⟩ =
      (member (.name .value) "length").eval
        ⟨.null, .str "x", .null, .null, .null, fun _ => .ok none⟩ := by
  refine ⟨(eval_agreeOn _).1 _ _ ⟨nofun, fun _ => rfl, nofun, nofun, nofun, ?_⟩,
    (eval_agreeOn _).2 rfl ⟨.null, .str "x", .null, .null, .null, fun _ => .ok none⟩ _⟩
  intro pointer hpointer
  obtain rfl := List.mem_singleton.1 hpointer
  rfl

end Expr

namespace Evaluator

/-- The names that an evaluator mentions. -/
def names (e : Evaluator) : List Name :=
  match e.body with
  | .constant _ => []
  | .expression e => e.names
  | .template parts => parts.flatMap fun
    | .text _ => []
    | .hole e => e.names

/-- The value of an evaluator depends only on what it mentions. -/
theorem eval_congr {scope scope' : Scope} (e : Evaluator)
    (h : scope.Agree scope' e.names e.derefs) : e.eval scope = e.eval scope' := by
  suffices e.tryEval scope = e.tryEval scope' by rw [eval, eval, this]
  rw [tryEval, tryEval]
  rw [names, derefs] at h
  cases hbody : e.body with
  | constant value => rfl
  | expression expr =>
    rw [hbody] at h
    dsimp only
    rw [expr.eval_congr h]
  | template parts =>
    rw [hbody] at h
    have hparts : ∀ parts : List Part,
        scope.Agree scope' (parts.flatMap fun
          | .text _ => []
          | .hole e => e.names) (Template.derefs parts) →
        parts.mapM (partText scope) = parts.mapM (partText scope') := by
      intro parts
      induction parts with
      | nil => intro _; rfl
      | cons part parts ih =>
        intro h
        have hpart : partText scope part = partText scope' part := by
          cases part with
          | text text => rfl
          | hole e => rw [partText, partText, e.eval_congr h.left]
        rw [List.mapM_cons, List.mapM_cons, hpart, ih h.right]
    dsimp only
    rw [hparts parts h]

end Evaluator

end FormSchema
