import FormSchema.Expr.Eval
import FormSchema.Proofs.Expr.Grammar
import FormSchema.Proofs.Expr.Printing

/-!
How high the expressions are that the parser accepts.  Operators and postfixes that stand one after
the other make a chain, and a chain takes no levels of nesting, so that the height alone is without a
bound.  All other steps down are bounded by the levels; with a bound on the chains there is one on
the height, and then on the evaluations that are under way at a time.
-/

namespace FormSchema

namespace Expr

mutual

/-- The number of steps down to the deepest part. -/
def height : Expr → Nat
  | .literal _ | .name _ | .deref _ => 0
  | .array items => heightList items
  | .member object _ => object.height + 1
  | .index object key => max object.height key.height + 1
  | .call callee args => max (callee.height + 1) (heightList args)
  | .unary _ operand => operand.height + 1
  | .binary _ left right => max left.height right.height + 1
  | .conditional test yes no => max test.height (max yes.height no.height) + 1

def heightList : List Expr → Nat
  | [] => 0
  | e :: es => max (e.height + 1) (heightList es)

end

/-- How long the chain is that ends here: the operators and postfixes one after the other. -/
def links : Expr → Nat
  | .member object _ | .index object _ | .call object _ | .binary _ object _ => object.links + 1
  | _ => 0

mutual

/-- How long the longest chain is. -/
def chain : Expr → Nat
  | .literal _ | .name _ | .deref _ => 0
  | .array items => chainList items
  | .member object _ => max (object.links + 1) object.chain
  | .index object key => max (object.links + 1) (max object.chain key.chain)
  | .call callee args => max (callee.links + 1) (max callee.chain (chainList args))
  | .unary _ operand => operand.chain
  | .binary _ left right => max (left.links + 1) (max left.chain right.chain)
  | .conditional test yes no => max test.chain (max yes.chain no.chain)

def chainList : List Expr → Nat
  | [] => 0
  | e :: es => max e.chain (chainList es)

end

mutual

/-- The number of steps down to the deepest part, without those that go back along a chain. -/
def turns : Expr → Nat
  | .literal _ | .name _ | .deref _ => 0
  | .array items => turnsList items
  | .member object _ => object.turns
  | .index object key => max object.turns (key.turns + 1)
  | .call callee args => max callee.turns (turnsList args)
  | .unary _ operand => operand.turns + 1
  | .binary _ left right => max left.turns (right.turns + 1)
  | .conditional test yes no => max test.turns (max yes.turns no.turns) + 1

def turnsList : List Expr → Nat
  | [] => 0
  | e :: es => max (e.turns + 1) (turnsList es)

end

/-! ## Height, turns and chains -/

theorem links_le_chain (e : Expr) : e.links ≤ e.chain := by
  cases e <;> simp [links, chain]

/-- After a turn, a whole chain can follow. -/
theorem height_of_turn {e : Expr} {limit turns : Nat} (hchain : e.chain ≤ limit)
    (h : e.height ≤ e.links + e.turns * (limit + 1)) (hturns : e.turns + 1 ≤ turns) :
    e.height + 1 ≤ turns * (limit + 1) := by
  have hlinks := links_le_chain e
  calc e.height + 1 ≤ (e.turns + 1) * (limit + 1) := by rw [Nat.succ_mul]; omega
    _ ≤ turns * (limit + 1) := Nat.mul_le_mul_right _ hturns

mutual

/-- The height is at most the chain that ends here and a longest chain for each turn. -/
theorem height_le {limit : Nat} (e : Expr) (h : e.chain ≤ limit) :
    e.height ≤ e.links + e.turns * (limit + 1) := by
  match e with
  | .literal _ | .name _ | .deref _ => exact Nat.zero_le _
  | .array items =>
    rw [height]
    exact Nat.le_add_left_of_le (heightList_le items h (Nat.le_refl _))
  | .member object key =>
    rw [chain, Nat.max_le] at h
    have hobject := height_le object h.2
    rw [height, turns, links]
    omega
  | .index object key =>
    rw [chain, Nat.max_le, Nat.max_le] at h
    have hobject := height_le object h.2.1
    have hkey := height_of_turn h.2.2 (height_le key h.2.2) (Nat.le_max_right object.turns _)
    have hturns := Nat.mul_le_mul_right (limit + 1) (Nat.le_max_left object.turns (key.turns + 1))
    rw [height, turns, links]
    omega
  | .call callee args =>
    rw [chain, Nat.max_le, Nat.max_le] at h
    have hcallee := height_le callee h.2.1
    have hargs := heightList_le args h.2.2 (Nat.le_max_right callee.turns _)
    have hturns := Nat.mul_le_mul_right (limit + 1) (Nat.le_max_left callee.turns (turnsList args))
    rw [height, turns, links]
    omega
  | .unary op operand =>
    rw [chain] at h
    rw [height, turns]
    exact Nat.le_add_left_of_le (height_of_turn h (height_le operand h) (Nat.le_refl _))
  | .binary op left right =>
    rw [chain, Nat.max_le, Nat.max_le] at h
    have hleft := height_le left h.2.1
    have hright := height_of_turn h.2.2 (height_le right h.2.2) (Nat.le_max_right left.turns _)
    have hturns := Nat.mul_le_mul_right (limit + 1) (Nat.le_max_left left.turns (right.turns + 1))
    rw [height, turns, links]
    omega
  | .conditional test yes no =>
    rw [chain, Nat.max_le, Nat.max_le] at h
    have turned : test.turns + 1 ≤ (conditional test yes no).turns ∧
        yes.turns + 1 ≤ (conditional test yes no).turns ∧
        no.turns + 1 ≤ (conditional test yes no).turns := by
      rw [turns]
      omega
    have htest := height_of_turn h.1 (height_le test h.1) turned.1
    have hyes := height_of_turn h.2.1 (height_le yes h.2.1) turned.2.1
    have hno := height_of_turn h.2.2 (height_le no h.2.2) turned.2.2
    rw [height]
    omega

theorem heightList_le {limit turns : Nat} (es : List Expr) (h : chainList es ≤ limit)
    (hturns : turnsList es ≤ turns) : heightList es ≤ turns * (limit + 1) := by
  match es with
  | [] => exact Nat.zero_le _
  | e :: es =>
    rw [chainList, Nat.max_le] at h
    rw [turnsList, Nat.max_le] at hturns
    rw [heightList]
    exact Nat.max_le.2 ⟨height_of_turn h.1 (height_le e h.1) hturns.1,
      heightList_le es h.2 hturns.2⟩

end

/-! ## Turns and levels -/

/-- How many turns an expression in a place of the grammar can take.  One level allows for a turn of
its own and for a right operand of each precedence. -/
def Category.turns (levels : Nat) : Category → Nat
  | .whole | .signed => 8 * levels
  | .operation least => 8 * levels + (8 - max least 1)
  | .operand => 8 * levels + 1

/-- A word is an expression without parts. -/
theorem turns_ofWord {token : Token} {e : Expr} (h : ofWord token = .ok e) : e.turns = 0 := by
  unfold ofWord at h
  split at h
  case h_8 =>
    split at h
    · cases h
      rfl
    · cases h
  case h_9 => cases h
  all_goals
    cases h
    rfl

theorem turnsList_le {es : List Expr} {limit : Nat} (h : ∀ e ∈ es, e.turns ≤ limit) :
    turnsList es ≤ limit + 1 := by
  induction es with
  | nil => exact Nat.zero_le _
  | cons e es ih =>
    obtain ⟨he, hes⟩ := List.forall_mem_cons.1 h
    rw [turnsList]
    exact Nat.max_le.2 ⟨Nat.succ_le_succ he, ih hes⟩

/-- The levels bound the turns of what can be derived. -/
theorem Derives.turns_le {category : Category} {levels : Nat} {e : Expr}
    (h : Derives category levels e) : e.turns ≤ category.turns levels := by
  induction h with
  | test h ih => exact Nat.le_trans ih (by simp only [Category.turns]; omega)
  | branches htest hyes hno ihtest ihyes ihno =>
    simp only [Category.turns, turns] at ihtest ihyes ihno ⊢
    omega
  | single h ih => exact Nat.le_add_right_of_le ih
  | @operation levels least op left right hleft hop hright ihleft ihright =>
    have := op.precedence_pos
    have := op.precedence_lt
    simp only [Category.turns, turns] at ihleft ihright ⊢
    omega
  | sign op h ih =>
    simp only [Category.turns, turns] at ih ⊢
    omega
  | unsigned h ih => exact Nat.le_trans ih (by simp only [Category.turns]; omega)
  | word h => exact turns_ofWord h ▸ Nat.zero_le _
  | group h ih => exact Nat.le_succ_of_le ih
  | array h ih => exact turnsList_le ih
  | member h key ih => exact ih
  | index hobject hkey ihobject ihkey => exact Nat.max_le.2 ⟨ihobject, Nat.succ_le_succ ihkey⟩
  | call hcallee hargs ihcallee ihargs => exact Nat.max_le.2 ⟨ihcallee, turnsList_le ihargs⟩

/-! ## Evaluations under way -/

/-- The value of an expression, if no more than some number of evaluations may be under way at a
time. -/
def evalWithin (scope : Scope) : Nat → Expr → ExceptT EvalError Option Json
  | 0, _ => none
  | frames + 1, e => do
    match e with
    | .literal _ | .name _ | .deref _ => liftM (e.eval scope)
    | .array items => return .arr (← items.mapM (evalWithin scope frames))
    | .member object key => liftM (memberOf (← evalWithin scope frames object) key)
    | .index object key =>
      let object ← evalWithin scope frames object
      liftM (indexOf object (← evalWithin scope frames key))
    | .call callee args =>
      let args ← args.mapM (evalWithin scope frames)
      match callee with
      | .member (.name .math) key => liftM (Builtin.math key args)
      | .member (.name .json) key => liftM (Builtin.json key args)
      | .member receiver key =>
        liftM (Builtin.method (← evalWithin scope frames receiver) key args)
      | .name n => liftM (Builtin.global n args)
      | _ => throw (.notCallable "expression")
    | .unary op operand => return unaryOf op (← evalWithin scope frames operand)
    | .binary op left right =>
      let left ← evalWithin scope frames left
      if decides op left then return left
      return binaryOf op left (← evalWithin scope frames right)
    | .conditional test yes no =>
      if (← evalWithin scope frames test).truthy then evalWithin scope frames yes
      else evalWithin scope frames no

section

variable {scope : Scope} {frames : Nat}

theorem lift_bind {α β : Type} (x : Except EvalError α) (f : α → Except EvalError β) :
    ((liftM x : ExceptT EvalError Option α) >>= fun a => liftM (f a)) = liftM (x >>= f) := by
  cases x <;> rfl

theorem mapM_evalWithin {items : List Expr}
    (h : ∀ item ∈ items, evalWithin scope frames item = liftM (item.eval scope)) :
    items.mapM (evalWithin scope frames) = liftM (evalList scope items) := by
  induction items with
  | nil => rfl
  | cons item items ih =>
    obtain ⟨hitem, hitems⟩ := List.forall_mem_cons.1 h
    rw [List.mapM_cons, hitem, ih hitems, evalList, ← lift_bind]
    refine congrArg _ (funext fun value => ?_)
    exact lift_bind (evalList scope items) fun values => .ok (value :: values)

theorem height_lt_heightList {items : List Expr} {item : Expr} (h : item ∈ items) :
    item.height < heightList items := by
  induction items with
  | nil => cases h
  | cons first items ih =>
    rw [heightList]
    rcases List.mem_cons.1 h with rfl | h
    · omega
    · have := ih h
      omega

/-- As many evaluations as the height are enough, and the evaluation of the whole. -/
theorem evalWithin_eq {e : Expr} (h : e.height < frames) :
    evalWithin scope frames e = liftM (e.eval scope) := by
  induction frames generalizing e with
  | zero => cases h
  | succ frames ih =>
    have list {items : List Expr} (h : heightList items < frames + 1) :
        items.mapM (evalWithin scope frames) = liftM (evalList scope items) :=
      mapM_evalWithin fun item hitem => ih (by have := height_lt_heightList hitem; omega)
    cases e with
    | literal value => rfl
    | name n => rfl
    | deref pointer => rfl
    | array items =>
      rw [height] at h
      rw [evalWithin, eval, list h]
      cases evalList scope items <;> rfl
    | member object key =>
      rw [height] at h
      rw [evalWithin, eval, ih (Nat.lt_of_succ_lt_succ h)]
      exact lift_bind _ _
    | index object key =>
      rw [height] at h
      rw [evalWithin, eval, ih (e := object) (by omega), ih (e := key) (by omega), ← lift_bind]
      exact congrArg _ (funext fun object => lift_bind _ _)
    | call callee args =>
      rw [height] at h
      rw [evalWithin, eval, list (by omega), ← lift_bind]
      refine congrArg _ (funext fun args => ?_)
      cases callee with
      | member receiver key =>
        simp only [height] at h
        have hmethod : (do liftM (Builtin.method (← evalWithin scope frames receiver) key args)) =
            (liftM (do Builtin.method (← receiver.eval scope) key args) :
              ExceptT EvalError Option Json) := by
          rw [ih (e := receiver) (by omega)]
          exact lift_bind _ _
        cases receiver with
        | name n =>
          cases n with
          | math => rfl
          | json => rfl
          | _ => exact hmethod
        | _ => exact hmethod
      | _ => rfl
    | unary op operand =>
      rw [height] at h
      rw [evalWithin, eval, ih (Nat.lt_of_succ_lt_succ h)]
      exact lift_bind (operand.eval scope) fun value => .ok (unaryOf op value)
    | binary op left right =>
      rw [height] at h
      rw [evalWithin, eval, ih (e := left) (by omega), ih (e := right) (by omega), ← lift_bind]
      refine congrArg _ (funext fun value => ?_)
      split
      · rfl
      · exact lift_bind (right.eval scope) fun right => .ok (binaryOf op value right)
    | conditional test yes no =>
      rw [height] at h
      rw [evalWithin, eval, ih (e := test) (by omega), ih (e := yes) (by omega),
        ih (e := no) (by omega), ← lift_bind]
      refine congrArg _ (funext fun value => ?_)
      split <;> rfl

end

/-! ## Chains without a bound -/

/-- A sum of ones, each of them added to those before it. -/
def ones : Nat → Expr
  | 0 => .literal (.num (.int 1))
  | n + 1 => .binary .add (ones n) (.literal (.num (.int 1)))

theorem height_ones (n : Nat) : (ones n).height = n := by
  induction n with
  | zero => rfl
  | succ n ih => rw [ones, height, ih, height, Nat.max_zero]

theorem printable_ones (n : Nat) : (ones n).Printable := by
  induction n with
  | zero => exact .literal (.int 1 (by decide))
  | succ n ih => exact .binary .add ih (.literal (.int 1 (by decide)))

theorem precedence_le_rank_ones (n : Nat) : BinaryOp.add.precedence ≤ (ones n).rank := by
  cases n with
  | zero => decide
  | succ n => exact Nat.le_refl _

theorem nesting_ones (n : Nat) : (ones n).nesting = 0 := by
  induction n with
  | zero => rfl
  | succ n ih =>
    rw [ones, nesting, groupedNesting, if_neg (Nat.not_lt.2 (precedence_le_rank_ones n)), ih]
    rfl

theorem parse_ones (n : Nat) : parse (ones n).print = .ok (ones n) :=
  parse_print_of_levels (printable_ones n) (by rw [nesting_ones]; decide)

theorem evalWithin_ones (scope : Scope) (n : Nat) : evalWithin scope n (ones n) = none := by
  induction n with
  | zero => rfl
  | succ n ih =>
    rw [ones, evalWithin, ih]
    rfl

/-- No bound holds for the height of all expressions that are accepted, and none for the evaluations
under way. -/
theorem not_exists_bound_of_parse :
    (¬∃ bound, ∀ source e, parse source = .ok e → e.height ≤ bound) ∧
      ∀ frames, ∃ source e, parse source = .ok e ∧ ∀ scope, evalWithin scope frames e = none := by
  constructor
  · rintro ⟨bound, h⟩
    have := h _ _ (parse_ones (bound + 1))
    rw [height_ones] at this
    exact Nat.not_succ_le_self _ this
  · exact fun frames => ⟨_, _, parse_ones frames, fun scope => evalWithin_ones scope frames⟩

/-- In an expression that is accepted, the levels bound the steps down other than those back along a
chain.  Where the chains are bounded as well, so are the height and the evaluations under way. -/
theorem height_le_of_parse {source : String} {e : Expr} (h : parse source = .ok e) {limit : Nat}
    (hchain : e.chain ≤ limit) :
    e.turns ≤ 8 * nestingLevels ∧ e.height ≤ limit + 8 * nestingLevels * (limit + 1) ∧
      ∀ scope frames, limit + 8 * nestingLevels * (limit + 1) < frames →
        evalWithin scope frames e = liftM (e.eval scope) := by
  have hturns : e.turns ≤ 8 * nestingLevels := (derives_of_parse h).turns_le
  have hheight : e.height ≤ limit + 8 * nestingLevels * (limit + 1) :=
    calc e.height ≤ e.links + e.turns * (limit + 1) := height_le e hchain
      _ ≤ limit + 8 * nestingLevels * (limit + 1) :=
        Nat.add_le_add (Nat.le_trans (links_le_chain e) hchain) (Nat.mul_le_mul_right _ hturns)
  exact ⟨hturns, hheight, fun scope frames hframes =>
    evalWithin_eq (Nat.lt_of_le_of_lt hheight hframes)⟩

/-- A chain of two properties and a sum, which takes two turns to the key. -/
theorem height_le_of_parse_sum :
    ∃ e, parse "value . a . b + - key" = .ok e ∧ e.chain = 3 ∧ e.turns = 2 ∧ e.height = 3 ∧
      ∀ scope frames, 3 + 8 * nestingLevels * 4 < frames →
        evalWithin scope frames e = liftM (e.eval scope) := by
  have hname (key : String) (hne : key.toList ≠ []) (h : ∀ c ∈ key.toList, Text.isPlainLetter c) :
      Word.IsName key.toList := Word.isName_of_letters hne h
  have printable : Printable (.binary .add (.member (.member (.name .value) "a") "b")
      (.unary .neg (.name .key))) :=
    .binary .add
      (.member (.member (.name .value) (hname _ (by simp) (by simp [Text.isPlainLetter])))
        (hname _ (by simp) (by simp [Text.isPlainLetter])))
      (.unary .neg (.name .key))
  have hparse := (congrArg parse (show "value . a . b + - key" = _ by cbv)).trans
    (parse_print_of_levels printable (by decide))
  exact ⟨_, hparse, rfl, rfl, rfl, (height_le_of_parse hparse (Nat.le_refl 3)).2.2⟩

end Expr

end FormSchema
