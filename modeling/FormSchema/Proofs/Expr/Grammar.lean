import FormSchema.Proofs.Expr.Productions

/-!
The grammar of expressions.  Whatever the parser accepts can be derived, with as many levels of
nesting as the parser had left.
-/

namespace FormSchema.Expr

/-- The places of the grammar: for whole expressions, for operators that bind at least as tightly as
some precedence, for prefix operators, and for operands with their postfixes. -/
inductive Category where
  | whole
  | operation (least : Nat)
  | signed
  | operand

/-- What can stand in a place of the grammar with some levels of nesting left. -/
inductive Derives : Category → Nat → Expr → Prop
  | test {levels : Nat} {e : Expr} (h : Derives (.operation 0) levels e) :
      Derives .whole (levels + 1) e
  | branches {levels : Nat} {test yes no : Expr} (htest : Derives (.operation 0) levels test)
      (hyes : Derives .whole levels yes) (hno : Derives .whole levels no) :
      Derives .whole (levels + 1) (.conditional test yes no)
  | single {levels least : Nat} {e : Expr} (h : Derives .signed levels e) :
      Derives (.operation least) levels e
  | operation {levels least : Nat} {op : BinaryOp} {left right : Expr}
      (hleft : Derives (.operation least) levels left) (hop : least ≤ op.precedence)
      (hright : Derives (.operation (op.precedence + 1)) levels right) :
      Derives (.operation least) levels (.binary op left right)
  | sign {levels : Nat} (op : UnaryOp) {e : Expr} (h : Derives .signed levels e) :
      Derives .signed (levels + 1) (.unary op e)
  | unsigned {levels : Nat} {e : Expr} (h : Derives .operand levels e) :
      Derives .signed (levels + 1) e
  | word {levels : Nat} {token : Token} {e : Expr} (h : ofWord token = .ok e) :
      Derives .operand levels e
  | group {levels : Nat} {e : Expr} (h : Derives .whole levels e) : Derives .operand levels e
  | array {levels : Nat} {items : List Expr} (h : ∀ item ∈ items, Derives .whole levels item) :
      Derives .operand levels (.array items)
  | member {levels : Nat} {object : Expr} (h : Derives .operand levels object) (key : String) :
      Derives .operand levels (.member object key)
  | index {levels : Nat} {object key : Expr} (hobject : Derives .operand levels object)
      (hkey : Derives .whole levels key) : Derives .operand levels (.index object key)
  | call {levels : Nat} {callee : Expr} {args : List Expr}
      (hcallee : Derives .operand levels callee) (hargs : ∀ arg ∈ args, Derives .whole levels arg) :
      Derives .operand levels (.call callee args)

/-- Whether what the parser reads from some words in any place of the grammar can stand there. -/
structure Sound (stop : Nat) (words : List Placed) : Prop where
  conditional {levels : Nat} {e : Expr} {rest : List Placed}
    (h : Reads (parseConditional stop levels words) e rest) : Derives .whole levels e
  operators {levels least : Nat} {left e : Expr} {rest : List Placed}
    (hleft : Derives (.operation least) levels left)
    (h : GoesOn (parseOperators stop levels least left words) e rest) :
    Derives (.operation least) levels e
  binary {levels least : Nat} {e : Expr} {rest : List Placed}
    (h : Reads (parseBinary stop levels least words) e rest) : Derives (.operation least) levels e
  unary {levels : Nat} {e : Expr} {rest : List Placed}
    (h : Reads (parseUnary stop levels words) e rest) : Derives .signed levels e
  postfixes {levels : Nat} {object e : Expr} {rest : List Placed}
    (hobject : Derives .operand levels object)
    (h : GoesOn (parsePostfixes stop levels object words) e rest) : Derives .operand levels e
  list {levels : Nat} {close : Punct} {items : List Expr} {rest : List Placed}
    (h : Reads (parseList stop levels close words) items rest) :
    ∀ item ∈ items, Derives .whole levels item
  items {levels : Nat} {close : Punct} {items : List Expr} {rest : List Placed}
    (h : Reads (parseItems stop levels close words) items rest) :
    ∀ item ∈ items, Derives .whole levels item

section

variable {stop levels least : Nat} {close : Punct} {words rest : List Placed} {object left e : Expr}
  {items : List Expr} (ih : ∀ more : List Placed, more.length < words.length → Sound stop more)

include ih

/-! ## One step of the parser

Every production reads fewer words in its parts, of which this may be known already. -/

theorem derives_of_primary (h : Reads (parsePrimary stop levels words) e rest) :
    Derives .operand levels e := by
  obtain ⟨_, h⟩ := h.exists_ok
  rw [parsePrimary.eq_def] at h
  split at h
  · cases h
  · rename_i more _ _
    obtain ⟨inner, hinner, h⟩ := bind_eq_ok.1 h
    obtain ⟨after, -, h⟩ := bind_eq_ok.1 h
    obtain rfl : inner.value = e := congrArg Parsed.value (Except.ok.inj h)
    exact .group ((ih more (by simp)).conditional (.of_ok hinner))
  · rename_i more _ _
    obtain ⟨items, hitems, h⟩ := bind_eq_ok.1 h
    obtain rfl : .array items.value = e := congrArg Parsed.value (Except.ok.inj h)
    exact .array ((ih more (by simp)).list (.of_ok hitems))
  · split at h
    · rename_i e' hword
      obtain rfl : e' = e := congrArg Parsed.value (Except.ok.inj h)
      exact .word hword
    · cases h

theorem derives_of_postfixes (hobject : Derives .operand levels object)
    (h : GoesOn (parsePostfixes stop levels object words) e rest) : Derives .operand levels e := by
  obtain ⟨_, h⟩ := h.exists_ok
  rw [parsePostfixes.eq_def] at h
  split at h
  · rename_i key _ more _ _
    obtain ⟨whole, hwhole, h⟩ := bind_eq_ok.1 h
    obtain rfl : whole.1 = e := congrArg Prod.fst (Except.ok.inj h)
    exact (ih more (by simp only [List.length_cons]; omega)).postfixes (.member hobject key)
      (.of_ok hwhole)
  · cases h
  · rename_i more _ _
    obtain ⟨key, hkey, h⟩ := bind_eq_ok.1 h
    obtain ⟨after, -, h⟩ := bind_eq_ok.1 h
    obtain ⟨whole, hwhole, h⟩ := bind_eq_ok.1 h
    obtain rfl : whole.1 = e := congrArg Prod.fst (Except.ok.inj h)
    have shorter : after.1.length < more.length := Nat.lt_trans after.2 key.shorter
    have derives := (ih more (by simp)).conditional (.of_ok hkey)
    exact (ih after.1 (by simp only [List.length_cons]; omega)).postfixes (.index hobject derives)
      (.of_ok hwhole)
  · rename_i more _ _
    obtain ⟨args, hargs, h⟩ := bind_eq_ok.1 h
    obtain ⟨whole, hwhole, h⟩ := bind_eq_ok.1 h
    obtain rfl : whole.1 = e := congrArg Prod.fst (Except.ok.inj h)
    have shorter := args.shorter
    have derives := (ih more (by simp)).list (.of_ok hargs)
    exact (ih args.rest (by simp only [List.length_cons]; omega)).postfixes (.call hobject derives)
      (.of_ok hwhole)
  · obtain rfl : object = e := congrArg Prod.fst (Except.ok.inj h)
    exact hobject

theorem derives_of_suffix (h : Reads (parsePostfix stop levels words) e rest) :
    Derives .operand levels e := by
  obtain ⟨_, h⟩ := h.exists_ok
  rw [parsePostfix] at h
  obtain ⟨start, hstart, h⟩ := bind_eq_ok.1 h
  obtain ⟨whole, hwhole, h⟩ := bind_eq_ok.1 h
  obtain rfl : whole.1 = e := congrArg Parsed.value (Except.ok.inj h)
  have derives := derives_of_primary ih (.of_ok hstart)
  exact (ih start.rest start.shorter).postfixes derives (.of_ok hwhole)

theorem derives_of_unary (h : Reads (parseUnary stop levels words) e rest) :
    Derives .signed levels e := by
  obtain ⟨_, h⟩ := h.exists_ok
  cases levels with
  | zero =>
    rw [parseUnary] at h
    cases h
  | succ levels =>
    rw [parseUnary.eq_def] at h
    dsimp only at h
    split at h
    · rename_i more _ _
      split at h
      · rename_i op _
        obtain ⟨operand, hoperand, h⟩ := bind_eq_ok.1 h
        obtain rfl : .unary op operand.value = e := congrArg Parsed.value (Except.ok.inj h)
        exact .sign op ((ih more (by simp)).unary (.of_ok hoperand))
      · exact .unsigned (derives_of_suffix ih (.of_ok h))
    · exact .unsigned (derives_of_suffix ih (.of_ok h))

theorem derives_of_operators (hleft : Derives (.operation least) levels left)
    (h : GoesOn (parseOperators stop levels least left words) e rest) :
    Derives (.operation least) levels e := by
  obtain ⟨_, h⟩ := h.exists_ok
  rw [parseOperators.eq_def] at h
  split at h
  · rename_i more _ _
    split at h
    · rename_i op _
      split at h
      · obtain rfl : left = e := congrArg Prod.fst (Except.ok.inj h)
        exact hleft
      · rename_i hleast
        obtain ⟨right, hright, h⟩ := bind_eq_ok.1 h
        obtain ⟨whole, hwhole, h⟩ := bind_eq_ok.1 h
        obtain rfl : whole.1 = e := congrArg Prod.fst (Except.ok.inj h)
        have shorter := right.shorter
        have derives := (ih more (by simp)).binary (.of_ok hright)
        exact (ih right.rest (by simp only [List.length_cons]; omega)).operators
          (.operation hleft (Nat.not_lt.1 hleast) derives) (.of_ok hwhole)
    · obtain rfl : left = e := congrArg Prod.fst (Except.ok.inj h)
      exact hleft
  · obtain rfl : left = e := congrArg Prod.fst (Except.ok.inj h)
    exact hleft

theorem derives_of_binary (h : Reads (parseBinary stop levels least words) e rest) :
    Derives (.operation least) levels e := by
  obtain ⟨_, h⟩ := h.exists_ok
  rw [parseBinary] at h
  obtain ⟨left, hleft, h⟩ := bind_eq_ok.1 h
  obtain ⟨whole, hwhole, h⟩ := bind_eq_ok.1 h
  obtain rfl : whole.1 = e := congrArg Parsed.value (Except.ok.inj h)
  have derives := derives_of_unary ih (.of_ok hleft)
  exact (ih left.rest left.shorter).operators (.single derives) (.of_ok hwhole)

theorem derives_of_conditional (h : Reads (parseConditional stop levels words) e rest) :
    Derives .whole levels e := by
  obtain ⟨_, h⟩ := h.exists_ok
  cases levels with
  | zero =>
    rw [parseConditional] at h
    cases h
  | succ levels =>
    rw [parseConditional] at h
    obtain ⟨test, htest, h⟩ := bind_eq_ok.1 h
    have derives := derives_of_binary ih (.of_ok htest)
    split at h
    · obtain rfl : test.value = e := congrArg Parsed.value (Except.ok.inj h)
      exact .test derives
    · rename_i after _
      obtain ⟨yes, hyes, h⟩ := bind_eq_ok.1 h
      obtain ⟨middle, -, h⟩ := bind_eq_ok.1 h
      obtain ⟨no, hno, h⟩ := bind_eq_ok.1 h
      obtain rfl : .conditional test.value yes.value no.value = e :=
        congrArg Parsed.value (Except.ok.inj h)
      have hafter : after.1.length < words.length := Nat.lt_trans after.2 test.shorter
      have hmiddle : middle.1.length < after.1.length := Nat.lt_trans middle.2 yes.shorter
      exact .branches derives ((ih after.1 hafter).conditional (.of_ok hyes))
        ((ih middle.1 (Nat.lt_trans hmiddle hafter)).conditional (.of_ok hno))

theorem derives_of_items (h : Reads (parseItems stop levels close words) items rest) :
    ∀ item ∈ items, Derives .whole levels item := by
  obtain ⟨_, h⟩ := h.exists_ok
  rw [parseItems] at h
  obtain ⟨item, hitem, h⟩ := bind_eq_ok.1 h
  have derives := derives_of_conditional ih (.of_ok hitem)
  split at h
  · obtain rfl : [item.value] = items := congrArg Parsed.value (Except.ok.inj h)
    exact List.forall_mem_singleton.2 derives
  · obtain ⟨after, -, h⟩ := bind_eq_ok.1 h
    obtain ⟨more, hmore, h⟩ := bind_eq_ok.1 h
    obtain rfl : item.value :: more.value = items := congrArg Parsed.value (Except.ok.inj h)
    have sound := ih after.1 (Nat.lt_trans after.2 item.shorter)
    exact List.forall_mem_cons.2 ⟨derives, sound.items (.of_ok hmore)⟩

theorem derives_of_list (h : Reads (parseList stop levels close words) items rest) :
    ∀ item ∈ items, Derives .whole levels item := by
  obtain ⟨_, h⟩ := h.exists_ok
  rw [parseList] at h
  split at h
  · obtain rfl : [] = items := congrArg Parsed.value (Except.ok.inj h)
    exact List.forall_mem_nil _
  · exact derives_of_items ih (.of_ok h)

end

/-! ## The whole parser -/

theorem sound (stop : Nat) (words : List Placed) : Sound stop words := by
  induction h : words.length using Nat.strongRecOn generalizing words with
  | ind n ih =>
    subst h
    have shorter (more : List Placed) (h : more.length < words.length) : Sound stop more :=
      ih _ h more rfl
    exact {
      conditional := derives_of_conditional shorter
      operators := derives_of_operators shorter
      binary := derives_of_binary shorter
      unary := derives_of_unary shorter
      postfixes := derives_of_postfixes shorter
      list := derives_of_list shorter
      items := derives_of_items shorter }

/-- An expression that the parser accepts can be derived with all levels of nesting. -/
theorem derives_of_parse {source : String} {e : Expr} (h : parse source = .ok e) :
    Derives .whole nestingLevels e := by
  obtain ⟨words, -, h⟩ := bind_eq_ok.1 h
  rw [ofWords] at h
  split at h
  · cases h
  · obtain ⟨whole, hwhole, h⟩ := bind_eq_ok.1 h
    split at h
    · obtain rfl := Except.ok.inj h
      exact (sound _ _).conditional (.of_ok hwhole)
    · cases h

end FormSchema.Expr
