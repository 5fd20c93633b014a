import FormSchema.Expr.Parser
import FormSchema.Proofs.Outcome

/-!
The productions of the parser: how what is read from the start of some words follows from what is
read from the words in it.
-/

namespace FormSchema.Expr

variable {α : Type} {stop levels least : Nat} {words more rest : List Placed} {e : Expr}

/-- A value is read from the start of some words, and the rest comes after it. -/
def Reads (r : Except SyntaxError (Parsed α words)) (value : α) (rest : List Placed) : Prop :=
  r.map (fun read => (read.value, read.rest)) = .ok (value, rest)

/-- Going on from a left part ends with a whole, and the rest comes after it. -/
def GoesOn (r : Except SyntaxError (Expr × { rest : List Placed // rest.length ≤ words.length }))
    (e : Expr) (rest : List Placed) : Prop :=
  r.map (fun read => (read.1, read.2.1)) = .ok (e, rest)

theorem Reads.exists_ok {r : Except SyntaxError (Parsed α words)} {value : α}
    (h : Reads r value rest) : ∃ shorter, r = .ok ⟨value, rest, shorter⟩ := by
  obtain ⟨⟨_, _, shorter⟩, hok, heq⟩ := map_eq_ok.1 h
  obtain ⟨rfl, rfl⟩ := Prod.mk.inj heq
  exact ⟨shorter, hok⟩

theorem Reads.of_ok {r : Except SyntaxError (Parsed α words)} {read : Parsed α words}
    (h : r = .ok read) : Reads r read.value read.rest := by
  rw [h]
  rfl

theorem GoesOn.exists_ok
    {r : Except SyntaxError (Expr × { rest : List Placed // rest.length ≤ words.length })}
    (h : GoesOn r e rest) : ∃ shorter, r = .ok (e, ⟨rest, shorter⟩) := by
  obtain ⟨⟨_, _, shorter⟩, hok, heq⟩ := map_eq_ok.1 h
  obtain ⟨rfl, rfl⟩ := Prod.mk.inj heq
  exact ⟨shorter, hok⟩

theorem GoesOn.of_ok
    {r : Except SyntaxError (Expr × { rest : List Placed // rest.length ≤ words.length })}
    {read : Expr × { rest : List Placed // rest.length ≤ words.length }} (h : r = .ok read) :
    GoesOn r read.1 read.2.1 := by
  rw [h]
  rfl

/-! ## Marks -/

theorem eat?_cons (p : Punct) (pos : Nat) (rest : List Placed) :
    eat? p (⟨.punct p, pos⟩ :: rest) = some ⟨rest, Nat.lt_succ_self _⟩ := if_pos rfl

theorem expect_cons (p : Punct) (pos : Nat) (rest : List Placed) :
    expect stop p (⟨.punct p, pos⟩ :: rest) = .ok ⟨rest, Nat.lt_succ_self _⟩ := by
  rw [expect, eat?_cons]

/-- The operator that goes on from a left operand, if one comes next. -/
def binaryNext? : List Placed → Option BinaryOp
  | ⟨.punct p, _⟩ :: _ => p.binary?
  | _ => none

/-- Whether a property, an index or a call comes next. -/
def postfixNext : List Placed → Bool
  | ⟨.punct p, _⟩ :: _ => p = .dot ∨ p = .openBracket ∨ p = .openParen
  | _ => false

/-! ## Operands -/

theorem reads_primary_ofWord {token : Token} (pos : Nat) (h : ofWord token = .ok e) :
    Reads (parsePrimary stop levels (⟨token, pos⟩ :: rest)) e rest := by
  cases token with
  | punct p => cases h
  | _ =>
    rw [parsePrimary.eq_def]
    dsimp only
    rw [h]
    rfl

theorem reads_primary_group (pos close : Nat)
    (h : Reads (parseConditional stop levels words) e (⟨.punct .closeParen, close⟩ :: rest)) :
    Reads (parsePrimary stop levels (⟨.punct .openParen, pos⟩ :: words)) e rest := by
  obtain ⟨_, hok⟩ := h.exists_ok
  rw [parsePrimary, hok]
  rfl

theorem reads_primary_array (pos : Nat) {items : List Expr}
    (h : Reads (parseList stop levels .closeBracket words) items rest) :
    Reads (parsePrimary stop levels (⟨.punct .openBracket, pos⟩ :: words)) (.array items)
      rest := by
  obtain ⟨_, hok⟩ := h.exists_ok
  rw [parsePrimary, hok]
  rfl

theorem reads_operand {object : Expr} (h : Reads (parsePrimary stop levels words) object more)
    (hmore : GoesOn (parsePostfixes stop levels object more) e rest) :
    Reads (parsePostfix stop levels words) e rest := by
  obtain ⟨_, hok⟩ := h.exists_ok
  obtain ⟨_, hwhole⟩ := hmore.exists_ok
  rw [parsePostfix, hok, ok_bind, hwhole]
  rfl

variable {object : Expr}

theorem goesOn_member {key : String} (dot pos : Nat)
    (h : GoesOn (parsePostfixes stop levels (.member object key) words) e rest) :
    GoesOn (parsePostfixes stop levels object (⟨.punct .dot, dot⟩ :: ⟨.ident key, pos⟩ :: words))
      e rest := by
  obtain ⟨_, hok⟩ := h.exists_ok
  rw [parsePostfixes, hok]
  rfl

theorem goesOn_index {key : Expr} (pos close : Nat)
    (hkey : Reads (parseConditional stop levels words) key (⟨.punct .closeBracket, close⟩ :: more))
    (h : GoesOn (parsePostfixes stop levels (.index object key) more) e rest) :
    GoesOn (parsePostfixes stop levels object (⟨.punct .openBracket, pos⟩ :: words)) e rest := by
  obtain ⟨_, hok⟩ := hkey.exists_ok
  obtain ⟨_, hwhole⟩ := h.exists_ok
  rw [parsePostfixes, hok, ok_bind, expect_cons, ok_bind, hwhole]
  rfl

theorem goesOn_call {args : List Expr} (pos : Nat)
    (hargs : Reads (parseList stop levels .closeParen words) args more)
    (h : GoesOn (parsePostfixes stop levels (.call object args) more) e rest) :
    GoesOn (parsePostfixes stop levels object (⟨.punct .openParen, pos⟩ :: words)) e rest := by
  obtain ⟨_, hok⟩ := hargs.exists_ok
  obtain ⟨_, hwhole⟩ := h.exists_ok
  rw [parsePostfixes, hok, ok_bind, hwhole]
  rfl

theorem goesOn_postfixes_stop (h : postfixNext words = false) :
    GoesOn (parsePostfixes stop levels object words) object words := by
  rw [parsePostfixes.eq_def]
  split
  all_goals first | cases h | rfl

/-! ## Operators -/

/-- No operand starts with a prefix operator or another mark than an opening one. -/
theorem exists_start_of_reads_operand (h : Reads (parsePostfix stop levels words) e rest) :
    ∃ word after, words = word :: after ∧
      ∀ p, word.token = .punct p → p = .openParen ∨ p = .openBracket := by
  obtain ⟨_, hok⟩ := h.exists_ok
  rw [parsePostfix] at hok
  obtain ⟨start, hstart, -⟩ := bind_eq_ok.1 hok
  rw [parsePrimary.eq_def] at hstart
  split at hstart
  · cases hstart
  · exact ⟨_, _, rfl, fun p hp => .inl (Token.punct.inj hp).symm⟩
  · exact ⟨_, _, rfl, fun p hp => .inr (Token.punct.inj hp).symm⟩
  · rename_i word after _ _ _
    refine ⟨word, after, rfl, fun p hp => ?_⟩
    rw [hp] at hstart
    cases hstart

theorem reads_unary_of_operand (h : Reads (parsePostfix stop levels words) e rest) :
    Reads (parseUnary stop (levels + 1) words) e rest := by
  obtain ⟨⟨token, pos⟩, after, rfl, hstart⟩ := exists_start_of_reads_operand h
  rw [parseUnary.eq_def]
  cases token with
  | punct p =>
    have hp : p.unary? = none := by
      rcases hstart p rfl with rfl | rfl <;> rfl
    dsimp only
    rw [hp]
    exact h
  | _ => exact h

theorem eat?_eq_none_of_reads_unary {close : Punct}
    (hclose : close = .closeParen ∨ close = .closeBracket)
    (h : Reads (parseUnary stop levels words) e rest) : eat? close words = none := by
  obtain ⟨_, hok⟩ := h.exists_ok
  rw [eat?.eq_def]
  split
  · rename_i p pos after
    refine if_neg ?_
    rintro rfl
    cases levels with
    | zero =>
      rw [parseUnary] at hok
      cases hok
    | succ levels =>
      have hunary : close.unary? = none := by rcases hclose with rfl | rfl <;> rfl
      rw [parseUnary.eq_def] at hok
      dsimp only at hok
      rw [hunary] at hok
      obtain ⟨_, _, hwords, hstart⟩ := exists_start_of_reads_operand (.of_ok hok)
      obtain ⟨rfl, -⟩ := List.cons.inj hwords
      rcases hclose with rfl | rfl <;> rcases hstart _ rfl with h | h <;> cases h
  · rfl

theorem reads_unary_operator {p : Punct} {op : UnaryOp} (hp : p.unary? = some op)
    (pos : Nat) (h : Reads (parseUnary stop levels words) e rest) :
    Reads (parseUnary stop (levels + 1) (⟨.punct p, pos⟩ :: words)) (.unary op e) rest := by
  obtain ⟨_, hok⟩ := h.exists_ok
  rw [parseUnary.eq_def]
  dsimp only
  rw [hp]
  dsimp only
  rw [hok]
  rfl

variable {left right : Expr}

theorem reads_binary (hleft : Reads (parseUnary stop levels words) left more)
    (h : GoesOn (parseOperators stop levels least left more) e rest) :
    Reads (parseBinary stop levels least words) e rest := by
  obtain ⟨_, hok⟩ := hleft.exists_ok
  obtain ⟨_, hwhole⟩ := h.exists_ok
  rw [parseBinary, hok, ok_bind, hwhole]
  rfl

theorem goesOn_operator {p : Punct} {op : BinaryOp} (hp : p.binary? = some op)
    (hleast : least ≤ op.precedence) (pos : Nat)
    (hright : Reads (parseBinary stop levels (op.precedence + 1) words) right more)
    (h : GoesOn (parseOperators stop levels least (.binary op left right) more) e rest) :
    GoesOn (parseOperators stop levels least left (⟨.punct p, pos⟩ :: words)) e rest := by
  obtain ⟨_, hok⟩ := hright.exists_ok
  obtain ⟨_, hwhole⟩ := h.exists_ok
  rw [parseOperators.eq_def]
  dsimp only
  rw [hp]
  dsimp only
  rw [if_neg (Nat.not_lt.2 hleast), hok, ok_bind, hwhole]
  rfl

theorem goesOn_operators_stop (h : ∀ op ∈ binaryNext? words, op.precedence < least) :
    GoesOn (parseOperators stop levels least left words) left words := by
  rw [parseOperators.eq_def]
  split
  · rename_i p pos rest
    split
    · rename_i op hop
      rw [if_pos (h op hop)]
      rfl
    · rfl
  · rfl

/-! ## Branches and lists -/

theorem reads_conditional_of_binary (h : Reads (parseBinary stop levels 0 words) e rest)
    (hrest : eat? .question rest = none) :
    Reads (parseConditional stop (levels + 1) words) e rest := by
  obtain ⟨_, hok⟩ := h.exists_ok
  rw [parseConditional, hok, ok_bind, hrest]
  rfl

variable {test yes no : Expr} {afterTest afterYes : List Placed}

theorem reads_conditional (question colon : Nat)
    (htest : Reads (parseBinary stop levels 0 words) test
      (⟨.punct .question, question⟩ :: afterTest))
    (hyes : Reads (parseConditional stop levels afterTest) yes
      (⟨.punct .colon, colon⟩ :: afterYes))
    (hno : Reads (parseConditional stop levels afterYes) no rest) :
    Reads (parseConditional stop (levels + 1) words) (.conditional test yes no) rest := by
  obtain ⟨_, htest⟩ := htest.exists_ok
  obtain ⟨_, hyes⟩ := hyes.exists_ok
  obtain ⟨_, hno⟩ := hno.exists_ok
  rw [parseConditional, htest, ok_bind, eat?_cons]
  dsimp only
  rw [hyes, ok_bind, expect_cons, ok_bind, hno]
  rfl

/-- No expression starts with a closing mark. -/
theorem eat?_eq_none_of_reads {close : Punct} (hclose : close = .closeParen ∨ close = .closeBracket)
    (h : Reads (parseConditional stop levels words) e rest) : eat? close words = none := by
  obtain ⟨_, hok⟩ := h.exists_ok
  cases levels with
  | zero =>
    rw [parseConditional] at hok
    cases hok
  | succ levels =>
    rw [parseConditional] at hok
    obtain ⟨test, htest, -⟩ := bind_eq_ok.1 hok
    rw [parseBinary] at htest
    obtain ⟨left, hleft, -⟩ := bind_eq_ok.1 htest
    exact eat?_eq_none_of_reads_unary hclose (.of_ok hleft)

theorem reads_list_nil (close : Punct) (pos : Nat) :
    Reads (parseList stop levels close (⟨.punct close, pos⟩ :: rest)) [] rest := by
  rw [parseList, eat?_cons]
  rfl

theorem reads_list_of_items {close : Punct} (hclose : close = .closeParen ∨ close = .closeBracket)
    {items : List Expr} (h : Reads (parseItems stop levels close words) items rest) :
    Reads (parseList stop levels close words) items rest := by
  obtain ⟨_, hok⟩ := h.exists_ok
  rw [parseItems] at hok
  obtain ⟨_, hitem, -⟩ := bind_eq_ok.1 hok
  rw [parseList, eat?_eq_none_of_reads hclose (.of_ok hitem)]
  exact h

theorem reads_items_last {close : Punct} (pos : Nat)
    (h : Reads (parseConditional stop levels words) e (⟨.punct close, pos⟩ :: rest)) :
    Reads (parseItems stop levels close words) [e] rest := by
  obtain ⟨_, hok⟩ := h.exists_ok
  rw [parseItems, hok, ok_bind, eat?_cons]
  rfl

theorem reads_items_cons {close : Punct} (hclose : close ≠ .comma) {items : List Expr}
    (pos : Nat)
    (h : Reads (parseConditional stop levels words) e (⟨.punct .comma, pos⟩ :: more))
    (hitems : Reads (parseItems stop levels close more) items rest) :
    Reads (parseItems stop levels close words) (e :: items) rest := by
  obtain ⟨_, hok⟩ := h.exists_ok
  obtain ⟨_, hitems⟩ := hitems.exists_ok
  have hnone : eat? close (⟨.punct .comma, pos⟩ :: more) = none := if_neg hclose
  rw [parseItems, hok, ok_bind, hnone]
  dsimp only
  rw [expect_cons, ok_bind, hitems]
  rfl

end FormSchema.Expr
