import FormSchema.Expr.Token
import FormSchema.Expr.Coercion

/-!
Reading an expression by recursive descent with one level per precedence.  Each step takes at least
one word, so that the number of words left bounds the work; how deeply steps may nest is a limit of
the language, and the levels that are left are handed down.
-/

namespace FormSchema.Expr

/-- Something read from the start of some words, and the words after it. -/
structure Parsed (α : Type) (words : List Placed) where
  value : α
  rest : List Placed
  shorter : rest.length < words.length

/-- The same value, read from more words. -/
def Parsed.after {α : Type} {inner words : List Placed} (p : Parsed α inner)
    (h : inner.length ≤ words.length) : Parsed α words :=
  ⟨p.value, p.rest, Nat.lt_of_lt_of_le p.shorter h⟩

/-- The position of the next word; `stop` is the position of the end. -/
def offset (stop : Nat) : List Placed → Nat
  | [] => stop
  | word :: _ => word.offset

def expected {α : Type} (stop : Nat) (what : Expected) (words : List Placed) :
    Except SyntaxError α :=
  .error ⟨.expected what (words.head?.map Placed.token), offset stop words⟩

/-- The words after a punctuation mark, if it comes next. -/
def eat? (p : Punct) :
    (words : List Placed) → Option { rest : List Placed // rest.length < words.length }
  | ⟨.punct q, _⟩ :: rest => if p = q then some ⟨rest, Nat.lt_succ_self _⟩ else none
  | _ => none

def expect (stop : Nat) (p : Punct) (words : List Placed) :
    Except SyntaxError { rest : List Placed // rest.length < words.length } :=
  match eat? p words with
  | some rest => .ok rest
  | none => expected stop (.punct p) words

def ofWord (token : Token) : Except SyntaxFault Expr :=
  match token with
  | .number x => .ok (.literal (.ofFloat x))
  | .str s => .ok (.literal (.str s))
  | .deref pointer => .ok (.deref pointer)
  | .ident "true" => .ok (.literal (.bool true))
  | .ident "false" => .ok (.literal (.bool false))
  | .ident "null" | .ident "undefined" => .ok (.literal .null)
  | .ident source =>
    match Name.ofSource? source with
    | some n => .ok (.name n)
    | none => .error (.unknownName source)
  | .punct p => .error (.unexpected p)

mutual

/-- A whole expression: a test with its two branches, or a binary expression.  It nests one level
deep. -/
def parseConditional (stop : Nat) (levels : Nat) (words : List Placed) :
    Except SyntaxError (Parsed Expr words) :=
  match levels with
  | 0 => .error ⟨.tooDeep, offset stop words⟩
  | levels + 1 => do
    let test ← parseBinary stop levels 0 words
    match eat? .question test.rest with
    | none => return test
    | some after => do
      let yes ← parseConditional stop levels after.1
      let middle ← expect stop .colon yes.rest
      let no ← parseConditional stop levels middle.1
      return ⟨.conditional test.value yes.value no.value, no.rest, by
        have := test.shorter; have := after.2; have := yes.shorter; have := middle.2
        have := no.shorter; omega⟩
termination_by (words.length, 4)
decreasing_by
  · decreasing_tactic
  · have := test.shorter; have := after.2; exact Prod.Lex.left _ _ (by omega)
  · have := test.shorter; have := after.2; have := yes.shorter; have := middle.2
    exact Prod.Lex.left _ _ (by omega)

/-- An operand and the operators after it that bind at least as tightly as `least`. -/
def parseBinary (stop levels least : Nat) (words : List Placed) :
    Except SyntaxError (Parsed Expr words) := do
  let left ← parseUnary stop levels words
  let whole ← parseOperators stop levels least left.value left.rest
  return ⟨whole.1, whole.2.1, Nat.lt_of_le_of_lt whole.2.2 left.shorter⟩
termination_by (words.length, 3)
decreasing_by
  · decreasing_tactic
  · exact Prod.Lex.left _ _ left.shorter

def parseOperators (stop levels least : Nat) (left : Expr) (words : List Placed) :
    Except SyntaxError (Expr × { rest : List Placed // rest.length ≤ words.length }) :=
  match words with
  | ⟨.punct p, pos⟩ :: rest =>
    match p.binary? with
    | some op =>
      if op.precedence < least then .ok (left, ⟨⟨.punct p, pos⟩ :: rest, Nat.le_refl _⟩)
      else do
        let right ← parseBinary stop levels (op.precedence + 1) rest
        let whole ← parseOperators stop levels least (.binary op left right.value) right.rest
        return (whole.1, ⟨whole.2.1, by
          have := right.shorter; have := whole.2.2; simp only [List.length_cons]; omega⟩)
    | none => .ok (left, ⟨⟨.punct p, pos⟩ :: rest, Nat.le_refl _⟩)
  | words => .ok (left, ⟨words, Nat.le_refl _⟩)
termination_by (words.length, 0)
decreasing_by
  · exact Prod.Lex.left _ _ (by simp)
  · have := right.shorter; exact Prod.Lex.left _ _ (by simp only [List.length_cons]; omega)

/-- An operand with the prefix operators before it and the postfixes after it.  It nests one level
deep. -/
def parseUnary (stop levels : Nat) (words : List Placed) :
    Except SyntaxError (Parsed Expr words) :=
  match levels with
  | 0 => .error ⟨.tooDeep, offset stop words⟩
  | levels + 1 =>
    match words with
    | ⟨.punct p, pos⟩ :: rest =>
      match p.unary? with
      | some op => do
        let operand ← parseUnary stop levels rest
        return ⟨.unary op operand.value, operand.rest, by
          have := operand.shorter; simp only [List.length_cons]; omega⟩
      | none => parsePostfix stop levels (⟨.punct p, pos⟩ :: rest)
    | words => parsePostfix stop levels words
termination_by (words.length, 2)
decreasing_by
  · exact Prod.Lex.left _ _ (by simp)
  · exact Prod.Lex.right _ (by simp)
  · exact Prod.Lex.right _ (by simp)

def parsePostfix (stop levels : Nat) (words : List Placed) :
    Except SyntaxError (Parsed Expr words) := do
  let start ← parsePrimary stop levels words
  let whole ← parsePostfixes stop levels start.value start.rest
  return ⟨whole.1, whole.2.1, Nat.lt_of_le_of_lt whole.2.2 start.shorter⟩
termination_by (words.length, 1)
decreasing_by
  · exact Prod.Lex.right _ (by simp)
  · exact Prod.Lex.left _ _ start.shorter

/-- Goes on from an object or a function: properties, indices and calls. -/
def parsePostfixes (stop levels : Nat) (object : Expr) (words : List Placed) :
    Except SyntaxError (Expr × { rest : List Placed // rest.length ≤ words.length }) :=
  match words with
  | ⟨.punct .dot, _⟩ :: ⟨.ident key, _⟩ :: rest => do
    let whole ← parsePostfixes stop levels (.member object key) rest
    return (whole.1, ⟨whole.2.1, by have := whole.2.2; simp only [List.length_cons]; omega⟩)
  | ⟨.punct .dot, _⟩ :: rest => expected stop .propertyName rest
  | ⟨.punct .openBracket, _⟩ :: rest => do
    let key ← parseConditional stop levels rest
    let after ← expect stop .closeBracket key.rest
    let whole ← parsePostfixes stop levels (.index object key.value) after.1
    return (whole.1, ⟨whole.2.1, by
      have := key.shorter; have := after.2; have := whole.2.2; simp only [List.length_cons]; omega⟩)
  | ⟨.punct .openParen, _⟩ :: rest => do
    let args ← parseList stop levels .closeParen rest
    let whole ← parsePostfixes stop levels (.call object args.value) args.rest
    return (whole.1, ⟨whole.2.1, by
      have := args.shorter; have := whole.2.2; simp only [List.length_cons]; omega⟩)
  | words => .ok (object, ⟨words, Nat.le_refl _⟩)
termination_by (words.length, 0)
decreasing_by
  · exact Prod.Lex.left _ _ (by simp only [List.length_cons]; omega)
  · exact Prod.Lex.left _ _ (by simp)
  · have := key.shorter
    have := after.2
    exact Prod.Lex.left _ _ (by simp only [List.length_cons]; omega)
  · exact Prod.Lex.left _ _ (by simp)
  · have := args.shorter; exact Prod.Lex.left _ _ (by simp only [List.length_cons]; omega)

/-- A word that is an expression by itself, a group or an array. -/
def parsePrimary (stop levels : Nat) (words : List Placed) :
    Except SyntaxError (Parsed Expr words) :=
  match words with
  | [] => .error ⟨.unexpectedEnd, stop⟩
  | ⟨.punct .openParen, _⟩ :: rest => do
    let inner ← parseConditional stop levels rest
    let after ← expect stop .closeParen inner.rest
    return ⟨inner.value, after.1, by
      have := inner.shorter; have := after.2; simp only [List.length_cons]; omega⟩
  | ⟨.punct .openBracket, _⟩ :: rest => do
    let items ← parseList stop levels .closeBracket rest
    return ⟨.array items.value, items.rest, by
      have := items.shorter; simp only [List.length_cons]; omega⟩
  | word :: rest =>
    match ofWord word.token with
    | .ok e => .ok ⟨e, rest, Nat.lt_succ_self _⟩
    | .error fault => .error ⟨fault, word.offset⟩
termination_by (words.length, 0)
decreasing_by
  · exact Prod.Lex.left _ _ (by simp)
  · exact Prod.Lex.left _ _ (by simp)

/-- Expressions with commas between them, up to and with the closing mark. -/
def parseList (stop levels : Nat) (close : Punct) (words : List Placed) :
    Except SyntaxError (Parsed (List Expr) words) :=
  match eat? close words with
  | some after => .ok ⟨[], after.1, after.2⟩
  | none => parseItems stop levels close words
termination_by (words.length, 6)
decreasing_by exact Prod.Lex.right _ (by simp)

/-- At least one expression, with commas between them, up to and with the closing mark. -/
def parseItems (stop levels : Nat) (close : Punct) (words : List Placed) :
    Except SyntaxError (Parsed (List Expr) words) := do
  let item ← parseConditional stop levels words
  match eat? close item.rest with
  | some after => return ⟨[item.value], after.1, Nat.lt_trans after.2 item.shorter⟩
  | none => do
    let after ← expect stop .comma item.rest
    let items ← parseItems stop levels close after.1
    return ⟨item.value :: items.value, items.rest, by
      have := item.shorter; have := after.2; have := items.shorter; omega⟩
termination_by (words.length, 5)
decreasing_by
  · exact Prod.Lex.right _ (by simp)
  · have := item.shorter; have := after.2; exact Prod.Lex.left _ _ (by omega)

end

/-- Reads all the words of a source that ends at position `stop`. -/
def ofWords (stop : Nat) (words : List Placed) : Except SyntaxError Expr :=
  if words.isEmpty then .error ⟨.empty, 0⟩
  else do
    let whole ← parseConditional stop nestingLevels words
    if whole.rest.isEmpty then return whole.value else expected stop .theEnd whole.rest

def parseChars (source : List Char) : Except SyntaxError Expr := do
  let stop := Text.byteLength source
  ofWords stop ((← Token.scan source).map (Spanned.placed stop))

def parse (source : String) : Except SyntaxError Expr := parseChars source.toList

end FormSchema.Expr
