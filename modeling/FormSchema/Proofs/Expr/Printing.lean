import FormSchema.Proofs.Expr.Productions
import FormSchema.Proofs.Expr.Words

/-!
Expressions that are written out with as few parentheses as precedence allows.  The parser reads
such a text as the expression that it has been written from.
-/

namespace FormSchema

open Token (backquote)

/-- The mark of a prefix operator. -/
def UnaryOp.punct : UnaryOp → Punct
  | .not => .not
  | .neg => .minus
  | .plus => .plus

/-- The mark of a binary operator. -/
def BinaryOp.punct : BinaryOp → Punct
  | .coalesce => .coalesce
  | .or => .or
  | .and => .and
  | .looseEq => .looseEq
  | .looseNe => .looseNe
  | .strictEq => .strictEq
  | .strictNe => .strictNe
  | .lt => .lt
  | .le => .le
  | .gt => .gt
  | .ge => .ge
  | .add => .plus
  | .sub => .minus
  | .mul => .times
  | .div => .slash
  | .rem => .percent

theorem UnaryOp.unary?_punct (op : UnaryOp) : op.punct.unary? = some op := by cases op <;> rfl

theorem BinaryOp.binary?_punct (op : BinaryOp) : op.punct.binary? = some op := by cases op <;> rfl

theorem BinaryOp.precedence_pos (op : BinaryOp) : 1 ≤ op.precedence := by cases op <;> decide

theorem BinaryOp.precedence_lt (op : BinaryOp) : op.precedence < 8 := by cases op <;> decide

namespace Expr

/-! ## The text of an expression -/

/-- How tightly the outermost part of an expression binds: branches least, then the binary operators
by precedence, prefix operators, and all others most. -/
def rank : Expr → Nat
  | .conditional .. => 0
  | .binary op .. => op.precedence
  | .unary .. => 8
  | _ => 9

/-- The words of an expression in a place for those that bind at least as tightly as `least`. -/
def grouped (least : Nat) (e : Expr) (words : List Word) : List Word :=
  if e.rank < least then .punct .openParen :: (words ++ [.punct .closeParen]) else words

def literalWords : Json → List Word
  | .null => [.ident "null"]
  | .bool true => [.ident "true"]
  | .bool false => [.ident "false"]
  | .num (.int n) => [.number n.toNat]
  | .str s => [.str s]
  | _ => []

mutual

def words : Expr → List Word
  | .literal value => literalWords value
  | .name n => [.ident n.source]
  | .deref pointer => [.deref pointer]
  | .array items =>
    .punct .openBracket :: ([.punct .comma].intercalate (wordsList items) ++ [.punct .closeBracket])
  | .member object key => grouped 9 object object.words ++ [.punct .dot, .ident key]
  | .index object key =>
    grouped 9 object object.words ++ .punct .openBracket :: (key.words ++ [.punct .closeBracket])
  | .call callee args =>
    grouped 9 callee callee.words ++
      .punct .openParen :: ([.punct .comma].intercalate (wordsList args) ++ [.punct .closeParen])
  | .unary op operand => .punct op.punct :: grouped 8 operand operand.words
  | .binary op left right =>
    grouped op.precedence left left.words ++
      .punct op.punct :: grouped (op.precedence + 1) right right.words
  | .conditional test yes no =>
    grouped 1 test test.words ++
      .punct .question :: (yes.words ++ .punct .colon :: no.words)

def wordsList : List Expr → List (List Word)
  | [] => []
  | e :: es => e.words :: wordsList es

end

/-- The text of an expression: its words with a space between each two. -/
def print (e : Expr) : String := String.ofList (Word.spell e.words)

/-- One more level if there are parentheses around an expression. -/
def groupedNesting (least : Nat) (e : Expr) (nesting : Nat) : Nat :=
  if e.rank < least then nesting + 1 else nesting

mutual

/-- How deeply groups, brackets, calls, branches and prefix operators nest in the text of an
expression. -/
def nesting : Expr → Nat
  | .literal _ | .name _ | .deref _ => 0
  | .array items => nestingList items
  | .member object _ => groupedNesting 9 object object.nesting
  | .index object key => max (groupedNesting 9 object object.nesting) (key.nesting + 1)
  | .call callee args => max (groupedNesting 9 callee callee.nesting) (nestingList args)
  | .unary _ operand => groupedNesting 8 operand operand.nesting + 1
  | .binary op left right =>
    max (groupedNesting op.precedence left left.nesting)
      (groupedNesting (op.precedence + 1) right right.nesting)
  | .conditional test yes no =>
    max (groupedNesting 1 test test.nesting) (max yes.nesting no.nesting + 1)

/-- How deeply expressions between brackets or parentheses nest, with these around them. -/
def nestingList : List Expr → Nat
  | [] => 0
  | e :: es => max (e.nesting + 1) (nestingList es)

end

-- Their equations are made here, and not by each of the proofs below at the same time.
attribute [local simp] words nesting

/-- The values that have a literal. -/
inductive IsLiteral : Json → Prop
  | null : IsLiteral .null
  | bool (b : Bool) : IsLiteral (.bool b)
  | str (s : String) : IsLiteral (.str s)
  | int (n : Nat) (h : n ≤ 2 ^ 53) : IsLiteral (.num (.int n))

/-- The expressions that have a text. -/
inductive Printable : Expr → Prop
  | literal {value : Json} (h : IsLiteral value) : Printable (.literal value)
  | name (n : Name) : Printable (.name n)
  | deref {pointer : String} (h : backquote ∉ pointer.toList) : Printable (.deref pointer)
  | array {items : List Expr} (h : ∀ item ∈ items, Printable item) : Printable (.array items)
  | member {object : Expr} {key : String} (hobject : Printable object)
      (hkey : Word.IsName key.toList) : Printable (.member object key)
  | index {object key : Expr} (hobject : Printable object) (hkey : Printable key) :
      Printable (.index object key)
  | call {callee : Expr} {args : List Expr} (hcallee : Printable callee)
      (hargs : ∀ arg ∈ args, Printable arg) : Printable (.call callee args)
  | unary (op : UnaryOp) {operand : Expr} (h : Printable operand) : Printable (.unary op operand)
  | binary (op : BinaryOp) {left right : Expr} (hleft : Printable left)
      (hright : Printable right) : Printable (.binary op left right)
  | conditional {test yes no : Expr} (htest : Printable test) (hyes : Printable yes)
      (hno : Printable no) : Printable (.conditional test yes no)

theorem wordsList_eq_map (items : List Expr) : wordsList items = items.map words := by
  induction items with
  | nil => rfl
  | cons e items ih => rw [wordsList, ih, List.map_cons]

/-! ## Each word is read back -/

theorem readable_grouped {least : Nat} {e : Expr} {words : List Word}
    (h : ∀ word ∈ words, word.Readable) : ∀ word ∈ grouped least e words, word.Readable := by
  rw [grouped]
  split
  · simpa [or_imp, forall_and] using h
  · exact h

theorem readable_intercalate {items : List (List Word)}
    (h : ∀ item ∈ items, ∀ word ∈ item, word.Readable) :
    ∀ word ∈ [Word.punct .comma].intercalate items, word.Readable := by
  induction items with
  | nil => simp
  | cons item items ih =>
    obtain ⟨hitem, hitems⟩ := List.forall_mem_cons.1 h
    cases items with
    | nil => simpa using hitem
    | cons next items =>
      simpa [List.intercalate_cons_cons, or_imp, forall_and] using ⟨hitem, ih hitems⟩

theorem readable_literalWords {value : Json} (h : IsLiteral value) :
    ∀ word ∈ literalWords value, word.Readable := by
  cases h with
  | null =>
    exact List.forall_mem_singleton.2
      (Word.isName_of_letters (by simp) (by simp [Text.isPlainLetter]))
  | bool b =>
    cases b <;>
      exact List.forall_mem_singleton.2
        (Word.isName_of_letters (by simp) (by simp [Text.isPlainLetter]))
  | str s => simp [literalWords, Word.Readable]
  | int n hn => simp [literalWords, Word.Readable]

theorem isName_source (n : Name) : Word.IsName n.source.toList :=
  Word.isName_of_letters (by cases n <;> simp [Name.source])
    (by cases n <;> simp [Name.source, Text.isPlainLetter])

theorem readable_words {e : Expr} (h : e.Printable) : ∀ word ∈ e.words, word.Readable := by
  induction h with
  | literal h => exact readable_literalWords h
  | name n => simpa [words, Word.Readable] using isName_source n
  | deref h => simpa [words, Word.Readable] using h
  | array h ih =>
    have hitems := readable_intercalate (List.forall_mem_map.2 ih)
    simpa [words, wordsList_eq_map, or_imp, forall_and] using hitems
  | member hobject hkey ih =>
    simpa [words, or_imp, forall_and] using ⟨readable_grouped ih, hkey⟩
  | index hobject hkey ihobject ihkey =>
    simpa [words, or_imp, forall_and] using ⟨readable_grouped ihobject, ihkey⟩
  | call hcallee hargs ihcallee ihargs =>
    have hitems := readable_intercalate (List.forall_mem_map.2 ihargs)
    simpa [words, wordsList_eq_map, or_imp, forall_and] using
      ⟨readable_grouped ihcallee, hitems⟩
  | unary op h ih => simpa [words, or_imp, forall_and] using readable_grouped ih
  | binary op hleft hright ihleft ihright =>
    simpa [words, or_imp, forall_and] using ⟨readable_grouped ihleft, readable_grouped ihright⟩
  | conditional htest hyes hno ihtest ihyes ihno =>
    simpa [words, or_imp, forall_and] using ⟨readable_grouped ihtest, ihyes, ihno⟩

/-! ## What some words are read as

The parser goes on from an operand as far as it can, so that what it makes of some words depends on
those after them.  Each kind of reading below is therefore stated with the rest that comes next. -/

/-- Whether these are the words of a text. -/
def Spells (spans : List Placed) (words : List Word) : Prop :=
  spans.map Placed.token = words.map Word.token

theorem Spells.cons {spans : List Placed} {word : Word} {words : List Word}
    (h : Spells spans (word :: words)) :
    ∃ pos tail, spans = ⟨word.token, pos⟩ :: tail ∧ Spells tail words := by
  obtain ⟨⟨_, pos⟩, tail, rfl, rfl, htail⟩ := List.map_eq_cons_iff.1 h
  exact ⟨pos, tail, rfl, htail⟩

theorem Spells.append {spans : List Placed} {left right : List Word}
    (h : Spells spans (left ++ right)) :
    ∃ before after, spans = before ++ after ∧ Spells before left ∧ Spells after right := by
  rw [Spells, List.map_append] at h
  exact List.map_eq_append_iff.1 h

theorem Spells.nil {spans : List Placed} (h : Spells spans []) : spans = [] :=
  List.map_eq_nil_iff.1 h

/-- What stands between two marks. -/
theorem Spells.between {spans : List Placed} {p q : Punct} {words : List Word}
    (h : Spells spans (.punct p :: (words ++ [.punct q]))) :
    ∃ opened inner closed, spans = ⟨.punct p, opened⟩ :: (inner ++ [⟨.punct q, closed⟩]) ∧
      Spells inner words := by
  obtain ⟨opened, _, rfl, htail⟩ := h.cons
  obtain ⟨inner, _, rfl, hinner, hclosed⟩ := htail.append
  obtain ⟨closed, _, rfl, hend⟩ := hclosed.cons
  obtain rfl := hend.nil
  exact ⟨opened, inner, closed, rfl, hinner⟩

/-- The words are read as an operand, which any postfixes go on from. -/
def ReadsOperand (words : List Word) (nesting : Nat) (e : Expr) : Prop :=
  ∀ ⦃stop levels : Nat⦄ ⦃spans rest more : List Placed⦄ ⦃whole : Expr⦄, 2 * nesting ≤ levels →
    Spells spans words → GoesOn (parsePostfixes stop levels e rest) whole more →
      Reads (parsePostfix stop levels (spans ++ rest)) whole more

/-- The words are read as an operand that has its prefix operators and postfixes. -/
def ReadsUnary (words : List Word) (nesting : Nat) (e : Expr) : Prop :=
  ∀ ⦃stop levels : Nat⦄ ⦃spans rest : List Placed⦄, 2 * nesting + 1 ≤ levels →
    Spells spans words → postfixNext rest = false →
      Reads (parseUnary stop levels (spans ++ rest)) e rest

/-- The words are read as a left operand, which any operators that bind at most as tightly as `rank`
go on from. -/
def ReadsBinary (rank : Nat) (words : List Word) (nesting : Nat) (e : Expr) : Prop :=
  ∀ ⦃stop levels least : Nat⦄ ⦃spans rest more : List Placed⦄ ⦃whole : Expr⦄,
    2 * nesting + 1 ≤ levels → least ≤ rank → Spells spans words → postfixNext rest = false →
      (∀ op ∈ binaryNext? rest, op.precedence ≤ rank) →
        GoesOn (parseOperators stop levels least e rest) whole more →
          Reads (parseBinary stop levels least (spans ++ rest)) whole more

/-- Whether no expression goes on with these words. -/
structure Ends (rest : List Placed) : Prop where
  postfixes : postfixNext rest = false
  binary : binaryNext? rest = none
  question : eat? .question rest = none

/-- The words are read as a whole expression. -/
def ReadsWhole (words : List Word) (nesting : Nat) (e : Expr) : Prop :=
  ∀ ⦃stop levels : Nat⦄ ⦃spans rest : List Placed⦄, 2 * nesting + 2 ≤ levels →
    Spells spans words → Ends rest → Reads (parseConditional stop levels (spans ++ rest)) e rest

section

variable {words : List Word} {n rank : Nat} {e : Expr}

theorem ReadsOperand.unary (h : ReadsOperand words n e) : ReadsUnary words n e := by
  intro stop levels spans rest hlevels hspans hrest
  obtain ⟨levels, rfl⟩ := Nat.exists_eq_add_of_le' (Nat.le_of_add_left_le hlevels)
  exact reads_unary_of_operand (h (by omega) hspans (goesOn_postfixes_stop hrest))

theorem ReadsUnary.binary (h : ReadsUnary words n e) (rank : Nat) : ReadsBinary rank words n e :=
  fun _ _ _ _ _ _ _ hlevels _ hspans hrest _ hmore => reads_binary (h hlevels hspans hrest) hmore

theorem ReadsBinary.mono {rank' : Nat} (h : ReadsBinary rank words n e) (hrank : rank' ≤ rank) :
    ReadsBinary rank' words n e :=
  fun _ _ _ _ _ _ _ hlevels hleast hspans hrest hops hmore =>
    h hlevels (hleast.trans hrank) hspans hrest (fun op hop => (hops op hop).trans hrank) hmore

theorem ReadsBinary.whole (h : ReadsBinary rank words n e) : ReadsWhole words n e := by
  intro stop levels spans rest hlevels hspans hrest
  obtain ⟨levels, rfl⟩ := Nat.exists_eq_add_of_le' (Nat.le_of_add_left_le hlevels)
  have hnone : ∀ op : BinaryOp, op ∉ binaryNext? rest := by simp [hrest.binary]
  refine reads_conditional_of_binary ?_ hrest.question
  exact h (by omega) (Nat.zero_le _) hspans hrest.postfixes (fun op hop => (hnone op hop).elim)
    (goesOn_operators_stop fun op hop => (hnone op hop).elim)

theorem ends_cons {p : Punct} (pos : Nat) (rest : List Placed)
    (h : p = .closeParen ∨ p = .closeBracket ∨ p = .comma ∨ p = .colon) :
    Ends (⟨.punct p, pos⟩ :: rest) := by
  rcases h with rfl | rfl | rfl | rfl <;> exact ⟨rfl, rfl, rfl⟩

theorem ends_nil : Ends [] := ⟨rfl, rfl, rfl⟩

/-- A group is an operand, with one more level. -/
theorem ReadsWhole.group (h : ReadsWhole words n e) :
    ReadsOperand (.punct .openParen :: (words ++ [.punct .closeParen])) (n + 1) e := by
  intro stop levels spans rest more whole hlevels hspans hmore
  obtain ⟨opened, inner, closed, rfl, hinner⟩ := hspans.between
  rw [List.cons_append, List.append_assoc, List.singleton_append]
  refine reads_operand (reads_primary_group opened closed ?_) hmore
  exact h (by omega) hinner (ends_cons closed rest (.inl rfl))

end

/-- The words of an expression are read as that expression, at each level that it belongs to. -/
structure ReadsBack (e : Expr) : Prop where
  operand (h : 8 < e.rank) : ReadsOperand e.words e.nesting e
  unary (h : 8 ≤ e.rank) : ReadsUnary e.words e.nesting e
  binary (h : 0 < e.rank) : ReadsBinary e.rank e.words e.nesting e
  whole : ReadsWhole e.words e.nesting e

variable {e : Expr}

theorem ReadsOperand.readsBack (h : ReadsOperand e.words e.nesting e) : ReadsBack e where
  operand _ := h
  unary _ := h.unary
  binary _ := h.unary.binary _
  whole := (h.unary.binary 0).whole

theorem ReadsUnary.readsBack (h : ReadsUnary e.words e.nesting e) (hrank : e.rank ≤ 8) :
    ReadsBack e where
  operand hlt := absurd hlt (Nat.not_lt.2 hrank)
  unary _ := h
  binary _ := h.binary _
  whole := (h.binary 0).whole

theorem ReadsBinary.readsBack (h : ReadsBinary e.rank e.words e.nesting e) (hrank : e.rank < 8) :
    ReadsBack e where
  operand hlt := absurd hlt (Nat.not_lt.2 hrank.le)
  unary hle := absurd hrank (Nat.not_lt.2 hle)
  binary _ := h
  whole := h.whole

theorem ReadsWhole.readsBack (h : ReadsWhole e.words e.nesting e) (hrank : e.rank = 0) :
    ReadsBack e where
  operand hlt := absurd hlt (by omega)
  unary hle := absurd hle (by omega)
  binary hlt := absurd hlt (by omega)
  whole := h

namespace ReadsBack

theorem operand_grouped (h : ReadsBack e) :
    ReadsOperand (grouped 9 e e.words) (groupedNesting 9 e e.nesting) e := by
  rw [grouped, groupedNesting]
  split
  · exact h.whole.group
  · exact h.operand (by omega)

theorem unary_grouped (h : ReadsBack e) :
    ReadsUnary (grouped 8 e e.words) (groupedNesting 8 e e.nesting) e := by
  rw [grouped, groupedNesting]
  split
  · exact h.whole.group.unary
  · exact h.unary (by omega)

theorem binary_grouped (h : ReadsBack e) {least : Nat} (hleast : 0 < least) :
    ReadsBinary least (grouped least e e.words) (groupedNesting least e e.nesting) e := by
  rw [grouped, groupedNesting]
  split
  · exact h.whole.group.unary.binary least
  · exact (h.binary (by omega)).mono (by omega)

end ReadsBack

/-! ## Lists -/

variable {stop levels : Nat} {spans rest : List Placed} {items : List Expr}

theorem reads_items {close : Punct} (hclose : close = .closeParen ∨ close = .closeBracket)
    (pos : Nat) (hne : items ≠ []) (h : ∀ item ∈ items, ReadsBack item)
    (hlevels : 2 * nestingList items ≤ levels)
    (hspans : Spells spans ([.punct .comma].intercalate (wordsList items))) :
    Reads (parseItems stop levels close (spans ++ ⟨.punct close, pos⟩ :: rest)) items rest := by
  induction items generalizing spans with
  | nil => exact absurd rfl hne
  | cons e items ih =>
    obtain ⟨he, hitems⟩ := List.forall_mem_cons.1 h
    rw [nestingList] at hlevels
    cases items with
    | nil =>
      rw [wordsList, wordsList, List.intercalate_singleton] at hspans
      exact reads_items_last pos
        (he.whole (by omega) hspans (ends_cons _ _ (hclose.imp_right .inl)))
    | cons next items =>
      rw [wordsList, wordsList, List.intercalate_cons_cons, List.append_assoc,
        List.singleton_append, ← wordsList] at hspans
      obtain ⟨first, _, rfl, hfirst, hmore⟩ := hspans.append
      obtain ⟨comma, tail, rfl, htail⟩ := hmore.cons
      rw [List.append_assoc, List.cons_append]
      exact reads_items_cons (by rcases hclose with rfl | rfl <;> decide) comma
        (he.whole (by omega) hfirst (ends_cons _ _ (by simp)))
        (ih (List.cons_ne_nil _ _) hitems (by omega) htail)

theorem reads_list {close : Punct} (hclose : close = .closeParen ∨ close = .closeBracket)
    (pos : Nat) (h : ∀ item ∈ items, ReadsBack item)
    (hlevels : 2 * nestingList items ≤ levels)
    (hspans : Spells spans ([.punct .comma].intercalate (wordsList items))) :
    Reads (parseList stop levels close (spans ++ ⟨.punct close, pos⟩ :: rest)) items rest := by
  cases items with
  | nil =>
    obtain rfl := hspans.nil
    exact reads_list_nil close pos
  | cons e items =>
    exact reads_list_of_items hclose
      (reads_items hclose pos (List.cons_ne_nil _ _) h hlevels hspans)

/-! ## Expressions -/

theorem ofWord_source (n : Name) : ofWord (.ident n.source) = .ok (.name n) := by cases n <;> rfl

/-- A literal, a name and a pointer are one word. -/
theorem readsOperand_word {word : Word} (h : ofWord word.token = .ok e) (n : Nat) :
    ReadsOperand [word] n e := by
  intro stop levels spans rest more whole _ hspans hmore
  obtain ⟨pos, _, rfl, hend⟩ := hspans.cons
  obtain rfl := hend.nil
  exact reads_operand (reads_primary_ofWord pos h) hmore

theorem readsBack_word {word : Word} (hwords : e.words = [word])
    (h : ofWord word.token = .ok e) : ReadsBack e :=
  ReadsOperand.readsBack (hwords ▸ readsOperand_word h _)

theorem readsBack_literal {value : Json} (h : IsLiteral value) : ReadsBack (.literal value) := by
  refine ReadsOperand.readsBack ?_
  rw [words]
  cases h with
  | null => exact readsOperand_word rfl _
  | bool b => cases b <;> exact readsOperand_word rfl _
  | str s => exact readsOperand_word rfl _
  | int k hk =>
    obtain ⟨x, hx, hwhole⟩ := Number.exists_decimal?_repr hk
    have hword : ofWord (Word.number k).token = .ok (.literal (.num (.int k))) := by
      rw [Word.token, hx, ofWord, Option.getD_some, Json.ofFloat_of_wholeOfFloat? hk hwhole]
    exact readsOperand_word hword _

theorem readsBack_array (h : ∀ item ∈ items, ReadsBack item) : ReadsBack (.array items) := by
  refine ReadsOperand.readsBack fun stop levels spans rest more whole hlevels hspans hmore => ?_
  rw [words] at hspans
  rw [nesting] at hlevels
  obtain ⟨opened, inner, closed, rfl, hinner⟩ := hspans.between
  rw [List.cons_append, List.append_assoc, List.singleton_append]
  exact reads_operand
    (reads_primary_array opened (reads_list (.inr rfl) closed h hlevels hinner)) hmore

variable {object : Expr}

theorem readsBack_member (hobject : ReadsBack object) (key : String) :
    ReadsBack (.member object key) := by
  refine ReadsOperand.readsBack fun stop levels spans rest more whole hlevels hspans hmore => ?_
  rw [words] at hspans
  rw [nesting] at hlevels
  obtain ⟨before, _, rfl, hbefore, hafter⟩ := hspans.append
  obtain ⟨dot, _, rfl, hkey⟩ := hafter.cons
  obtain ⟨pos, _, rfl, hend⟩ := hkey.cons
  obtain rfl := hend.nil
  rw [List.append_assoc]
  exact hobject.operand_grouped hlevels hbefore (goesOn_member dot pos hmore)

theorem readsBack_index {key : Expr} (hobject : ReadsBack object) (hkey : ReadsBack key) :
    ReadsBack (.index object key) := by
  refine ReadsOperand.readsBack fun stop levels spans rest more whole hlevels hspans hmore => ?_
  rw [words] at hspans
  rw [nesting] at hlevels
  obtain ⟨before, _, rfl, hbefore, hafter⟩ := hspans.append
  obtain ⟨opened, inner, closed, rfl, hinner⟩ := hafter.between
  rw [List.append_assoc, List.cons_append, List.append_assoc, List.singleton_append]
  refine hobject.operand_grouped (by omega) hbefore (goesOn_index opened closed ?_ hmore)
  exact hkey.whole (by omega) hinner (ends_cons closed rest (by simp))

theorem readsBack_call (hobject : ReadsBack object) (hitems : ∀ item ∈ items, ReadsBack item) :
    ReadsBack (.call object items) := by
  refine ReadsOperand.readsBack fun stop levels spans rest more whole hlevels hspans hmore => ?_
  rw [words] at hspans
  rw [nesting] at hlevels
  obtain ⟨before, _, rfl, hbefore, hafter⟩ := hspans.append
  obtain ⟨opened, inner, closed, rfl, hinner⟩ := hafter.between
  rw [List.append_assoc, List.cons_append, List.append_assoc, List.singleton_append]
  exact hobject.operand_grouped (by omega) hbefore
    (goesOn_call opened (reads_list (.inl rfl) closed hitems (by omega) hinner) hmore)

theorem readsBack_unary (op : UnaryOp) (h : ReadsBack e) : ReadsBack (.unary op e) := by
  refine ReadsUnary.readsBack (fun stop levels spans rest hlevels hspans hrest => ?_) le_rfl
  rw [words] at hspans
  rw [nesting] at hlevels
  obtain ⟨levels, rfl⟩ := Nat.exists_eq_add_of_le' (Nat.le_of_add_left_le hlevels)
  obtain ⟨pos, _, rfl, hoperand⟩ := hspans.cons
  exact reads_unary_operator op.unary?_punct pos (h.unary_grouped (by omega) hoperand hrest)

theorem readsBack_binary (op : BinaryOp) {left right : Expr} (hleft : ReadsBack left)
    (hright : ReadsBack right) : ReadsBack (.binary op left right) := by
  refine ReadsBinary.readsBack (fun stop levels least spans rest more whole hlevels hleast hspans
    hrest hops hmore => ?_) op.precedence_lt
  rw [words] at hspans
  rw [nesting] at hlevels
  obtain ⟨before, _, rfl, hbefore, hoperator⟩ := hspans.append
  obtain ⟨pos, after, rfl, hafter⟩ := hoperator.cons
  rw [List.append_assoc, List.cons_append]
  have hpos : 0 < op.precedence + 1 := Nat.succ_pos _
  -- the right operand ends where no operator binds more tightly
  have hread : Reads (parseBinary stop levels (op.precedence + 1) (after ++ rest)) right rest :=
    hright.binary_grouped hpos (by omega) le_rfl hafter hrest
      (fun next hnext => Nat.le_succ_of_le (hops next hnext))
      (goesOn_operators_stop fun next hnext => Nat.lt_succ_of_le (hops next hnext))
  refine hleft.binary_grouped op.precedence_pos (by omega) hleast hbefore ?_ ?_
    (goesOn_operator op.binary?_punct hleast pos hread hmore)
  · cases op <;> rfl
  · rintro next hnext
    obtain rfl : op = next := Option.some.inj (op.binary?_punct.symm.trans hnext)
    exact le_rfl

theorem readsBack_conditional {test yes no : Expr} (htest : ReadsBack test)
    (hyes : ReadsBack yes) (hno : ReadsBack no) : ReadsBack (.conditional test yes no) := by
  refine ReadsWhole.readsBack (fun stop levels spans rest hlevels hspans hrest => ?_) rfl
  rw [words] at hspans
  rw [nesting] at hlevels
  obtain ⟨levels, rfl⟩ := Nat.exists_eq_add_of_le' (Nat.le_of_add_left_le hlevels)
  obtain ⟨before, _, rfl, hbefore, hquestion⟩ := hspans.append
  obtain ⟨question, _, rfl, hbranches⟩ := hquestion.cons
  obtain ⟨first, _, rfl, hfirst, hcolon⟩ := hbranches.append
  obtain ⟨colon, second, rfl, hsecond⟩ := hcolon.cons
  rw [List.append_assoc, List.cons_append, List.append_assoc, List.cons_append]
  refine reads_conditional question colon ?_
    (hyes.whole (by omega) hfirst (ends_cons _ _ (by simp)))
    (hno.whole (by omega) hsecond hrest)
  exact htest.binary_grouped Nat.one_pos (by omega) (Nat.zero_le _) hbefore rfl nofun
    (goesOn_operators_stop nofun)

theorem readsBack {e : Expr} (h : e.Printable) : ReadsBack e := by
  induction h with
  | literal h => exact readsBack_literal h
  | name n => exact readsBack_word rfl (ofWord_source n)
  | deref h => exact readsBack_word rfl rfl
  | array h ih => exact readsBack_array ih
  | member hobject hkey ih => exact readsBack_member ih _
  | index hobject hkey ihobject ihkey => exact readsBack_index ihobject ihkey
  | call hcallee hargs ihcallee ihargs => exact readsBack_call ihcallee ihargs
  | unary op h ih => exact readsBack_unary op ih
  | binary op hleft hright ihleft ihright => exact readsBack_binary op ihleft ihright
  | conditional htest hyes hno ihtest ihyes ihno => exact readsBack_conditional ihtest ihyes ihno

/-- An expression is read back from its text if that nests not too deeply.  A group takes two
levels: one for the expression in it, and one for the operand that this starts with. -/
theorem parse_print_of_levels {e : Expr} (h : e.Printable)
    (hlevels : 2 * e.nesting + 2 ≤ nestingLevels) : parse e.print = .ok e := by
  obtain ⟨spans, hscan, hspans⟩ := Word.exists_scan_spell (readable_words h)
  let stop := Text.byteLength (Word.spell e.words)
  have hplaced : Spells (spans.map (Spanned.placed stop)) e.words := by
    rw [Spells, List.map_map]
    exact hspans
  have hread : Reads (parseConditional stop nestingLevels (spans.map (Spanned.placed stop))) e
      [] := by
    rw [← List.append_nil (spans.map _)]
    exact (readsBack h).whole hlevels hplaced ends_nil
  obtain ⟨hshorter, hok⟩ := hread.exists_ok
  have hne : (spans.map (Spanned.placed stop)).isEmpty = false := by
    cases spans with
    | nil => cases hshorter
    | cons => rfl
  rw [parse, print, String.toList_ofList, parseChars, hscan]
  change ofWords stop (spans.map (Spanned.placed stop)) = _
  rw [ofWords, hne, hok]
  rfl

/-- An expression that nests at most 120 deep is read back from its text.  How many operators or
postfixes stand one after the other does not matter. -/
theorem parse_print {e : Expr} (h : e.Printable) (hnesting : e.nesting ≤ 120) :
    parse e.print = .ok e :=
  parse_print_of_levels h (by rw [nestingLevels]; omega)

/-- Operators of different precedence, a group under a property, a call with two arguments, a quote
in a string, and branches. -/
theorem parse_print_mixed :
    parse "( value || 1 + 2 ) . a ( - key , [ 'it\\'s' ] ) ? null : parent [ 0 ]" =
      .ok (.conditional
        (.call
          (.member
            (.binary .or (.name .value)
              (.binary .add (.literal (.num (.int 1))) (.literal (.num (.int 2)))))
            "a")
          [.unary .neg (.name .key), .array [.literal (.str "it's")]])
        (.literal .null)
        (.index (.name .parent) (.literal (.num (.int 0))))) := by
  refine Eq.trans (congrArg parse ?_) (parse_print ?_ ?_)
  · cbv
  · have hkey : Word.IsName "a".toList :=
      Word.isName_of_letters (by simp) (by simp [Text.isPlainLetter])
    have hsum : Printable (.binary .add (.literal (.num (.int 1))) (.literal (.num (.int 2)))) :=
      .binary .add (.literal (.int 1 (by decide))) (.literal (.int 2 (by decide)))
    have hargs : ∀ arg ∈ [Expr.unary .neg (.name .key), .array [.literal (.str "it's")]],
        Printable arg :=
      List.forall_mem_cons.2 ⟨.unary .neg (.name .key), List.forall_mem_singleton.2
        (.array (List.forall_mem_singleton.2 (.literal (.str "it's"))))⟩
    exact .conditional (.call (.member (.binary .or (.name .value) hsum) hkey) hargs)
      (.literal .null) (.index (.name .parent) (.literal (.int 0 (by decide))))
  · decide

end Expr

end FormSchema
