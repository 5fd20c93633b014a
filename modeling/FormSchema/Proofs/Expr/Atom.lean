import FormSchema.Expr.Parser
import FormSchema.Proofs.Outcome

/-!
The texts and pointers in an expression.  Reading keeps them: in an expression stand those of the
words that it was read from, in the same order.
-/

namespace FormSchema

/-- What a word can carry into an expression besides names and numbers. -/
inductive Atom where
  | text (value : String)
  | pointer (pointer : String)

def Token.atom? : Token → Option Atom
  | .str s => some (.text s)
  | .deref pointer => some (.pointer pointer)
  | _ => none

/-- The pointers among texts and pointers. -/
def Atom.pointer? : Atom → Option String
  | .pointer p => some p
  | .text _ => none

namespace Expr

mutual

/-- The texts and pointers in an expression, from left to right. -/
def atoms : Expr → List Atom
  | .literal (.str s) => [.text s]
  | .deref pointer => [.pointer pointer]
  | .literal _ | .name _ => []
  | .array items => atomsList items
  | .member object _ => object.atoms
  | .index object key => object.atoms ++ key.atoms
  | .call callee args => callee.atoms ++ atomsList args
  | .unary _ operand => operand.atoms
  | .binary _ left right => left.atoms ++ right.atoms
  | .conditional test yes no => test.atoms ++ yes.atoms ++ no.atoms

def atomsList : List Expr → List Atom
  | [] => []
  | e :: es => e.atoms ++ atomsList es

end

mutual

theorem derefs_eq (e : Expr) : e.derefs = e.atoms.filterMap Atom.pointer? := by
  match e with
  | .literal value => cases value <;> rfl
  | .name n => rfl
  | .deref p => rfl
  | .array items => exact derefsList_eq items
  | .member object key => exact derefs_eq object
  | .index object key =>
    rw [derefs, atoms, List.filterMap_append, derefs_eq object, derefs_eq key]
  | .call callee args =>
    rw [derefs, atoms, List.filterMap_append, derefs_eq callee, derefsList_eq args]
  | .unary op operand => exact derefs_eq operand
  | .binary op left right =>
    rw [derefs, atoms, List.filterMap_append, derefs_eq left, derefs_eq right]
  | .conditional test yes no =>
    rw [derefs, atoms, List.filterMap_append, List.filterMap_append, derefs_eq test, derefs_eq yes,
      derefs_eq no]

theorem derefsList_eq (es : List Expr) :
    derefsList es = (atomsList es).filterMap Atom.pointer? := by
  match es with
  | [] => rfl
  | e :: es => rw [derefsList, atomsList, List.filterMap_append, derefs_eq e, derefsList_eq es]

end

/-- The texts and pointers among words. -/
def wordAtoms (words : List Placed) : List Atom := words.filterMap fun word => word.token.atom?

theorem wordAtoms_cons (word : Placed) (words : List Placed) :
    wordAtoms (word :: words) = word.token.atom?.toList ++ wordAtoms words := by
  rw [wordAtoms, List.filterMap_cons]
  cases word.token.atom? <;> rfl

@[simp] theorem wordAtoms_punct (p : Punct) (pos : Nat) (words : List Placed) :
    wordAtoms (⟨.punct p, pos⟩ :: words) = wordAtoms words := rfl

theorem wordAtoms_of_eat? {p : Punct} {words : List Placed}
    {after : { rest : List Placed // rest.length < words.length }} (h : eat? p words = some after) :
    wordAtoms words = wordAtoms after.1 := by
  unfold eat? at h
  split at h
  · split at h
    · obtain rfl := Option.some.inj h
      rfl
    · cases h
  · cases h

theorem wordAtoms_of_expect {stop : Nat} {p : Punct} {words : List Placed}
    {after : { rest : List Placed // rest.length < words.length }}
    (h : expect stop p words = .ok after) : wordAtoms words = wordAtoms after.1 := by
  rw [expect] at h
  split at h
  · rename_i heat
    obtain rfl := Except.ok.inj h
    exact wordAtoms_of_eat? heat
  · cases h

theorem atoms_ofFloat (x : Float) : (literal (.ofFloat x)).atoms = [] := by
  unfold Json.ofFloat
  split
  · rfl
  · split
    · split <;> rfl
    · rfl

theorem atoms_of_ofWord {token : Token} {e : Expr} (h : ofWord token = .ok e) :
    e.atoms = token.atom?.toList := by
  unfold ofWord at h
  split at h
  · obtain rfl := Except.ok.inj h
    exact atoms_ofFloat _
  · obtain rfl := Except.ok.inj h
    rfl
  · obtain rfl := Except.ok.inj h
    rfl
  · obtain rfl := Except.ok.inj h
    rfl
  · obtain rfl := Except.ok.inj h
    rfl
  · obtain rfl := Except.ok.inj h
    rfl
  · obtain rfl := Except.ok.inj h
    rfl
  · split at h
    · obtain rfl := Except.ok.inj h
      rfl
    · cases h
  · cases h

/-- Whether an expression that is read from words has their texts and pointers, up to the words that
are left. -/
def Keeps {words : List Placed} (result : Except SyntaxError (Parsed Expr words)) : Prop :=
  ∀ p, result = .ok p → wordAtoms words = p.value.atoms ++ wordAtoms p.rest

def KeepsAll {words : List Placed} (result : Except SyntaxError (Parsed (List Expr) words)) : Prop :=
  ∀ p, result = .ok p → wordAtoms words = atomsList p.value ++ wordAtoms p.rest

/-- The same for an expression that goes on from another one. -/
def KeepsOn (left : Expr) {words : List Placed}
    (result : Except SyntaxError (Expr × { rest : List Placed // rest.length ≤ words.length })) :
    Prop :=
  ∀ whole, result = .ok whole → left.atoms ++ wordAtoms words = whole.1.atoms ++ wordAtoms whole.2.1

section

variable {stop levels least : Nat} {words rest : List Placed} {left object : Expr} {close : Punct}
  {pos : Nat}

theorem keeps_parseConditional (htest : Keeps (parseBinary stop levels 0 words))
    (hyes : ∀ (test : Parsed Expr words) (after : { rest // rest.length < test.rest.length }),
      Keeps (parseConditional stop levels after.1))
    (hno : ∀ (test : Parsed Expr words) (after : { rest // rest.length < test.rest.length })
      (yes : Parsed Expr after.1) (middle : { rest // rest.length < yes.rest.length }),
      Keeps (parseConditional stop levels middle.1)) :
    Keeps (parseConditional stop (levels + 1) words) := by
  intro p h
  rw [parseConditional] at h
  obtain ⟨test, hok, h⟩ := bind_eq_ok.1 h
  have hatoms := htest test hok
  split at h
  · obtain rfl := Except.ok.inj h
    exact hatoms
  · rename_i after heat
    obtain ⟨yes, hyes', h⟩ := bind_eq_ok.1 h
    obtain ⟨middle, hmiddle, h⟩ := bind_eq_ok.1 h
    obtain ⟨no, hno', h⟩ := bind_eq_ok.1 h
    obtain rfl := Except.ok.inj h
    rw [hatoms, wordAtoms_of_eat? heat, hyes test after yes hyes', wordAtoms_of_expect hmiddle,
      hno test after yes middle no hno', atoms]
    simp only [List.append_assoc]

theorem keeps_parseBinary (hleft : Keeps (parseUnary stop levels words))
    (hrest : ∀ left : Parsed Expr words,
      KeepsOn left.value (parseOperators stop levels least left.value left.rest)) :
    Keeps (parseBinary stop levels least words) := by
  intro p h
  rw [parseBinary] at h
  obtain ⟨left, hok, h⟩ := bind_eq_ok.1 h
  obtain ⟨whole, hwhole, h⟩ := bind_eq_ok.1 h
  obtain rfl := Except.ok.inj h
  rw [hleft left hok]
  exact hrest left whole hwhole

theorem keepsOn_parseOperators {p : Punct} {op : BinaryOp} (hp : p.binary? = some op)
    (hleast : ¬ op.precedence < least)
    (hright : Keeps (parseBinary stop levels (op.precedence + 1) rest))
    (hrest : ∀ right : Parsed Expr rest, KeepsOn (.binary op left right.value)
      (parseOperators stop levels least (.binary op left right.value) right.rest)) :
    KeepsOn left (parseOperators stop levels least left (⟨.punct p, pos⟩ :: rest)) := by
  intro whole h
  rw [parseOperators, hp] at h
  dsimp only at h
  rw [if_neg hleast] at h
  obtain ⟨right, hok, h⟩ := bind_eq_ok.1 h
  obtain ⟨whole, hwhole, h⟩ := bind_eq_ok.1 h
  obtain rfl := Except.ok.inj h
  rw [wordAtoms_punct, hright right hok, ← List.append_assoc]
  exact hrest right whole hwhole

theorem keeps_parseUnary {p : Punct} {op : UnaryOp} (hp : p.unary? = some op)
    (hoperand : Keeps (parseUnary stop levels rest)) :
    Keeps (parseUnary stop (levels + 1) (⟨.punct p, pos⟩ :: rest)) := by
  intro q h
  rw [parseUnary, hp] at h
  obtain ⟨operand, hok, h⟩ := bind_eq_ok.1 h
  obtain rfl := Except.ok.inj h
  exact hoperand operand hok

theorem keeps_parsePostfix (hstart : Keeps (parsePrimary stop levels words))
    (hrest : ∀ start : Parsed Expr words,
      KeepsOn start.value (parsePostfixes stop levels start.value start.rest)) :
    Keeps (parsePostfix stop levels words) := by
  intro p h
  rw [parsePostfix] at h
  obtain ⟨start, hok, h⟩ := bind_eq_ok.1 h
  obtain ⟨whole, hwhole, h⟩ := bind_eq_ok.1 h
  obtain rfl := Except.ok.inj h
  rw [hstart start hok]
  exact hrest start whole hwhole

theorem keepsOn_member {key : String} {pos' : Nat}
    (hrest : KeepsOn (.member object key) (parsePostfixes stop levels (.member object key) rest)) :
    KeepsOn object
      (parsePostfixes stop levels object (⟨.punct .dot, pos⟩ :: ⟨.ident key, pos'⟩ :: rest)) := by
  intro whole h
  rw [parsePostfixes] at h
  obtain ⟨whole, hwhole, h⟩ := bind_eq_ok.1 h
  obtain rfl := Except.ok.inj h
  exact hrest whole hwhole

theorem keepsOn_index (hkey : Keeps (parseConditional stop levels rest))
    (hrest : ∀ (key : Parsed Expr rest) (after : { rest // rest.length < key.rest.length }),
      KeepsOn (.index object key.value)
        (parsePostfixes stop levels (.index object key.value) after.1)) :
    KeepsOn object (parsePostfixes stop levels object (⟨.punct .openBracket, pos⟩ :: rest)) := by
  intro whole h
  rw [parsePostfixes] at h
  obtain ⟨key, hok, h⟩ := bind_eq_ok.1 h
  obtain ⟨after, hafter, h⟩ := bind_eq_ok.1 h
  obtain ⟨whole, hwhole, h⟩ := bind_eq_ok.1 h
  obtain rfl := Except.ok.inj h
  rw [wordAtoms_punct, hkey key hok, wordAtoms_of_expect hafter, ← List.append_assoc]
  exact hrest key after whole hwhole

theorem keepsOn_call (hargs : KeepsAll (parseList stop levels .closeParen rest))
    (hrest : ∀ args : Parsed (List Expr) rest, KeepsOn (.call object args.value)
      (parsePostfixes stop levels (.call object args.value) args.rest)) :
    KeepsOn object (parsePostfixes stop levels object (⟨.punct .openParen, pos⟩ :: rest)) := by
  intro whole h
  rw [parsePostfixes] at h
  obtain ⟨args, hok, h⟩ := bind_eq_ok.1 h
  obtain ⟨whole, hwhole, h⟩ := bind_eq_ok.1 h
  obtain rfl := Except.ok.inj h
  rw [wordAtoms_punct, hargs args hok, ← List.append_assoc]
  exact hrest args whole hwhole

theorem keeps_group (hinner : Keeps (parseConditional stop levels rest)) :
    Keeps (parsePrimary stop levels (⟨.punct .openParen, pos⟩ :: rest)) := by
  intro p h
  rw [parsePrimary] at h
  obtain ⟨inner, hok, h⟩ := bind_eq_ok.1 h
  obtain ⟨after, hafter, h⟩ := bind_eq_ok.1 h
  obtain rfl := Except.ok.inj h
  rw [wordAtoms_punct, hinner inner hok, wordAtoms_of_expect hafter]

theorem keeps_array (hitems : KeepsAll (parseList stop levels .closeBracket rest)) :
    Keeps (parsePrimary stop levels (⟨.punct .openBracket, pos⟩ :: rest)) := by
  intro p h
  rw [parsePrimary] at h
  obtain ⟨items, hok, h⟩ := bind_eq_ok.1 h
  obtain rfl := Except.ok.inj h
  exact hitems items hok

theorem keepsAll_parseItems (hitem : Keeps (parseConditional stop levels words))
    (hrest : ∀ (item : Parsed Expr words) (after : { rest // rest.length < item.rest.length }),
      KeepsAll (parseItems stop levels close after.1)) :
    KeepsAll (parseItems stop levels close words) := by
  intro p h
  rw [parseItems] at h
  obtain ⟨item, hok, h⟩ := bind_eq_ok.1 h
  have hatoms := hitem item hok
  split at h
  · rename_i heat
    obtain rfl := Except.ok.inj h
    rw [hatoms, wordAtoms_of_eat? heat, atomsList, atomsList, List.append_nil]
  · obtain ⟨after, hafter, h⟩ := bind_eq_ok.1 h
    obtain ⟨items, hitems, h⟩ := bind_eq_ok.1 h
    obtain rfl := Except.ok.inj h
    rw [hatoms, wordAtoms_of_expect hafter, hrest item after items hitems, atomsList,
      List.append_assoc]

end

/-- Reading keeps texts and pointers, case by case of the grammar. -/
theorem keeps_all (stop : Nat) :
    ∀ levels words, Keeps (parseConditional stop levels words) := by
  refine (parseConditional.mutual_induct
    (fun levels words => Keeps (parseConditional stop levels words))
    (fun levels least words => Keeps (parseBinary stop levels least words))
    (fun levels least left words => KeepsOn left (parseOperators stop levels least left words))
    (fun levels words => Keeps (parseUnary stop levels words))
    (fun levels words => Keeps (parsePostfix stop levels words))
    (fun levels object words => KeepsOn object (parsePostfixes stop levels object words))
    (fun levels close words => KeepsAll (parseList stop levels close words))
    (fun levels close words => KeepsAll (parseItems stop levels close words))
    (fun levels words => Keeps (parsePrimary stop levels words))
    ?_ ?_ ?_ ?_ ?_ ?_ ?_ ?_ ?_ ?_ ?_ ?_ ?_ ?_ ?_ ?_ ?_ ?_ ?_ ?_ ?_ ?_ ?_ ?_ ?_).1
  · intro words p h
    rw [parseConditional] at h
    cases h
  · intro words levels htest hyes hno
    exact keeps_parseConditional htest hyes hno
  · intro levels least words hleft hrest
    exact keeps_parseBinary hleft hrest
  · intro levels least left q pos rest op hq hleast whole h
    rw [parseOperators, hq] at h
    dsimp only at h
    rw [if_pos hleast] at h
    obtain rfl := Except.ok.inj h
    rfl
  · intro levels least left q pos rest op hq hleast hright hrest
    exact keepsOn_parseOperators hq hleast hright hrest
  · intro levels least left q pos rest hq whole h
    rw [parseOperators, hq] at h
    obtain rfl := Except.ok.inj h
    rfl
  · intro levels least left words hwords whole h
    rw [parseOperators] at h
    · obtain rfl := Except.ok.inj h
      rfl
    · exact hwords
  · intro words p h
    rw [parseUnary] at h
    cases h
  · intro levels q pos rest op hq hoperand
    exact keeps_parseUnary hq hoperand
  · intro levels q pos rest hq hpostfix p h
    rw [parseUnary, hq] at h
    exact hpostfix p h
  · intro words levels hwords hpostfix p h
    rw [parseUnary] at h
    · exact hpostfix p h
    · exact hwords
  · intro levels words hstart hrest
    exact keeps_parsePostfix hstart hrest
  · intro levels object pos key pos' rest hrest
    exact keepsOn_member hrest
  · intro levels object pos rest hrest whole h
    rw [parsePostfixes] at h
    · cases h
    · exact hrest
  · intro levels object pos rest hkey hrest
    exact keepsOn_index hkey hrest
  · intro levels object pos rest hargs hrest
    exact keepsOn_call hargs hrest
  · intro levels object words hmember hdot hbracket hparen whole h
    rw [parsePostfixes] at h
    · obtain rfl := Except.ok.inj h
      rfl
    all_goals assumption
  · intro levels close words rest heat p h
    rw [parseList, heat] at h
    obtain rfl := Except.ok.inj h
    exact wordAtoms_of_eat? heat
  · intro levels close words heat hitems p h
    rw [parseList, heat] at h
    exact hitems p h
  · intro levels close words hitem hrest
    exact keepsAll_parseItems hitem hrest
  · intro levels p h
    rw [parsePrimary] at h
    cases h
  · intro levels pos rest hinner
    exact keeps_group hinner
  · intro levels pos rest hitems
    exact keeps_array hitems
  · intro levels word rest hparen hbracket e he p h
    rw [parsePrimary, he] at h
    · obtain rfl := Except.ok.inj h
      rw [wordAtoms_cons, atoms_of_ofWord he]
    · exact hparen
    · exact hbracket
  · intro levels word rest hparen hbracket fault hfault p h
    rw [parsePrimary, hfault] at h
    · cases h
    · exact hparen
    · exact hbracket

/-- The texts and pointers of a source stand in its expression. -/
theorem atoms_ofWords {stop : Nat} {words : List Placed} {e : Expr} (h : ofWords stop words = .ok e) :
    e.atoms = wordAtoms words := by
  rw [ofWords] at h
  split at h
  · cases h
  · obtain ⟨whole, hwhole, h⟩ := bind_eq_ok.1 h
    split at h
    · rename_i hrest
      obtain rfl := Except.ok.inj h
      rw [keeps_all stop _ _ whole hwhole, List.isEmpty_iff.1 hrest]
      exact (List.append_nil _).symm
    · cases h

end Expr

end FormSchema
