import FormSchema.Pointer

/-!
Pointers as texts.  No slash is left in an escaped token, so the slashes of a joined text are those
between its tokens, and the tokens can be read back; so can a count before them.
-/

namespace FormSchema

namespace Number

theorem isPlainDigit_of_mem_repr {n : Nat} {c : Char} (h : c ∈ n.repr.toList) :
    Text.isPlainDigit c = true := by
  rw [Nat.toList_repr] at h
  have := Nat.isDigit_of_mem_toDigits (by omega) (by omega) h
  simpa [Char.isDigit, Text.isPlainDigit, Char.le_def] using this

theorem digitsValue_repr (n : Nat) : digitsValue n.repr.toList = n := by
  conv => rhs; rw [← Nat.ofDigitChars_ten_toDigits (n := n), Nat.ofDigitChars_eq_foldl,
    ← Nat.toList_repr]
  rfl

theorem exists_digit_of_repr (n : Nat) :
    ∃ c rest, n.repr.toList = c :: rest ∧ Text.isPlainDigit c = true := by
  cases h : n.repr.toList with
  | nil =>
    rw [Nat.toList_repr] at h
    exact absurd h Nat.toDigits_ne_nil
  | cons c rest => exact ⟨c, rest, rfl, isPlainDigit_of_mem_repr (h ▸ List.mem_cons_self)⟩

theorem index?_repr {i : Nat} (h : i < indexBound) : index? i.repr.toList = some i := by
  have value := digitsValue_repr i
  have hall : i.repr.toList.all Text.isPlainDigit = true :=
    List.all_eq_true.2 fun _ => isPlainDigit_of_mem_repr
  obtain ⟨c, rest, hd, hc⟩ := exists_digit_of_repr i
  have hplus : c ≠ '+' := by
    rintro rfl
    revert hc
    decide
  rw [hd] at value hall ⊢
  unfold index?
  split
  · simp_all
  · simp [hall, value, h]

end Number

section Pairs

variable {a b out c : Char} {rest : List Char}

theorem replacePair_pair : replacePair a b out (a :: b :: rest) = out :: replacePair a b out rest := by
  simp [replacePair]

theorem replacePair_cons_of_ne (h : c ≠ a) :
    replacePair a b out (c :: rest) = c :: replacePair a b out rest := by
  cases rest <;> simp [replacePair, h]

theorem replacePair_cons_cons_of_ne (h : c ≠ b) :
    replacePair a b out (a :: c :: rest) = a :: replacePair a b out (c :: rest) := by
  simp [replacePair, h]

end Pairs

/-- The form of a token in which `~` is escaped and `/` is not. -/
def escapeTilde : List Char → List Char
  | [] => []
  | '~' :: rest => '~' :: '0' :: escapeTilde rest
  | c :: rest => c :: escapeTilde rest

theorem replacePair_escapeToken (token : List Char) :
    replacePair '~' '1' '/' (escapeToken token) = escapeTilde token := by
  induction token using escapeToken.induct with
  | case1 => rfl
  | case2 rest ih =>
    -- The pair `~0` is left for the second pass.
    rw [escapeToken, escapeTilde, replacePair_cons_cons_of_ne (by decide),
      replacePair_cons_of_ne (by decide), ih]
  | case3 rest ih =>
    rw [escapeToken, escapeTilde, replacePair_pair, ih]
    decide
  | case4 c rest htilde hslash ih =>
    rw [escapeToken, escapeTilde, replacePair_cons_of_ne htilde, ih] <;> assumption

theorem replacePair_escapeTilde (token : List Char) :
    replacePair '~' '0' '~' (escapeTilde token) = token := by
  induction token using escapeTilde.induct with
  | case1 => rfl
  | case2 rest ih => rw [escapeTilde, replacePair_pair, ih]
  | case3 c rest htilde ih =>
    rw [escapeTilde, replacePair_cons_of_ne htilde, ih]
    assumption

/-- An escaped token can be read back. -/
theorem unescapeToken_escapeToken (token : List Char) : unescapeToken (escapeToken token) = token := by
  rw [unescapeToken, replacePair_escapeToken, replacePair_escapeTilde]

theorem slash_not_mem_escapeToken (token : List Char) : '/' ∉ escapeToken token := by
  induction token using escapeToken.induct with
  | case1 => exact List.not_mem_nil
  | case2 rest ih => simpa [escapeToken] using ih
  | case3 rest ih => simpa [escapeToken] using ih
  | case4 c rest htilde hslash ih =>
    rw [escapeToken, List.mem_cons]
    · rintro (h | h)
      · exact hslash h.symm
      · exact ih h
    all_goals assumption

namespace Pointer

/-- The slashes of a joined text stand before its tokens. -/
theorem splitOn_flatMap_tokenText (tokens : List String) {text : List Char} (h : '/' ∉ text) :
    (text ++ tokens.flatMap tokenText).splitOn '/' =
      text :: tokens.map fun token => escapeToken token.toList := by
  induction tokens generalizing text with
  | nil => simpa using List.splitOn_eq_singleton h
  | cons token tokens ih =>
    rw [List.flatMap_cons, tokenText, List.cons_append, List.splitOn_append_cons_self_of_not_mem h,
      ih (slash_not_mem_escapeToken _), List.map_cons]

/-- The tokens of a joined text can be read back. -/
theorem splitTokens_flatMap_tokenText (tokens : List String) :
    splitTokens (tokens.flatMap tokenText) = tokens := by
  have hsplit := @splitOn_flatMap_tokenText tokens [] List.not_mem_nil
  rw [List.nil_append] at hsplit
  rw [splitTokens, hsplit, List.drop_one, List.tail_cons, List.map_map]
  simp [Function.comp_def, unescapeToken_escapeToken]

theorem parse_join (tokens : List String) : parse (join tokens) = .ok (.absolute tokens) := by
  have htokens := splitTokens_flatMap_tokenText tokens
  rw [parse, join, String.toList_ofList]
  cases tokens with
  | nil => rfl
  | cons token tokens =>
    rw [List.flatMap_cons, tokenText, List.cons_append] at htokens ⊢
    exact congrArg (fun tokens => Except.ok (Pointer.absolute tokens)) htokens

theorem ofCount_flatMap_tokenText (up : Nat) (tokens : List String) :
    ofCount up (tokens.flatMap tokenText) = .ok (.relative up tokens) := by
  have htokens := splitTokens_flatMap_tokenText tokens
  cases tokens with
  | nil => rfl
  | cons token tokens =>
    rw [List.flatMap_cons, tokenText, List.cons_append] at htokens ⊢
    exact congrArg (fun tokens => Except.ok (Pointer.relative up tokens)) htokens

/-- The digits of a count end where the first token begins. -/
theorem span_repr (n : Nat) (tokens : List String) :
    (n.repr.toList ++ tokens.flatMap tokenText).takeWhile Text.isPlainDigit = n.repr.toList ∧
      (n.repr.toList ++ tokens.flatMap tokenText).dropWhile Text.isPlainDigit =
        tokens.flatMap tokenText := by
  have hdigits : ∀ c ∈ n.repr.toList, Text.isPlainDigit c = true :=
    fun _ => Number.isPlainDigit_of_mem_repr
  rw [List.takeWhile_append_of_pos hdigits, List.dropWhile_append_of_pos hdigits]
  have hslash : Text.isPlainDigit '/' = false := by decide
  cases tokens <;> simp [tokenText, hslash]

theorem ofChars_digit {c : Char} {rest : List Char} (hc : Text.isPlainDigit c = true) :
    ofChars (c :: rest) =
      if Number.indexBound ≤ Number.digitsValue ((c :: rest).takeWhile Text.isPlainDigit) then
        .error .count
      else
        ofCount (Number.digitsValue ((c :: rest).takeWhile Text.isPlainDigit))
          ((c :: rest).dropWhile Text.isPlainDigit) := by
  have hhash : c ≠ '#' := by
    rintro rfl
    revert hc
    decide
  have hslash : c ≠ '/' := by
    rintro rfl
    revert hc
    decide
  unfold ofChars
  split
  · contradiction
  all_goals simp_all

/-- A count that fits into a machine word is read back with the tokens after it. -/
theorem parse_relative {up : Nat} (h : up < Number.indexBound) (tokens : List String) :
    parse (up.repr ++ join tokens) = .ok (.relative up tokens) := by
  obtain ⟨htake, hdrop⟩ := span_repr up tokens
  obtain ⟨c, rest, hd, hc⟩ := Number.exists_digit_of_repr up
  have hchars : ofChars (up.repr.toList ++ tokens.flatMap tokenText) = .ok (.relative up tokens) := by
    have hdigit : up.repr.toList ++ tokens.flatMap tokenText =
        c :: (rest ++ tokens.flatMap tokenText) := by rw [hd, List.cons_append]
    rw [hdigit, ofChars_digit hc, ← hdigit, htake, hdrop, Number.digitsValue_repr,
      if_neg (Nat.not_le.2 h), ofCount_flatMap_tokenText]
  rw [parse, String.toList_append, join, String.toList_ofList, hchars]
  rfl

theorem child_join (tokens : List String) (token : String) :
    child (join tokens) token = join (tokens ++ [token]) := by
  simp [child, join, String.ofList_append]

theorem join_injective : Function.Injective join := by
  intro tokens tokens' h
  have htext := String.ofList_injective h
  rw [← splitTokens_flatMap_tokenText tokens, htext, splitTokens_flatMap_tokenText]

end Pointer

end FormSchema
