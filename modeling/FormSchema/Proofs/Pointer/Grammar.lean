import FormSchema.Proofs.Pointer.Text

/-!
The grammar of pointers.  Every pointer whose count of ancestors fits into a machine word is read back
from its own text, whatever its tokens are; and a text is that of a pointer if and only if the
grammar has it, so that every other text is malformed.
-/

namespace FormSchema.Pointer

/-- Whether the count of ancestors fits into a machine word. -/
def Fits : Pointer → Prop
  | .absolute _ => True
  | .relative up _ => up < Number.indexBound

/-- The texts of pointers: nothing, a hash, or tokens with a slash before each, with or without a hash
before them; and a count of ancestors, alone or with such tokens after it. -/
inductive Grammatical : List Char → Prop
  | empty : Grammatical []
  | hash : Grammatical ['#']
  | slash (rest : List Char) : Grammatical ('/' :: rest)
  | hashSlash (rest : List Char) : Grammatical ('#' :: '/' :: rest)
  | count {digits after : List Char} (nonempty : digits ≠ [])
      (plain : ∀ c ∈ digits, Text.isPlainDigit c = true)
      (fits : Number.digitsValue digits < Number.indexBound)
      (ends : after = [] ∨ ∃ rest, after = '/' :: rest) : Grammatical (digits ++ after)

/-- A pointer is read back from its text. -/
theorem parse_text {p : Pointer} (h : p.Fits) : parse p.text = .ok p := by
  cases p with
  | absolute tokens => exact parse_join tokens
  | relative up tokens => exact parse_relative h tokens

theorem ends_of_ofCount {up : Nat} {after : List Char} {p : Pointer}
    (h : ofCount up after = .ok p) : after = [] ∨ ∃ rest, after = '/' :: rest := by
  unfold ofCount at h
  split at h
  · exact .inl rfl
  · exact .inr ⟨_, rfl⟩
  · cases h

theorem exists_ofCount (up : Nat) {after : List Char}
    (h : after = [] ∨ ∃ rest, after = '/' :: rest) : ∃ p, ofCount up after = .ok p := by
  obtain rfl | ⟨rest, rfl⟩ := h
  · exact ⟨_, rfl⟩
  · exact ⟨_, rfl⟩

theorem grammatical_of_ofChars {text : List Char} {p : Pointer} (h : ofChars text = .ok p) :
    Grammatical text := by
  unfold ofChars at h
  split at h
  · exact .empty
  · exact .hash
  · exact .hashSlash _
  · cases h
  · exact .slash _
  · -- The text is its leading digits and what comes after them.
    dsimp only at h
    split at h
    · cases h
    · rename_i hnonempty
      split at h
      · cases h
      · rename_i hfits
        rw [← List.takeWhile_append_dropWhile (p := Text.isPlainDigit) (l := text)]
        exact .count (by simpa using hnonempty) (List.all_eq_true.1 List.all_takeWhile)
          (Nat.lt_of_not_le hfits) (ends_of_ofCount h)

theorem exists_ofChars {text : List Char} (h : Grammatical text) : ∃ p, ofChars text = .ok p := by
  cases h with
  | empty => exact ⟨_, rfl⟩
  | hash => exact ⟨_, rfl⟩
  | slash rest => exact ⟨_, rfl⟩
  | hashSlash rest => exact ⟨_, rfl⟩
  | @count digits after nonempty plain fits ends =>
    obtain ⟨c, rest, rfl⟩ := List.exists_cons_of_ne_nil nonempty
    have hslash : Text.isPlainDigit '/' = false := by decide
    have hafter : after.takeWhile Text.isPlainDigit = [] ∧
        after.dropWhile Text.isPlainDigit = after := by
      obtain rfl | ⟨more, rfl⟩ := ends
      · exact ⟨rfl, rfl⟩
      · simp [hslash]
    have htake : (c :: rest ++ after).takeWhile Text.isPlainDigit = c :: rest := by
      rw [List.takeWhile_append_of_pos plain, hafter.1, List.append_nil]
    have hdrop : (c :: rest ++ after).dropWhile Text.isPlainDigit = after := by
      rw [List.dropWhile_append_of_pos plain, hafter.2]
    obtain ⟨p, hp⟩ := exists_ofCount (Number.digitsValue (c :: rest)) ends
    refine ⟨p, ?_⟩
    rw [List.cons_append, ofChars_digit (plain c List.mem_cons_self), ← List.cons_append, htake,
      hdrop, if_neg (Nat.not_le.2 fits), hp]

theorem exists_parse_iff {source : String} :
    (∃ p, parse source = .ok p) ↔ Grammatical source.toList := by
  constructor
  · rintro ⟨p, h⟩
    rw [parse] at h
    cases hchars : ofChars source.toList with
    | error reason =>
      rw [hchars] at h
      cases h
    | ok q => exact grammatical_of_ofChars hchars
  · intro h
    obtain ⟨p, hp⟩ := exists_ofChars h
    exact ⟨p, by rw [parse, hp]; rfl⟩

/-- A text that is none of a pointer is malformed, and the error names it. -/
theorem exists_malformed {source : String} (h : ¬ Grammatical source.toList) :
    ∃ reason, parse source = .error (.malformed source reason) := by
  cases hchars : ofChars source.toList with
  | error reason => exact ⟨reason, by rw [parse, hchars]; rfl⟩
  | ok p => exact absurd (grammatical_of_ofChars hchars) h

/-- Pointers are read back from their texts, and what can be read is given by the grammar. -/
theorem reads_texts_and_grammar :
    (∀ p : Pointer, p.Fits → parse p.text = .ok p) ∧
      (∀ source : String, (∃ p, parse source = .ok p) ↔ Grammatical source.toList) ∧
      ∀ source : String, ¬ Grammatical source.toList →
        ∃ reason, parse source = .error (.malformed source reason) :=
  ⟨fun _ => parse_text, fun _ => exists_parse_iff, fun _ => exists_malformed⟩

/-- The largest count, an empty token and tokens that look like escapes. -/
theorem reads_texts_and_grammar_escapes :
    parse (text (.relative (Number.indexBound - 1) ["", "~1", "~01/", "/"])) =
        .ok (.relative (Number.indexBound - 1) ["", "~1", "~01/", "/"]) ∧
      ∃ reason, parse "18446744073709551616/a" =
        .error (.malformed "18446744073709551616/a" reason) := by
  refine ⟨reads_texts_and_grammar.1 _ (Nat.sub_lt (by decide) Nat.one_pos),
    reads_texts_and_grammar.2.2 _ fun h => ?_⟩
  obtain ⟨p, hp⟩ := (reads_texts_and_grammar.2.1 "18446744073709551616/a").2 h
  have hcount : parse "18446744073709551616/a" =
    .error (.malformed "18446744073709551616/a" .count) := rfl
  rw [hcount] at hp
  cases hp

end FormSchema.Pointer
