import FormSchema.Proofs.Expr.Mention
import FormSchema.Proofs.Number.Whole

/-!
Words that are written out with a space between each two.  No word goes on over a space, so that the
words of such a text are those that it has been written from.
-/

namespace FormSchema

open Token (backquote isNameStart isNamePart)

/-- A word before it is written.  Numbers are whole. -/
inductive Word where
  | number (n : Nat)
  | str (value : String)
  | ident (name : String)
  | deref (pointer : String)
  | punct (p : Punct)

namespace Word

/-- The text of a string between single quotes. -/
def quoted (text : List Char) : List Char :=
  text.flatMap fun c => if c = '\\' ∨ c = '\'' then ['\\', c] else [c]

def chars : Word → List Char
  | .number n => n.repr.toList
  | .str value => '\'' :: (quoted value.toList ++ ['\''])
  | .ident name => name.toList
  | .deref pointer => '$' :: backquote :: (pointer.toList ++ [backquote])
  | .punct p => p.chars

def token : Word → Token
  | .number n => .number ((Number.decimal? n.repr.toList).getD 0)
  | .str value => .str value
  | .ident name => .ident name
  | .deref pointer => .deref pointer
  | .punct p => .punct p

/-- Whether a text has the shape of a name. -/
def IsName (text : List Char) : Prop :=
  ∃ c rest, text = c :: rest ∧ isNameStart c = true ∧ ∀ d ∈ rest, isNamePart d = true

/-- Whether a word can be written so that it is read back. -/
def Readable : Word → Prop
  | .ident name => IsName name.toList
  | .deref pointer => backquote ∉ pointer.toList
  | _ => True

@[simp] theorem readable_punct (p : Punct) : (punct p).Readable := trivial

/-- Words with a space between each two. -/
def spell (words : List Word) : List Char := [' '].intercalate (words.map chars)

/-- Words with a space before each. -/
def spellAfter (words : List Word) : List Char := words.flatMap fun word => ' ' :: word.chars

theorem spell_cons (word : Word) (words : List Word) :
    spell (word :: words) = word.chars ++ spellAfter words := by
  induction words generalizing word with
  | nil => simp [spell, spellAfter]
  | cons next words ih =>
    rw [spell, List.map_cons, List.map_cons, List.intercalate_cons_cons, ← List.map_cons, ← spell,
      ih, spellAfter, spellAfter, List.flatMap_cons]
    simp

end Word

namespace Token

variable {c : Char}

theorem toNat_of_isPlainLetter (h : Text.isPlainLetter c = true) :
    65 ≤ c.toNat ∧ c.toNat ≤ 90 ∨ 97 ≤ c.toNat ∧ c.toNat ≤ 122 := by
  simp only [Text.isPlainLetter, Bool.or_eq_true, Bool.and_eq_true, decide_eq_true_eq,
    Char.le_def, UInt32.le_iff_toNat_le] at h
  exact h.symm

theorem isAlphabetic_of_isPlainLetter (h : Text.isPlainLetter c = true) :
    Text.isAlphabetic c = true := by
  have := toNat_of_isPlainLetter h
  rw [Text.isAlphabetic, if_pos (by omega), h]

/-- What a name starts with is plain only as a letter or a low line. -/
theorem toNat_of_isNameStart (h : isNameStart c = true) :
    65 ≤ c.toNat ∧ c.toNat ≤ 90 ∨ 97 ≤ c.toNat ∧ c.toNat ≤ 122 ∨ c.toNat = 95 ∨ 128 ≤ c.toNat := by
  rw [isNameStart, Bool.or_eq_true, beq_iff_eq] at h
  rcases h with h | rfl
  · rw [Text.isAlphabetic] at h
    split at h
    · rcases toNat_of_isPlainLetter h with h | h
      · exact .inl h
      · exact .inr (.inl h)
    · omega
  · exact .inr (.inr (.inl rfl))

theorem isBlank_of_isNameStart (h : isNameStart c = true) : Text.isBlank c = false := by
  by_cases hplain : c.toNat < 0x80
  · have := toNat_of_isNameStart h
    simp only [Text.isBlank, Text.CodeRanges.contains, List.any_cons, List.any_nil,
      Bool.or_eq_false_iff, Bool.and_eq_false_iff, decide_eq_false_iff_not, and_true]
    omega
  · have hne : c ≠ '_' := fun heq => hplain (by rw [heq]; decide)
    rw [isNameStart, beq_false_of_ne hne, Bool.or_false, Text.isAlphabetic, if_neg hplain] at h
    by_contra hblank
    rw [if_pos (Bool.eq_true_of_not_eq_false hblank)] at h
    cases h

theorem toNat_of_isPlainDigit (h : Text.isPlainDigit c = true) : 48 ≤ c.toNat ∧ c.toNat ≤ 57 := by
  simp only [Text.isPlainDigit, Bool.and_eq_true, decide_eq_true_eq, Char.le_def,
    UInt32.le_iff_toNat_le] at h
  exact h

theorem isBlank_of_isPlainDigit (h : Text.isPlainDigit c = true) : Text.isBlank c = false := by
  have := toNat_of_isPlainDigit h
  simp only [Text.isBlank, Text.CodeRanges.contains, List.any_cons, List.any_nil,
    Bool.or_eq_false_iff, Bool.and_eq_false_iff, decide_eq_false_iff_not, and_true]
  omega

theorem isPlainDigit_of_isNameStart (h : isNameStart c = true) : Text.isPlainDigit c = false := by
  refine Bool.eq_false_iff.2 fun hdigit => ?_
  have := toNat_of_isPlainDigit hdigit
  have := toNat_of_isNameStart h
  omega

theorem ne_of_isNameStart (h : isNameStart c = true) : c ≠ '\'' ∧ c ≠ '"' ∧ c ≠ '$' := by
  have := toNat_of_isNameStart h
  refine ⟨?_, ?_, ?_⟩ <;>
  · rintro rfl
    revert this
    decide

end Token

/-! ## One word -/

namespace Word

theorem isName_of_letters {text : List Char} (hne : text ≠ [])
    (h : ∀ c ∈ text, Text.isPlainLetter c = true) : IsName text := by
  obtain ⟨c, rest, rfl⟩ := List.exists_cons_of_ne_nil hne
  obtain ⟨hc, hrest⟩ := List.forall_mem_cons.1 h
  refine ⟨c, rest, rfl, ?_, fun d hd => ?_⟩
  · rw [isNameStart, Token.isAlphabetic_of_isPlainLetter hc, Bool.true_or]
  · rw [isNamePart, Text.isAlphanumeric, Token.isAlphabetic_of_isPlainLetter (hrest d hd)]
    rfl

/-- Whether a text ends or goes on with a space. -/
def Parted (text : List Char) : Prop := ∀ c ∈ text.head?, c = ' '

theorem parted_spellAfter (words : List Word) : Parted (spellAfter words) := by
  cases words with
  | nil => simp [Parted, spellAfter]
  | cons word words => simp [Parted, spellAfter]

variable {p : Char → Bool} {text more : List Char}

theorem takeWhile_of_parted (hp : p ' ' = false) (h : ∀ c ∈ text, p c = true)
    (hmore : Parted more) : (text ++ more).takeWhile p = text := by
  rw [List.takeWhile_append_of_pos h]
  cases more with
  | nil => simp
  | cons c more =>
    obtain rfl : c = ' ' := hmore c rfl
    rw [List.takeWhile_cons_of_neg (by simp [hp]), List.append_nil]

theorem dropWhile_of_parted (hp : p ' ' = false) (h : ∀ c ∈ text, p c = true)
    (hmore : Parted more) : (text ++ more).dropWhile p = more := by
  rw [List.dropWhile_append_of_pos h]
  cases more with
  | nil => rfl
  | cons c more =>
    obtain rfl : c = ' ' := hmore c rfl
    rw [List.dropWhile_cons_of_neg (by simp [hp])]

theorem numberTail_of_parted (h : ∀ c ∈ text, Text.isPlainDigit c = true) (hmore : Parted more) :
    (Token.numberTail (text ++ more)).1 = text ∧ (Token.numberTail (text ++ more)).2.1 = more := by
  have htake := takeWhile_of_parted (by decide) h hmore
  have hdrop := dropWhile_of_parted (by decide) h hmore
  unfold Token.numberTail
  dsimp only
  split
  · rename_i hpoint
    rw [hdrop] at hpoint
    rw [hpoint] at hmore
    exact absurd (hmore '.' rfl) (by decide)
  · exact ⟨htake, hdrop⟩

theorem readString_quoted (stop : Nat) (whole read text more : List Char) :
    ∃ after, Token.readString stop whole '\'' read (quoted text ++ '\'' :: more) =
      .ok (String.ofList (read.reverse ++ text), after) ∧ after.1 = more := by
  induction text generalizing read with
  | nil =>
    refine ⟨⟨more, Nat.le_succ _⟩, ?_, rfl⟩
    change Token.readString stop whole '\'' read ('\'' :: more) = _
    rw [Token.readString.eq_def]
    dsimp only
    rw [if_pos rfl, List.append_nil]
    rfl
  | cons c text ih =>
    obtain ⟨after, hafter, hrest⟩ := ih (c :: read)
    rw [List.reverse_cons, List.append_assoc, List.singleton_append] at hafter
    by_cases hc : c = '\\' ∨ c = '\''
    · have htext : quoted (c :: text) ++ '\'' :: more =
          '\\' :: c :: (quoted text ++ '\'' :: more) := by
        rw [quoted, List.flatMap_cons, if_pos hc, ← quoted]
        rfl
      have hkept : (if c = 'n' then '\n' else if c = 't' then '\t' else c) = c := by
        rcases hc with rfl | rfl <;> rfl
      rw [htext, Token.readString.eq_def]
      dsimp only
      rw [if_neg (by decide), if_pos rfl, hkept, hafter]
      exact ⟨_, rfl, hrest⟩
    · have htext : quoted (c :: text) ++ '\'' :: more = c :: (quoted text ++ '\'' :: more) := by
        rw [quoted, List.flatMap_cons, if_neg hc, ← quoted]
        rfl
      obtain ⟨hescape, hquote⟩ := not_or.1 hc
      rw [htext, Token.readString.eq_def]
      dsimp only
      rw [if_neg hquote, if_neg hescape, hafter]
      exact ⟨_, rfl, hrest⟩

theorem find?_punct (p : Punct) (hmore : Parted more) :
    (Punct.all.find? fun q => q.chars.isPrefixOf (p.chars ++ more)) = some p := by
  cases more with
  | nil => cases p <;> rfl
  | cons c more =>
    obtain rfl : c = ' ' := hmore c rfl
    cases p <;> rfl

/-- A mark starts like nothing else. -/
theorem exists_chars_punct (p : Punct) : ∃ c text, p.chars = c :: text ∧ Text.isBlank c = false ∧
    Text.isPlainDigit c = false ∧ ¬ (c = '\'' ∨ c = '"') ∧ c ≠ '$' ∧ isNameStart c = false := by
  cases p <;> exact ⟨_, _, rfl, by decide +kernel⟩

/-- Whether a word is read from the start of a text, and not more than it. -/
def IsRead (word : Word) (more : List Char) : Prop :=
  ∀ stop, ∃ c text after, word.chars = c :: text ∧ Text.isBlank c = false ∧
    Token.read stop c (text ++ more) = .ok (word.token, after) ∧ after.1 = more

theorem isRead_number (n : Nat) (hmore : Parted more) : (number n).IsRead more := by
  intro stop
  obtain ⟨c, digits, hrepr, hc⟩ := Number.exists_digit_of_repr n
  have hdigits : ∀ d ∈ digits, Text.isPlainDigit d = true :=
    fun d hd => Number.isPlainDigit_of_mem_repr (hrepr ▸ List.mem_cons_of_mem c hd)
  obtain ⟨htail, hrest⟩ := numberTail_of_parted hdigits hmore
  refine ⟨c, digits, (Token.numberTail (digits ++ more)).2, hrepr,
    Token.isBlank_of_isPlainDigit hc, ?_, hrest⟩
  rw [Token.read.eq_def, if_pos hc, token, hrepr]
  dsimp only
  rw [htail]

/-- A string is read up to its closing quote, whatever comes after that. -/
theorem isRead_str (value : String) (more : List Char) : (str value).IsRead more := by
  intro stop
  obtain ⟨after, hafter, hrest⟩ := readString_quoted stop
    ('\'' :: (quoted value.toList ++ '\'' :: more)) [] value.toList more
  rw [List.reverse_nil, List.nil_append, String.ofList_toList] at hafter
  have htext : quoted value.toList ++ ['\''] ++ more = quoted value.toList ++ '\'' :: more := by
    rw [List.append_assoc, List.singleton_append]
  refine ⟨'\'', quoted value.toList ++ ['\''], ?_⟩
  rw [htext]
  refine ⟨after, rfl, by decide, ?_, hrest⟩
  rw [Token.read.eq_def, if_neg (by decide), if_pos (.inl rfl), hafter]
  rfl

theorem isRead_ident {name : String} (h : IsName name.toList) (hmore : Parted more) :
    (ident name).IsRead more := by
  intro stop
  obtain ⟨c, rest, hname, hc, hrest⟩ := h
  have hspace : isNamePart ' ' = false := by decide +kernel
  have htake := takeWhile_of_parted hspace hrest hmore
  obtain ⟨hsingle, hdouble, hdollar⟩ := Token.ne_of_isNameStart hc
  refine ⟨c, rest, ⟨_, Token.length_dropWhile_le isNamePart _⟩, hname,
    Token.isBlank_of_isNameStart hc, ?_, dropWhile_of_parted hspace hrest hmore⟩
  rw [Token.read.eq_def, if_neg (by rw [Token.isPlainDigit_of_isNameStart hc]; decide),
    if_neg (not_or.2 ⟨hsingle, hdouble⟩), if_neg hdollar, if_pos hc, htake, ← hname,
    String.ofList_toList]
  rfl

/-- A pointer is read up to its closing backquote, whatever comes after that. -/
theorem isRead_deref {pointer : String} (h : backquote ∉ pointer.toList) (more : List Char) :
    (deref pointer).IsRead more := by
  intro stop
  obtain ⟨after, hafter, hrest⟩ := Token.readPointer_append h more
  have htext : backquote :: (pointer.toList ++ [backquote]) ++ more =
      backquote :: (pointer.toList ++ backquote :: more) := by
    rw [List.cons_append, List.append_assoc, List.singleton_append]
  refine ⟨'$', backquote :: (pointer.toList ++ [backquote]), ?_⟩
  rw [htext]
  refine ⟨⟨after.1, Nat.le_trans after.2 (Nat.le_succ _)⟩, rfl, by decide, ?_, hrest⟩
  rw [Token.read.eq_def, if_neg (by decide), if_neg (by decide), if_pos rfl]
  dsimp only
  rw [if_pos rfl, hafter]
  dsimp only
  rw [String.ofList_toList]
  rfl

theorem isRead_punct (p : Punct) (hmore : Parted more) : (punct p).IsRead more := by
  intro stop
  obtain ⟨c, text, hp, hblank, hdigit, hquote, hdollar, hstart⟩ := exists_chars_punct p
  have hfound := find?_punct p hmore
  rw [hp, List.cons_append] at hfound
  refine ⟨c, text, ⟨_, Token.length_drop_tail_le p c (text ++ more)⟩, hp, hblank, ?_, ?_⟩
  · rw [Token.read.eq_def, if_neg (by rw [hdigit]; decide), if_neg hquote, if_neg hdollar,
      if_neg (by rw [hstart]; decide), hfound]
    rfl
  · dsimp only
    rw [← List.cons_append, ← hp, List.drop_left]

/-- A word is read up to a space or the end. -/
theorem isRead_of_parted {word : Word} (h : word.Readable) (hmore : Parted more) :
    word.IsRead more := by
  cases word with
  | number n => exact isRead_number n hmore
  | str value => exact isRead_str value more
  | ident name => exact isRead_ident h hmore
  | deref pointer => exact isRead_deref h more
  | punct p => exact isRead_punct p hmore

/-! ## All the words -/

theorem exists_scanTo_append {word : Word} (h : word.Readable) {stop : Nat} (hmore : Parted more)
    {spans : List Spanned} (hspans : Token.scanTo stop more = .ok spans) :
    ∃ span, Token.scanTo stop (word.chars ++ more) = .ok (span :: spans) ∧
      span.token = word.token := by
  obtain ⟨c, text, after, hchars, hblank, hread, hafter⟩ := isRead_of_parted h hmore stop
  refine ⟨⟨word.token, c :: (text ++ more)⟩, ?_, rfl⟩
  rw [hchars, List.cons_append, Token.scanTo, if_neg (by rw [hblank]; decide), hread]
  change (Token.scanTo stop after.1).bind _ = _
  rw [hafter, hspans]
  rfl

theorem exists_scanTo_spellAfter {words : List Word} (h : ∀ word ∈ words, word.Readable)
    (stop : Nat) :
    ∃ spans, Token.scanTo stop (spellAfter words) = .ok spans ∧
      spans.map Spanned.token = words.map token := by
  induction words with
  | nil => exact ⟨[], by rw [spellAfter, List.flatMap_nil, Token.scanTo], rfl⟩
  | cons word words ih =>
    obtain ⟨hword, hwords⟩ := List.forall_mem_cons.1 h
    obtain ⟨spans, hspans, htokens⟩ := ih hwords
    obtain ⟨span, hspan, htoken⟩ := exists_scanTo_append hword (parted_spellAfter words) hspans
    refine ⟨span :: spans, ?_, by rw [List.map_cons, List.map_cons, htoken, htokens]⟩
    rw [spellAfter, List.flatMap_cons, ← spellAfter, List.cons_append, Token.scanTo,
      if_pos (by decide), hspan]

/-- The words of a text are those that it has been written from. -/
theorem exists_scan_spell {words : List Word} (h : ∀ word ∈ words, word.Readable) :
    ∃ spans, Token.scan (spell words) = .ok spans ∧
      spans.map Spanned.token = words.map token := by
  cases words with
  | nil =>
    refine ⟨[], ?_, rfl⟩
    rw [spell, List.map_nil, Token.scan, List.intercalate_nil, Token.scanTo]
  | cons word words =>
    obtain ⟨hword, hwords⟩ := List.forall_mem_cons.1 h
    obtain ⟨spans, hspans, htokens⟩ := exists_scanTo_spellAfter hwords
      (Text.byteLength (word.chars ++ spellAfter words))
    obtain ⟨span, hspan, htoken⟩ := exists_scanTo_append hword (parted_spellAfter words) hspans
    refine ⟨span :: spans, ?_, by rw [List.map_cons, List.map_cons, htoken, htokens]⟩
    rw [spell_cons, Token.scan, hspan]

end Word

end FormSchema
