import FormSchema.Expr.Evaluator
import FormSchema.Expr.Mention
import FormSchema.Proofs.Expr.Atom
import Mathlib

/-!
What a source mentions and what its expression reads.  As long as no string in a source, as it is
written, has a dollar sign before a backquote in it, the pointers that are found in the source are
those that the expression reads.

To evaluate the parser on given sources is to unfold functions on characters whose equations are in
distant parts of Mathlib, so that the whole of it is imported.
-/

namespace FormSchema

open Token (backquote)

namespace Token

/-- A string as it is written, up to the quote that closes it. -/
def written (quote : Char) : List Char → List Char
  | [] => []
  | c :: text =>
    if c = quote then []
    else if c = '\\' then
      match text with
      | [] => [c]
      | e :: text => c :: e :: written quote text
    else c :: written quote text

/-- What a pointer starts with. -/
def opening : List Char := ['$', backquote]

theorem eq_of_readPointer {text pointer : List Char}
    {rest : { rest : List Char // rest.length ≤ text.length }}
    (h : readPointer text = some (pointer, rest)) :
    text = pointer ++ backquote :: rest.1 ∧ backquote ∉ pointer := by
  induction text generalizing pointer with
  | nil => cases h
  | cons c text ih =>
    rw [readPointer] at h
    split at h
    · rename_i hc
      obtain ⟨rfl, rfl⟩ := Prod.mk.inj (Option.some.inj h)
      exact ⟨by rw [hc]; rfl, List.not_mem_nil⟩
    · rename_i hc
      obtain ⟨⟨p, after⟩, hp, heq⟩ := Option.map_eq_some_iff.1 h
      obtain ⟨rfl, rfl⟩ := Prod.mk.inj heq
      obtain ⟨htext, hmem⟩ := ih hp
      refine ⟨congrArg (c :: ·) htext, ?_⟩
      rw [List.mem_cons]
      exact fun hor => hor.elim (fun heq => hc heq.symm) hmem

theorem readPointer_append {pointer : List Char} (h : backquote ∉ pointer) (rest : List Char) :
    ∃ after, readPointer (pointer ++ backquote :: rest) = some (pointer, after) ∧
      after.1 = rest := by
  induction pointer with
  | nil =>
    refine ⟨⟨rest, Nat.le_succ _⟩, ?_, rfl⟩
    change readPointer (backquote :: rest) = _
    rw [readPointer, if_pos rfl]
  | cons c pointer ih =>
    rw [List.mem_cons, not_or] at h
    obtain ⟨after, hafter, hrest⟩ := ih h.2
    refine ⟨⟨after.1, Nat.le_trans after.2 (Nat.le_succ _)⟩, ?_, hrest⟩
    change readPointer (c :: (pointer ++ backquote :: rest)) = _
    rw [readPointer, if_neg (Ne.symm h.1), hafter]
    rfl

end Token

namespace Expr

theorem mentionedIn_cons {c : Char} {text : List Char}
    (h : ¬ (c = '$' ∧ text.head? = some backquote)) :
    mentionedIn (c :: text) = mentionedIn text := by
  cases text with
  | nil => rw [mentionedIn, mentionedIn]
  | cons d text =>
    rw [mentionedIn, if_neg]
    rintro ⟨hc, hd⟩
    exact h ⟨hc, congrArg some hd⟩

/-- A stretch in which no pointer starts mentions nothing. -/
theorem mentionedIn_append {chunk more : List Char} (h : ¬ Token.opening <:+: chunk)
    (hmore : more.head? ≠ some backquote) : mentionedIn (chunk ++ more) = mentionedIn more := by
  induction chunk with
  | nil => rfl
  | cons c chunk ih =>
    rw [List.infix_cons_iff, not_or] at h
    rw [List.cons_append, mentionedIn_cons, ih h.2]
    rintro ⟨rfl, hhead⟩
    cases chunk with
    | nil => exact hmore hhead
    | cons d chunk =>
      obtain rfl : d = backquote := Option.some.inj hhead
      exact h.1 ⟨chunk, rfl⟩

theorem mentionedIn_pointer {pointer : List Char} (h : backquote ∉ pointer) (rest : List Char) :
    mentionedIn ('$' :: backquote :: (pointer ++ backquote :: rest)) =
      String.ofList pointer :: mentionedIn rest := by
  obtain ⟨after, hafter, hrest⟩ := Token.readPointer_append h rest
  rw [mentionedIn, if_pos ⟨rfl, rfl⟩, hafter]
  dsimp only
  rw [hrest]

end Expr

namespace Token

/-- What a string is made of.  A backquote in it is one of its text. -/
theorem eq_of_readString {stop : Nat} {whole text read : List Char} {quote : Char} {s : String}
    {rest : { rest : List Char // rest.length ≤ text.length }}
    (h : readString stop whole quote read text = .ok (s, rest)) :
    text = written quote text ++ quote :: rest.1 ∧ ∃ tail, s.toList = read.reverse ++ tail ∧
      (backquote ∉ tail → backquote ∉ written quote text) := by
  induction text using written.induct quote generalizing read s with
  | case1 => cases h
  | case2 text =>
    rw [readString.eq_def] at h
    dsimp only at h
    rw [if_pos rfl] at h
    obtain ⟨rfl, rfl⟩ := Prod.mk.inj (Except.ok.inj h)
    rw [written.eq_def]
    dsimp only
    rw [if_pos rfl]
    exact ⟨rfl, [], by simp, id⟩
  | case3 hquote =>
    rw [readString.eq_def] at h
    dsimp only at h
    rw [if_neg hquote, if_pos rfl] at h
    cases h
  | case4 e text hquote ih =>
    rw [readString.eq_def] at h
    dsimp only at h
    rw [if_neg hquote, if_pos rfl] at h
    obtain ⟨⟨s', after⟩, hok, heq⟩ := map_eq_ok.1 h
    obtain ⟨rfl, rfl⟩ := Prod.mk.inj heq
    obtain ⟨htext, tail, hs, hmem⟩ := ih hok
    rw [written.eq_def]
    dsimp only
    rw [if_neg hquote, if_pos rfl]
    refine ⟨congrArg (fun text => '\\' :: e :: text) htext, _ :: tail,
      by rw [hs, List.reverse_cons, List.append_assoc]; rfl, ?_⟩
    simp only [List.mem_cons, not_or]
    rintro ⟨hhead, htail⟩
    refine ⟨by decide, ?_, hmem htail⟩
    rintro rfl
    exact hhead rfl
  | case5 c text hquote hguard ih =>
    rw [readString.eq_def] at h
    dsimp only at h
    rw [if_neg hquote, if_neg hguard] at h
    obtain ⟨⟨s', after⟩, hok, heq⟩ := map_eq_ok.1 h
    obtain ⟨rfl, rfl⟩ := Prod.mk.inj heq
    obtain ⟨htext, tail, hs, hmem⟩ := ih hok
    rw [written.eq_def]
    dsimp only
    rw [if_neg hquote, if_neg hguard]
    refine ⟨congrArg (c :: ·) htext, c :: tail,
      by rw [hs, List.reverse_cons, List.append_assoc]; rfl, ?_⟩
    simp only [List.mem_cons, not_or]
    rintro ⟨hhead, htail⟩
    exact ⟨hhead, hmem htail⟩

theorem numberTail_eq (text : List Char) :
    text = (numberTail text).1 ++ (numberTail text).2.1 ∧
      ∀ c ∈ (numberTail text).1, Text.isPlainDigit c = true ∨ c = '.' := by
  have digits (text : List Char) : ∀ c ∈ text.takeWhile Text.isPlainDigit, Text.isPlainDigit c = true :=
    fun c hc => List.all_eq_true.1 List.all_takeWhile c hc
  have hsplit := (List.takeWhile_append_dropWhile (p := Text.isPlainDigit) (l := text)).symm
  unfold numberTail
  dsimp only
  split
  · rename_i d rest hrest
    rw [hrest] at hsplit
    split
    · rename_i hd
      constructor
      · conv_lhs => rw [hsplit, ← List.takeWhile_append_dropWhile (p := Text.isPlainDigit) (l := rest)]
        simp
      · simp only [List.mem_append, List.mem_cons]
        rintro c (hc | rfl | rfl | hc)
        · exact .inl (digits text c hc)
        · exact .inr rfl
        · exact .inl hd
        · exact .inl (digits rest c hc)
    · exact ⟨hsplit, fun c hc => .inl (digits text c hc)⟩
  · exact ⟨hsplit, fun c hc => .inl (digits text c hc)⟩

end Token

/-- The string that a word is, as it is written. -/
def Spanned.written? : Spanned → Option (List Char)
  | ⟨.str _, quote :: text⟩ => some (Token.written quote text)
  | _ => none

namespace Token

theorem not_opening_of_not_mem {chunk : List Char} (h : backquote ∉ chunk) :
    ¬ opening <:+: chunk := fun hwithin => h (hwithin.mem (by decide))

theorem not_opening_quoted {quote : Char} {body : List Char} (hquote : quote = '\'' ∨ quote = '"')
    (h : ¬ opening <:+: body) : ¬ opening <:+: quote :: (body ++ [quote]) := by
  rw [List.infix_cons_iff, List.infix_concat_iff, List.suffix_concat_iff]
  rintro (hstarts | (hempty | ⟨init, hinit, -⟩) | hwithin)
  · obtain ⟨hdollar, -⟩ := List.cons_prefix_cons.1 hstarts
    rcases hquote with rfl | rfl <;> cases hdollar
  · cases hempty
  · have hlast := congrArg List.getLast? hinit
    rw [List.getLast?_concat] at hlast
    rcases hquote with rfl | rfl <;> cases hlast
  · exact h hwithin

/-- The characters that quote, and the braces. -/
def marks : List Char := ['\'', '"', backquote, '\x7b', '\x7d']

theorem not_mem_marks {p : Char → Bool} {c : Char} (hmarks : (marks.all fun c => !p c) = true)
    (h : p c = true) : c ∉ marks := fun hmem => by
  have hnot := List.all_eq_true.1 hmarks c hmem
  rw [h] at hnot
  cases hnot

theorem not_mem_marks_of_mem_chars (p : Punct) : ∀ c ∈ p.chars, c ∉ marks := by
  cases p <;> simp [Punct.chars, Punct.text, marks, backquote]

theorem chars_ne_nil (p : Punct) : p.chars ≠ [] := by
  cases p <;> exact List.cons_ne_nil _ _

/-- What a word is: a stretch without quotes and braces, a string, or a pointer between
backquotes. -/
theorem read_cases {stop : Nat} {c : Char} {text : List Char} {token : Token}
    {rest : { rest : List Char // rest.length ≤ text.length }}
    (h : read stop c text = .ok (token, rest)) :
    (∃ chunk, token.atom? = none ∧ (∀ d ∈ c :: chunk, d ∉ marks) ∧ text = chunk ++ rest.1) ∨
      (∃ s, token = .str s ∧ (c = '\'' ∨ c = '"') ∧
        readString stop (c :: text) c [] text = .ok (s, rest)) ∨
      ∃ pointer, token = .deref (String.ofList pointer) ∧ backquote ∉ pointer ∧
        c :: text = '$' :: backquote :: (pointer ++ backquote :: rest.1) := by
  rw [read.eq_def] at h
  dsimp only at h
  split at h
  · rename_i hc
    obtain ⟨rfl, rfl⟩ := Prod.mk.inj (Except.ok.inj h)
    obtain ⟨htext, hdigits⟩ := numberTail_eq text
    have hplain {d : Char} (hd : Text.isPlainDigit d = true) : d ∉ marks :=
      not_mem_marks (by decide +kernel) hd
    refine .inl ⟨(numberTail text).1, rfl, List.forall_mem_cons.2 ⟨hplain hc, fun d hd => ?_⟩, htext⟩
    rcases hdigits d hd with hdigit | rfl
    · exact hplain hdigit
    · decide
  · split at h
    · rename_i hquote
      obtain ⟨⟨s, after⟩, hok, heq⟩ := map_eq_ok.1 h
      obtain ⟨rfl, rfl⟩ := Prod.mk.inj heq
      exact .inr (.inl ⟨s, rfl, hquote, hok⟩)
    · split at h
      · rename_i hdollar
        cases text with
        | nil => cases h
        | cons b pointer =>
          dsimp only at h
          split at h
          · rename_i hb
            split at h
            · rename_i p after hpointer
              obtain ⟨rfl, rfl⟩ := Prod.mk.inj (Except.ok.inj h)
              obtain ⟨htext, hmem⟩ := eq_of_readPointer hpointer
              refine .inr (.inr ⟨p, rfl, hmem, ?_⟩)
              rw [hdollar, hb]
              exact congrArg (fun text => '$' :: backquote :: text) htext
            · cases h
          · cases h
      · split at h
        · rename_i hstart
          obtain ⟨rfl, rfl⟩ := Prod.mk.inj (Except.ok.inj h)
          refine .inl ⟨text.takeWhile isNamePart, rfl, List.forall_mem_cons.2 ⟨?_, fun d hd => ?_⟩,
            List.takeWhile_append_dropWhile.symm⟩
          · exact not_mem_marks (by decide +kernel) hstart
          · exact not_mem_marks (by decide +kernel) (List.all_eq_true.1 List.all_takeWhile d hd)
        · split at h
          · rename_i p hp
            obtain ⟨rfl, rfl⟩ := Prod.mk.inj (Except.ok.inj h)
            have hfound := List.find?_some hp
            obtain ⟨more, hmore⟩ := List.isPrefixOf_iff_prefix.1 hfound
            have hplain := not_mem_marks_of_mem_chars p
            obtain ⟨d, chunk, hchars⟩ := List.exists_cons_of_ne_nil (chars_ne_nil p)
            rw [hchars] at hplain
            rw [hchars, List.cons_append] at hmore
            obtain ⟨rfl, rfl⟩ := List.cons.inj hmore
            refine .inl ⟨chunk, rfl, hplain, ?_⟩
            dsimp only
            rw [hchars, List.length_cons, List.drop_succ_cons, List.drop_left]
          · cases h

/-- What a word is made of: a pointer between backquotes, or a stretch that is no pointer and in which
a pointer can only start if one starts in the string that the word is. -/
theorem exists_chunk {stop : Nat} {c : Char} {text : List Char} {token : Token}
    {rest : { rest : List Char // rest.length ≤ text.length }}
    (h : read stop c text = .ok (token, rest)) :
    c ≠ backquote ∧
      ((∃ pointer, backquote ∉ pointer ∧ token.atom? = some (.pointer (String.ofList pointer)) ∧
          c :: text = '$' :: backquote :: (pointer ++ backquote :: rest.1)) ∨
        token.atom?.bind Atom.pointer? = none ∧ ∃ chunk, c :: text = chunk ++ rest.1 ∧
          (opening <:+: chunk → ∃ s, Spanned.written? ⟨token, c :: text⟩ = some s ∧
            opening <:+: s)) := by
  obtain ⟨chunk, hatom, hplain, htext⟩ | ⟨s, rfl, hquote, hstring⟩ | ⟨pointer, rfl, hmem, htext⟩ :=
    read_cases h
  · have hnot : backquote ∉ c :: chunk := fun hmem => hplain _ hmem (by decide)
    refine ⟨fun heq => hnot (heq ▸ List.mem_cons_self), .inr ⟨by rw [hatom]; rfl, c :: chunk,
      congrArg (c :: ·) htext, fun hopen => absurd hopen (not_opening_of_not_mem hnot)⟩⟩
  · obtain ⟨htext, -⟩ := eq_of_readString hstring
    refine ⟨by rcases hquote with rfl | rfl <;> decide,
      .inr ⟨rfl, c :: (written c text ++ [c]), ?_, fun hopen => ⟨_, rfl, ?_⟩⟩⟩
    · rw [List.cons_append, List.append_assoc]
      exact congrArg (c :: ·) htext
    · by_contra hwritten
      exact not_opening_quoted hquote hwritten hopen
  · refine ⟨?_, .inl ⟨pointer, hmem, rfl, htext⟩⟩
    rw [(List.cons.inj htext).1]
    decide

theorem head?_ne_of_scanTo {stop : Nat} {text : List Char} {words : List Spanned}
    (h : scanTo stop text = .ok words) : text.head? ≠ some backquote := by
  cases text with
  | nil => simp
  | cons c text =>
    rw [scanTo] at h
    intro hhead
    obtain rfl : c = backquote := Option.some.inj hhead
    split at h
    · rename_i hblank
      rw [show Text.isBlank backquote = false by decide +kernel] at hblank
      cases hblank
    · obtain ⟨⟨token, rest⟩, hread, -⟩ := bind_eq_ok.1 h
      exact (exists_chunk hread).1 rfl

/-- Every word has been read where it stands. -/
theorem exists_read_of_scanTo {stop : Nat} {text : List Char} {words : List Spanned}
    (h : scanTo stop text = .ok words) {word : Spanned} (hword : word ∈ words) :
    ∃ c text rest, word.text = c :: text ∧ read stop c text = .ok (word.token, rest) := by
  induction text using scanTo.induct generalizing words with
  | case1 =>
    rw [scanTo] at h
    obtain rfl := Except.ok.inj h
    cases hword
  | case2 c text hblank ih =>
    rw [scanTo, if_pos hblank] at h
    exact ih h hword
  | case3 c text hblank ih =>
    rw [scanTo, if_neg hblank] at h
    obtain ⟨⟨token, rest⟩, hread, h⟩ := bind_eq_ok.1 h
    obtain ⟨tail, htail, h⟩ := bind_eq_ok.1 h
    obtain rfl := Except.ok.inj h
    rcases List.mem_cons.1 hword with rfl | hword
    · exact ⟨c, text, rest, rfl, hread⟩
    · exact ih rest htail hword

theorem readString_of_read {stop : Nat} {c : Char} {text : List Char} {value : String}
    {rest : { rest : List Char // rest.length ≤ text.length }}
    (h : read stop c text = .ok (.str value, rest)) :
    readString stop (c :: text) c [] text = .ok (value, rest) := by
  obtain ⟨_, hatom, -⟩ | ⟨s, hs, -, hstring⟩ | ⟨_, hpointer, -⟩ := read_cases h
  · cases hatom
  · obtain rfl := Token.str.inj hs
    exact hstring
  · cases hpointer

/-- A string without backquotes is written without them. -/
theorem not_mem_written {stop : Nat} {text : List Char} {words : List Spanned}
    (h : scanTo stop text = .ok words) {word : Spanned} (hword : word ∈ words) {s : List Char}
    (hs : word.written? = some s) :
    ∃ value, word.token = .str value ∧ (backquote ∉ value.toList → backquote ∉ s) := by
  obtain ⟨c, text, rest, htext, hread⟩ := exists_read_of_scanTo h hword
  obtain ⟨token, wordText⟩ := word
  obtain rfl : wordText = c :: text := htext
  cases token with
  | str value =>
    obtain rfl : written c text = s := Option.some.inj hs
    obtain ⟨-, tail, htail, hmem⟩ := eq_of_readString (readString_of_read hread)
    rw [List.reverse_nil, List.nil_append] at htail
    exact ⟨value, rfl, fun hvalue => hmem (htail ▸ hvalue)⟩
  | _ => cases hs

end Token

/-- Whether in none of these strings a pointer starts. -/
def Clear (strings : List (List Char)) : Prop := ∀ s ∈ strings, ¬ Token.opening <:+: s

instance (strings : List (List Char)) : Decidable (Clear strings) :=
  inferInstanceAs (Decidable (∀ s ∈ strings, ¬ Token.opening <:+: s))

/-- Whether no text has a backquote in it. -/
def PlainTexts (atoms : List Atom) : Prop := ∀ s, .text s ∈ atoms → backquote ∉ s.toList

namespace Expr

theorem clear_of_plainTexts {stop : Nat} {text : List Char} {words : List Spanned}
    (h : Token.scanTo stop text = .ok words)
    (plain : PlainTexts (wordAtoms (words.map (Spanned.placed stop)))) :
    Clear (words.filterMap Spanned.written?) := by
  intro s hs
  obtain ⟨word, hword, hwritten⟩ := List.mem_filterMap.1 hs
  obtain ⟨value, htoken, hmem⟩ := Token.not_mem_written h hword hwritten
  refine Token.not_opening_of_not_mem (hmem (plain value ?_))
  exact List.mem_filterMap.2 ⟨_, List.mem_map_of_mem hword, by rw [Spanned.placed, htoken]; rfl⟩

/-- The strings in a source, as they are written. -/
def strings (source : List Char) : List (List Char) :=
  match Token.scan source with
  | .ok words => words.filterMap Spanned.written?
  | .error _ => []

/-- What is mentioned in words is what they read. -/
theorem mentionedIn_of_scanTo {stop : Nat} {text more : List Char} {words : List Spanned}
    (h : Token.scanTo stop text = .ok words) (clear : Clear (words.filterMap Spanned.written?))
    (hmore : more.head? ≠ some backquote) :
    mentionedIn (text ++ more) =
      (wordAtoms (words.map (Spanned.placed stop))).filterMap Atom.pointer? ++ mentionedIn more := by
  induction text using Token.scanTo.induct generalizing words with
  | case1 =>
    rw [Token.scanTo] at h
    obtain rfl := Except.ok.inj h
    rfl
  | case2 c text hblank ih =>
    rw [Token.scanTo, if_pos hblank] at h
    rw [List.cons_append, mentionedIn_cons, ih h clear]
    rintro ⟨rfl, -⟩
    rw [show Text.isBlank '$' = false by decide +kernel] at hblank
    cases hblank
  | case3 c text hblank ih =>
    rw [Token.scanTo, if_neg hblank] at h
    obtain ⟨⟨token, rest⟩, hread, h⟩ := bind_eq_ok.1 h
    obtain ⟨tail, htail, h⟩ := bind_eq_ok.1 h
    obtain rfl := Except.ok.inj h
    have hrest := ih rest htail fun s hs => by
      obtain ⟨word, hword, hwritten⟩ := List.mem_filterMap.1 hs
      exact clear s (List.mem_filterMap.2 ⟨word, List.mem_cons_of_mem _ hword, hwritten⟩)
    have hhead : (rest.1 ++ more).head? ≠ some backquote := by
      have := Token.head?_ne_of_scanTo htail
      cases hcases : rest.1 with
      | nil => exact hmore
      | cons d chars =>
        rw [hcases] at this
        exact this
    rw [List.map_cons, wordAtoms_cons, Spanned.token_placed, List.filterMap_append]
    obtain ⟨-, ⟨pointer, hpointer, hatom, htext⟩ | ⟨hatom, chunk, htext, hchunk⟩⟩ :=
      Token.exists_chunk hread
    · rw [htext, List.cons_append, List.cons_append, List.append_assoc, List.cons_append,
        mentionedIn_pointer hpointer, hrest]
      dsimp only
      rw [hatom]
      rfl
    · have hnone : token.atom?.toList.filterMap Atom.pointer? = [] := by
        cases hcases : token.atom? with
        | none => rfl
        | some atom =>
          rw [hcases] at hatom
          exact List.filterMap_cons_none hatom
      have hclear : ¬ Token.opening <:+: chunk := by
        intro hopen
        obtain ⟨s, hs, hwithin⟩ := hchunk hopen
        exact clear s (List.mem_filterMap.2 ⟨_, List.mem_cons_self, hs⟩) hwithin
      rw [htext, List.append_assoc, mentionedIn_append hclear hhead, hrest, hnone, List.nil_append]

/-- What an expression reads is mentioned in its source, and nothing else is. -/
theorem mentionedIn_of_parseChars {source more : List Char} {e : Expr}
    (h : parseChars source = .ok e) (clear : Clear (strings source))
    (hmore : more.head? ≠ some backquote) :
    mentionedIn (source ++ more) = e.derefs ++ mentionedIn more := by
  obtain ⟨words, hwords, h⟩ := bind_eq_ok.1 h
  rw [strings, hwords] at clear
  rw [derefs_eq, atoms_ofWords h]
  exact mentionedIn_of_scanTo hwords clear hmore

theorem clear_strings_of_plainTexts {source : List Char} {e : Expr}
    (h : parseChars source = .ok e) (plain : PlainTexts e.atoms) : Clear (strings source) := by
  obtain ⟨words, hwords, h⟩ := bind_eq_ok.1 h
  rw [atoms_ofWords h] at plain
  rw [strings, hwords]
  exact clear_of_plainTexts hwords plain

/-- As long as no pointer starts in a string, a source mentions what its expression reads. -/
theorem mentioned_of_parse {source : String} {e : Expr} (h : parse source = .ok e)
    (clear : Clear (strings source.toList)) : mentioned source = e.derefs := by
  have hnil : ([] : List Char).head? ≠ some backquote := by simp
  rw [mentioned, ← List.append_nil source.toList, mentionedIn_of_parseChars h clear hnil, mentionedIn,
    List.append_nil]

end Expr

namespace Template

theorem eq_of_splitBrace {quote : Option Char} {guarded : Bool} {depth : Nat} {text inner : List Char}
    {rest : { rest : List Char // rest.length < text.length }}
    (h : splitBrace quote guarded depth text = some (inner, rest)) :
    text = inner ++ '\x7d' :: rest.1 := by
  induction text generalizing quote guarded depth inner with
  | nil => cases h
  | cons c text ih =>
    have goOn {quote : Option Char} {guarded : Bool} {depth : Nat} {inner : List Char}
        {rest : { rest : List Char // rest.length < (c :: text).length }}
        (h : (splitBrace quote guarded depth text).map (fun found =>
          ((c :: found.1, ⟨found.2.1, Nat.lt_succ_of_lt found.2.2⟩) :
            List Char × { rest : List Char // rest.length < (c :: text).length })) =
          some (inner, rest)) : c :: text = inner ++ '\x7d' :: rest.1 := by
      obtain ⟨⟨body, after⟩, hok, heq⟩ := Option.map_eq_some_iff.1 h
      obtain ⟨rfl, rfl⟩ := Prod.mk.inj heq
      exact congrArg (c :: ·) (ih hok)
    rw [splitBrace.eq_def] at h
    dsimp only at h
    split at h
    · split at h
      · exact goOn h
      · split at h
        · exact goOn h
        · split at h <;> exact goOn h
    · split at h
      · exact goOn h
      · split at h
        · exact goOn h
        · split at h
          · rename_i hbrace
            split at h
            · obtain ⟨rfl, rfl⟩ := Prod.mk.inj (Option.some.inj h)
              exact congrArg (· :: text) hbrace
            · exact goOn h
          · exact goOn h

/-- The sources of the expressions in the braces of a template. -/
def holes (text : List Char) : List (List Char) :=
  match text with
  | [] => []
  | c :: text =>
    if c = '$' then
      match text with
      | [] => []
      | d :: body =>
        if d = Token.backquote then
          match Token.readPointer body with
          | none => []
          | some (_, rest) => holes rest.1
        else if d = '\x7b' then
          match splitBrace none false 0 body with
          | none => []
          | some (inner, rest) => inner :: holes rest.1
        else holes (d :: body)
    else holes text
termination_by text.length
decreasing_by
  · have := rest.2; simp only [List.length_cons]; omega
  · have := rest.2; simp only [List.length_cons]; omega
  · simp
  · simp

theorem derefs_append (parts more : List Part) :
    derefs (parts ++ more) = derefs parts ++ derefs more := List.flatMap_append

theorem derefs_flush (gathered : List Char) : derefs (flush gathered) = [] := by
  rw [flush]
  split <;> rfl

/-- What is mentioned in a template is what its holes read. -/
theorem mentionedIn_of_partsTo {stop : Nat} {gathered text : List Char} {parts : List Part}
    (h : partsTo stop gathered text = .ok parts)
    (clear : ∀ hole ∈ holes text, Clear (Expr.strings hole)) :
    Expr.mentionedIn text = derefs parts := by
  induction gathered, text using partsTo.induct generalizing parts with
  | case1 gathered =>
    rw [partsTo] at h
    obtain rfl := Except.ok.inj h
    rw [derefs_flush, Expr.mentionedIn]
  | case2 gathered ih =>
    rw [partsTo, if_pos rfl] at h
    rw [← ih h (by rw [holes]; simp), Expr.mentionedIn, Expr.mentionedIn]
  | case3 gathered body hpointer =>
    rw [partsTo, if_pos rfl, if_pos rfl, hpointer] at h
    cases h
  | case4 gathered body pointer rest hpointer ih =>
    rw [partsTo, if_pos rfl, if_pos rfl, hpointer] at h
    obtain ⟨tail, htail, h⟩ := bind_eq_ok.1 h
    obtain rfl := Except.ok.inj h
    rw [holes, if_pos rfl, if_pos rfl, hpointer] at clear
    obtain ⟨hbody, hmem⟩ := Token.eq_of_readPointer hpointer
    rw [hbody, Expr.mentionedIn_pointer hmem, ih htail clear, derefs_append, derefs_flush]
    rfl
  | case5 gathered body hsplit hne =>
    rw [partsTo, if_pos rfl, if_neg hne, if_pos rfl, hsplit] at h
    cases h
  | case6 gathered body inner rest hsplit e he hne =>
    rw [partsTo, if_pos rfl, if_neg hne, if_pos rfl, hsplit] at h
    dsimp only at h
    rw [he] at h
    cases h
  | case7 gathered body inner rest hsplit e he hne ih =>
    rw [partsTo, if_pos rfl, if_neg hne, if_pos rfl, hsplit] at h
    dsimp only at h
    rw [he] at h
    obtain ⟨tail, htail, h⟩ := bind_eq_ok.1 h
    obtain rfl := Except.ok.inj h
    rw [holes, if_pos rfl, if_neg hne, if_pos rfl, hsplit] at clear
    have hrest := ih htail fun hole hhole => clear hole (List.mem_cons_of_mem _ hhole)
    have hhead : ('\x7d' :: rest.1).head? ≠ some backquote := by simp [backquote]
    have hinner := Expr.mentionedIn_of_parseChars he (clear inner List.mem_cons_self) hhead
    rw [Expr.mentionedIn_cons (by simpa using hne), Expr.mentionedIn_cons (by simp),
      eq_of_splitBrace hsplit, hinner, Expr.mentionedIn_cons (by simp), hrest, derefs_append,
      derefs_flush]
    rfl
  | case8 gathered c text hc hc' ih =>
    rw [partsTo, if_pos rfl, if_neg hc, if_neg hc'] at h
    rw [holes, if_pos rfl, if_neg hc, if_neg hc'] at clear
    rw [Expr.mentionedIn_cons, ih h clear]
    rintro ⟨-, hhead⟩
    exact hc (Option.some.inj hhead)
  | case9 gathered c text hc ih =>
    rw [partsTo.eq_def] at h
    rw [holes.eq_def] at clear
    dsimp only at h clear
    rw [if_neg hc] at h clear
    rw [Expr.mentionedIn_cons, ih h clear]
    rintro ⟨heq, -⟩
    exact hc heq

/-- The sources in the braces of a template are read as expressions that stand in its parts. -/
theorem exists_of_mem_holes {stop : Nat} {gathered text : List Char} {parts : List Part}
    (h : partsTo stop gathered text = .ok parts) {hole : List Char} (hhole : hole ∈ holes text) :
    ∃ e, Expr.parseChars hole = .ok e ∧ .hole e ∈ parts := by
  induction gathered, text using partsTo.induct generalizing parts with
  | case1 gathered =>
    rw [holes] at hhole
    cases hhole
  | case2 gathered ih =>
    rw [holes, if_pos rfl] at hhole
    cases hhole
  | case3 gathered body hpointer =>
    rw [partsTo, if_pos rfl, if_pos rfl, hpointer] at h
    cases h
  | case4 gathered body pointer rest hpointer ih =>
    rw [partsTo, if_pos rfl, if_pos rfl, hpointer] at h
    obtain ⟨tail, htail, h⟩ := bind_eq_ok.1 h
    obtain rfl := Except.ok.inj h
    rw [holes, if_pos rfl, if_pos rfl, hpointer] at hhole
    obtain ⟨e, he, hmem⟩ := ih htail hhole
    exact ⟨e, he, List.mem_append_right _ (List.mem_cons_of_mem _ hmem)⟩
  | case5 gathered body hsplit hne =>
    rw [partsTo, if_pos rfl, if_neg hne, if_pos rfl, hsplit] at h
    cases h
  | case6 gathered body inner rest hsplit e he hne =>
    rw [partsTo, if_pos rfl, if_neg hne, if_pos rfl, hsplit] at h
    dsimp only at h
    rw [he] at h
    cases h
  | case7 gathered body inner rest hsplit e he hne ih =>
    rw [partsTo, if_pos rfl, if_neg hne, if_pos rfl, hsplit] at h
    dsimp only at h
    rw [he] at h
    obtain ⟨tail, htail, h⟩ := bind_eq_ok.1 h
    obtain rfl := Except.ok.inj h
    rw [holes, if_pos rfl, if_neg hne, if_pos rfl, hsplit] at hhole
    rcases List.mem_cons.1 hhole with rfl | hhole
    · exact ⟨e, he, List.mem_append_right _ List.mem_cons_self⟩
    · obtain ⟨e', he', hmem⟩ := ih htail hhole
      exact ⟨e', he', List.mem_append_right _ (List.mem_cons_of_mem _ hmem)⟩
  | case8 gathered c text hc hc' ih =>
    rw [partsTo, if_pos rfl, if_neg hc, if_neg hc'] at h
    rw [holes, if_pos rfl, if_neg hc, if_neg hc'] at hhole
    exact ih h hhole
  | case9 gathered c text hc ih =>
    rw [partsTo.eq_def] at h
    rw [holes.eq_def] at hhole
    dsimp only at h hhole
    rw [if_neg hc] at h hhole
    exact ih h hhole

end Template

/-- Every source mentions what is read from it, in the same order, as long as no string in it has
the start of a pointer in it: of an expression, and of a template with its holes. -/
theorem mentioned_eq_derefs (source : String) :
    (∀ e, Expr.parse source = .ok e → Clear (Expr.strings source.toList) →
      Expr.mentioned source = e.derefs) ∧
    (∀ parts, Template.parse source = .ok parts →
      (∀ hole ∈ Template.holes source.toList, Clear (Expr.strings hole)) →
      Expr.mentioned source = Template.derefs parts) := by
  constructor
  · intro e h clear
    exact Expr.mentioned_of_parse h clear
  · intro parts h clear
    exact Template.mentionedIn_of_partsTo h clear

theorem mentioned_eq_derefs_of_dollar :
    (∃ e, Expr.parse "'$' + $\x60a\x60" = .ok e ∧ Expr.mentioned "'$' + $\x60a\x60" = e.derefs) ∧
    ∃ parts, Template.parse "x $\x60b\x60 $\x7b'$' + $\x600/c\x60\x7d" = .ok parts ∧
      Expr.mentioned "x $\x60b\x60 $\x7b'$' + $\x600/c\x60\x7d" = Template.derefs parts := by
  have hparse : Expr.parse "'$' + $\x60a\x60" =
      .ok (.binary .add (.literal (.str "$")) (.deref "a")) := by cbv
  have hstrings : Expr.strings "'$' + $\x60a\x60".toList = [['$']] := by decide +kernel
  have htemplate : Template.parse "x $\x60b\x60 $\x7b'$' + $\x600/c\x60\x7d" =
      .ok [.text "x ", .hole (.deref "b"), .text " ",
        .hole (.binary .add (.literal (.str "$")) (.deref "0/c"))] := by cbv
  have hholes : Template.holes "x $\x60b\x60 $\x7b'$' + $\x600/c\x60\x7d".toList =
      ["'$' + $\x600/c\x60".toList] := by decide +kernel
  have hhole : Expr.strings "'$' + $\x600/c\x60".toList = [['$']] := by decide +kernel
  refine ⟨⟨_, hparse, (mentioned_eq_derefs _).1 _ hparse ?_⟩,
    ⟨_, htemplate, (mentioned_eq_derefs _).2 _ htemplate ?_⟩⟩
  · rw [hstrings]
    decide
  · rw [hholes]
    intro hole hmem
    rw [List.mem_singleton.1 hmem, hhole]
    decide

/-- A string can start a pointer for the scan that is none for the expression. -/
theorem mentioned_ne_derefs_of_opening : ∃ e, Expr.parse "'$\x60' + $\x60a\x60" = .ok e ∧
    Expr.mentioned "'$\x60' + $\x60a\x60" ≠ e.derefs := by
  have hparse : Expr.parse "'$\x60' + $\x60a\x60" =
      .ok (.binary .add (.literal (.str "$\x60")) (.deref "a")) := by cbv
  have hmentioned : Expr.mentioned "'$\x60' + $\x60a\x60" = ["' + $"] := by decide +kernel
  have hderefs : (Expr.binary .add (.literal (.str "$\x60")) (.deref "a")).derefs = ["a"] := rfl
  refine ⟨_, hparse, ?_⟩
  rw [hmentioned, hderefs]
  decide

/-- The texts and pointers in a part of a template. -/
def Part.atoms : Part → List Atom
  | .text _ => []
  | .hole e => e.atoms

namespace Evaluator

/-- The texts and pointers in an evaluator, from left to right. -/
def atoms (e : Evaluator) : List Atom :=
  match e.body with
  | .constant _ => []
  | .expression e => e.atoms
  | .template parts => parts.flatMap Part.atoms

/-- Whether the pointers that an evaluator reads are among those that its source mentions. -/
def Mentioned (e : Evaluator) : Prop :=
  PlainTexts e.atoms → ∀ pointer ∈ e.derefs, ∃ source, e.source = some source ∧
    pointer ∈ Expr.mentioned source

theorem mentioned_constant (flavor : Flavor) (value : Json) : (constant flavor value).Mentioned :=
  fun _ _ h => by cases h

theorem mentioned_of_ofSource {flavor : Flavor} {source : String} {e : Evaluator}
    (h : ofSource flavor source = .ok e) : e.Mentioned := by
  obtain ⟨expr, hparse, h⟩ := bind_eq_ok.1 h
  obtain rfl := Except.ok.inj h
  intro plain pointer hpointer
  refine ⟨source, rfl, ?_⟩
  rw [Expr.mentioned_of_parse hparse (Expr.clear_strings_of_plainTexts hparse plain)]
  exact hpointer

theorem mentioned_of_template {source : String} {parts : List Part}
    (h : Template.parse source = .ok parts) (plain : PlainTexts (parts.flatMap Part.atoms)) :
    Expr.mentioned source = Template.derefs parts := by
  refine Template.mentionedIn_of_partsTo h fun hole hhole => ?_
  obtain ⟨e, he, hmem⟩ := Template.exists_of_mem_holes h hhole
  exact Expr.clear_strings_of_plainTexts he fun s hs =>
    plain s (List.mem_flatMap.2 ⟨_, hmem, hs⟩)

/-- What has been compiled reads only what its source mentions. -/
theorem mentioned_of_compile {flavor : Flavor} {raw : Json} {e : Evaluator}
    (h : compile flavor raw = .ok e) : e.Mentioned := by
  cases flavor with
  | template =>
    cases raw with
    | str source =>
      obtain ⟨parts, hparse, h⟩ := bind_eq_ok.1 h
      obtain rfl := Except.ok.inj h
      intro plain pointer hpointer
      refine ⟨source, rfl, ?_⟩
      rw [mentioned_of_template hparse plain]
      exact hpointer
    | _ => cases h
  | boolean =>
    cases raw with
    | str source => exact mentioned_of_ofSource h
    | null | bool _ =>
      obtain rfl := Except.ok.inj h
      exact mentioned_constant _ _
    | _ => cases h
  | generic =>
    cases raw with
    | str source => exact mentioned_of_ofSource h
    | null | bool _ | num _ =>
      obtain rfl := Except.ok.inj h
      exact mentioned_constant _ _
    | arr fragments =>
      obtain ⟨sources, -, h⟩ := bind_eq_ok.1 h
      exact mentioned_of_ofSource h
    | obj fields => cases h

end Evaluator

end FormSchema
