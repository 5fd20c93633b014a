import FormSchema.Expr.Offsets
import FormSchema.Proofs.Expr.Position

/-!
Positions that are counted are lengths of what is left.  The iterator over the characters of a
source stands at the position of what has not been read, and the count of the bytes before the rest
of a template is that of the bytes that have been taken away.  So every part that is cut out of a
source is there, and reading by positions is reading.
-/

namespace FormSchema

open Token (backquote)

namespace Text

variable {c : Char} {before part rest text : List Char} {start : Nat}

@[simp] theorem from?_zero (text : List Char) : from? 0 text = some text := by
  cases text <;> rfl

@[simp] theorem upTo?_zero (text : List Char) : upTo? 0 text = some [] := by
  cases text <;> rfl

theorem from?_cons (c : Char) (n : Nat) (text : List Char) :
    from? (c.utf8Size + n) (c :: text) = from? n text := by
  obtain ⟨m, hm⟩ := Nat.exists_eq_add_of_lt c.utf8Size_pos
  have hsucc : c.utf8Size + n = m + n + 1 := by omega
  rw [hsucc, from?, if_pos (by omega), show m + n + 1 - c.utf8Size = n by omega]

theorem upTo?_cons (c : Char) (n : Nat) (text : List Char) :
    upTo? (c.utf8Size + n) (c :: text) = (upTo? n text).map (c :: ·) := by
  obtain ⟨m, hm⟩ := Nat.exists_eq_add_of_lt c.utf8Size_pos
  have hsucc : c.utf8Size + n = m + n + 1 := by omega
  rw [hsucc, upTo?, if_pos (by omega), show m + n + 1 - c.utf8Size = n by omega]

theorem from?_append (before rest : List Char) :
    from? (byteLength before) (before ++ rest) = some rest := by
  induction before with
  | nil => simp
  | cons c before ih => rw [byteLength_cons, List.cons_append, from?_cons, ih]

theorem upTo?_append (before rest : List Char) :
    upTo? (byteLength before) (before ++ rest) = some before := by
  induction before with
  | nil => simp
  | cons c before ih =>
    rw [byteLength_cons, List.cons_append, upTo?_cons, ih]
    rfl

theorem slice?_append (before part rest : List Char) :
    slice? (byteLength before) (byteLength before + byteLength part) (before ++ (part ++ rest)) =
      some part := by
  rw [slice?, if_pos (Nat.le_add_right _ _), from?_append, Option.bind_some,
    Nat.add_sub_cancel_left, upTo?_append]

theorem indices_append (start : Nat) (before rest : List Char) :
    indices start (before ++ rest) =
      indices start before ++ indices (start + byteLength before) rest := by
  induction before generalizing start with
  | nil => rfl
  | cons c before ih =>
    rw [List.cons_append, indices, ih, indices, List.cons_append, byteLength_cons, Nat.add_assoc]

@[simp] theorem length_indices (start : Nat) (text : List Char) :
    (indices start text).length = text.length := by
  induction text generalizing start with
  | nil => rfl
  | cons c text ih => simp [indices, ih]

theorem position?_append (h : c ∉ before) (rest : List Char) :
    position? c (before ++ c :: rest) = some (byteLength before) := by
  induction before with
  | nil => simp [position?]
  | cons d before ih =>
    rw [List.mem_cons, not_or] at h
    rw [List.cons_append, position?, if_neg (Ne.symm h.1), ih h.2]
    rfl

theorem position?_eq_none (h : c ∉ text) : position? c text = none := by
  induction text with
  | nil => rfl
  | cons d text ih =>
    rw [List.mem_cons, not_or] at h
    rw [position?, if_neg (Ne.symm h.1), ih h.2]
    rfl

end Text

namespace Offsets

/-! ## The iterator -/

variable {source text part rest : List Char} {c quote : Char} {start : Nat}

/-- The characters of an end of a source with their positions in it. -/
def unread (source rest : List Char) : Chars :=
  Text.indices (Text.byteLength source - Text.byteLength rest) rest

theorem unread_append (h : part ++ rest <:+ source) :
    unread source (part ++ rest) =
      Text.indices (Text.byteLength source - Text.byteLength (part ++ rest)) part ++
        unread source rest := by
  obtain ⟨before, rfl⟩ := h
  rw [unread, Text.indices_append, unread]
  simp only [Text.byteLength_append]
  rw [show Text.byteLength before + (Text.byteLength part + Text.byteLength rest) -
      (Text.byteLength part + Text.byteLength rest) + Text.byteLength part =
    Text.byteLength before + (Text.byteLength part + Text.byteLength rest) - Text.byteLength rest
    by omega]

theorem unread_cons (h : c :: rest <:+ source) :
    unread source (c :: rest) =
      (Text.byteLength source - Text.byteLength (c :: rest), c) :: unread source rest := by
  have happend : [c] ++ rest <:+ source := h
  exact unread_append happend

@[simp] theorem unread_nil (source : List Char) : unread source [] = [] := rfl

@[simp] theorem unread_self (source : List Char) :
    unread source source = Text.indices 0 source := by
  rw [unread, Nat.sub_self]

@[simp] theorem length_unread (source rest : List Char) :
    (unread source rest).length = rest.length := Text.length_indices _ _

/-- The iterator stands at the position of what has not been read, at the end as well. -/
theorem offset_unread (source rest : List Char) :
    offset source (unread source rest) = Text.byteLength source - Text.byteLength rest := by
  cases rest <;> rfl

theorem between?_unread (h : part ++ rest <:+ source) :
    between? source (unread source (part ++ rest)) (unread source rest) = some part := by
  rw [between?, offset_unread, offset_unread]
  obtain ⟨before, rfl⟩ := h
  have hslice := Text.slice?_append before part rest
  simp only [Text.byteLength_append]
  rwa [show Text.byteLength before + (Text.byteLength part + Text.byteLength rest) -
      (Text.byteLength part + Text.byteLength rest) = Text.byteLength before by omega,
    show Text.byteLength before + (Text.byteLength part + Text.byteLength rest) -
      Text.byteLength rest = Text.byteLength before + Text.byteLength part by omega]

theorem from?_offset_unread (h : rest <:+ source) :
    Text.from? (offset source (unread source rest)) source = some rest := by
  obtain ⟨before, rfl⟩ := h
  rw [offset_unread, Text.byteLength_append, Nat.add_sub_cancel, Text.from?_append]

theorem drop_unread (h : rest <:+ source) (n : Nat) :
    (unread source rest).drop n = unread source (rest.drop n) := by
  induction n generalizing rest with
  | zero => rfl
  | succ n ih =>
    cases rest with
    | nil => rfl
    | cons c rest =>
      rw [unread_cons h, List.drop_succ_cons, List.drop_succ_cons,
        ih ((List.suffix_cons c rest).trans h)]

/-! ## Words -/

/-- What is read of a source, with the characters after it. -/
def unreadAfter (source : List Char) {text : List Char} (read : Token.Read text) : Token × Chars :=
  (read.1, unread source read.2.1)

theorem dropWhile_unread (p : Char → Bool) (h : text <:+ source) :
    ((unread source text).dropWhile fun next => p next.2) = unread source (text.dropWhile p) := by
  induction text with
  | nil => rfl
  | cons c text ih =>
    rw [unread_cons h, List.dropWhile_cons, List.dropWhile_cons]
    by_cases hc : p c = true
    · rw [if_pos hc, if_pos hc, ih ((List.suffix_cons c text).trans h)]
    · rw [if_neg hc, if_neg hc, unread_cons h]

theorem skipNumber_unread (seenPoint : Bool) (h : text <:+ source) :
    skipNumber seenPoint (unread source text) =
      skipNumber seenPoint (unread source (text.dropWhile Text.isPlainDigit)) := by
  induction text with
  | nil => rfl
  | cons c text ih =>
    rw [List.dropWhile_cons]
    by_cases hc : Text.isPlainDigit c = true
    · rw [if_pos hc, unread_cons h, skipNumber, if_pos hc, ih ((List.suffix_cons c text).trans h)]
    · rw [if_neg hc]

theorem skipNumber_cons (seenPoint : Bool) (hc : Text.isPlainDigit c = false)
    (h : c :: text <:+ source) :
    skipNumber seenPoint (unread source (c :: text)) =
      if c = '.' ∧ seenPoint = false ∧ startsWithDigit (unread source text) then
        skipNumber true (unread source text)
      else unread source (c :: text) := by
  rw [unread_cons h, skipNumber, if_neg (by simp [hc])]

theorem not_isPlainDigit_of_dropWhile (h : text.dropWhile Text.isPlainDigit = c :: rest) :
    Text.isPlainDigit c = false := by
  have hhead := List.head?_dropWhile_not Text.isPlainDigit text
  rw [h] at hhead
  simpa using hhead

theorem skipNumber_true_unread (h : text <:+ source) :
    skipNumber true (unread source text) = unread source (text.dropWhile Text.isPlainDigit) := by
  rw [skipNumber_unread true h]
  cases hdrop : text.dropWhile Text.isPlainDigit with
  | nil => rfl
  | cons c rest =>
    have further : c :: rest <:+ source := hdrop ▸ (List.dropWhile_suffix _).trans h
    rw [skipNumber_cons true (not_isPlainDigit_of_dropWhile hdrop) further, if_neg (by simp)]

theorem startsWithDigit_unread (h : c :: text <:+ source) :
    startsWithDigit (unread source (c :: text)) = Text.isPlainDigit c := by
  rw [unread_cons h]
  rfl

theorem isPlainDigit_point : Text.isPlainDigit '.' = false := by decide +kernel

/-- A point belongs to a number in the same cases. -/
theorem skipNumber_false_unread (h : text <:+ source) :
    skipNumber false (unread source text) = unread source (Token.numberTail text).2.1 := by
  rw [skipNumber_unread false h]
  unfold Token.numberTail
  dsimp only
  split
  · rename_i d rest hdrop
    have further : '.' :: d :: rest <:+ source := hdrop ▸ (List.dropWhile_suffix _).trans h
    have behind : d :: rest <:+ source := (List.suffix_cons '.' _).trans further
    have hskip := skipNumber_cons false isPlainDigit_point further
    rw [startsWithDigit_unread behind] at hskip
    refine (congrArg (fun rest => skipNumber false (unread source rest)) hdrop).trans ?_
    split
    · rename_i hd
      rw [hskip, if_pos ⟨rfl, rfl, hd⟩, skipNumber_true_unread behind, List.dropWhile_cons,
        if_pos hd]
    · rename_i hd
      rw [hskip, if_neg (by simp [hd])]
  · rename_i hrest
    change _ = unread source (text.dropWhile Text.isPlainDigit)
    cases hdrop : text.dropWhile Text.isPlainDigit with
    | nil => rfl
    | cons c rest =>
      have further : c :: rest <:+ source := hdrop ▸ (List.dropWhile_suffix _).trans h
      rw [skipNumber_cons false (not_isPlainDigit_of_dropWhile hdrop) further, if_neg ?_]
      rintro ⟨rfl, -, hstarts⟩
      cases rest with
      | nil => cases hstarts
      | cons d rest => exact hrest d rest hdrop

theorem string_unread (h : text <:+ source) (whole read : List Char) :
    string (Text.byteLength source - Text.byteLength whole) quote read (unread source text) =
      (Token.readString (Text.byteLength source) whole quote read text).map fun found =>
        (.str found.1, unread source found.2.1) := by
  induction text using Token.written.induct quote generalizing read with
  | case1 =>
    rw [Token.readString]
    rfl
  | case2 text =>
    rw [unread_cons h, string.eq_def, Token.readString.eq_def]
    dsimp only
    rw [if_pos rfl, if_pos rfl]
    rfl
  | case3 hquote =>
    rw [unread_cons h, string.eq_def, Token.readString.eq_def]
    dsimp only
    rw [if_neg hquote, if_pos rfl, if_neg hquote, if_pos rfl]
    rfl
  | case4 e text hquote ih =>
    have behind : e :: text <:+ source := (List.suffix_cons _ _).trans h
    rw [unread_cons h, unread_cons behind, string.eq_def, Token.readString.eq_def]
    dsimp only
    rw [if_neg hquote, if_pos rfl, if_neg hquote, if_pos rfl,
      ih ((List.suffix_cons e text).trans behind)]
    cases Token.readString _ whole quote _ text <;> rfl
  | case5 d text hquote hguard ih =>
    rw [unread_cons h, string.eq_def, Token.readString.eq_def]
    dsimp only
    rw [if_neg hquote, if_neg hguard, if_neg hquote, if_neg hguard,
      ih ((List.suffix_cons d text).trans h)]
    cases Token.readString _ whole quote _ text <;> rfl

theorem pointer_unread (h : text <:+ source) (start : Nat) (read : List Char) :
    pointer start read (unread source text) =
      match Token.readPointer text with
      | some found =>
        .ok (.deref (String.ofList (read.reverse ++ found.1)), unread source found.2.1)
      | none => .error ⟨.unterminatedPointer, start⟩ := by
  induction text generalizing read with
  | nil => rfl
  | cons c text ih =>
    rw [unread_cons h, pointer, Token.readPointer]
    by_cases hc : c = backquote
    · rw [if_pos hc, if_pos hc]
      simp
    · rw [if_neg hc, if_neg hc, ih ((List.suffix_cons c text).trans h)]
      cases Token.readPointer text <;> simp

theorem number_unread (h : c :: text <:+ source) (hc : Text.isPlainDigit c = true) :
    number source (unread source (c :: text)) =
      some (.ok (.number ((Number.decimal? (c :: (Token.numberTail text).1)).getD 0),
        unread source (Token.numberTail text).2.1)) := by
  obtain ⟨htext, -⟩ := Token.numberTail_eq text
  have hskip : skipNumber false (unread source (c :: text)) =
      unread source (Token.numberTail text).2.1 := by
    rw [unread_cons h, skipNumber, if_pos hc,
      skipNumber_false_unread ((List.suffix_cons c text).trans h)]
  have hbetween : between? source (unread source (c :: text))
      (unread source (Token.numberTail text).2.1) = some (c :: (Token.numberTail text).1) := by
    have hsplit : (c :: (Token.numberTail text).1) ++ (Token.numberTail text).2.1 = c :: text :=
      congrArg (c :: ·) htext.symm
    rw [← hsplit] at h
    have := between?_unread h
    rwa [hsplit] at this
  rw [number, hskip, hbetween]
  rfl

theorem deref_unread (h : c :: text <:+ source) (hc : c = backquote) (start : Nat) :
    deref start (unread source (c :: text)) = pointer start [] (unread source text) := by
  rw [unread_cons h, deref, if_pos hc]

theorem isNamePart_of_isNameStart (h : Token.isNameStart c = true) :
    Token.isNamePart c = true := by
  simp only [Token.isNameStart, Bool.or_eq_true] at h
  simp only [Token.isNamePart, Text.isAlphanumeric, Bool.or_eq_true]
  exact h.elim (fun h => .inl (.inl (.inl h))) fun h => .inl (.inr h)

theorem name_unread (h : c :: text <:+ source) (hc : Token.isNameStart c = true) :
    name source (unread source (c :: text)) =
      some (.ok (.ident (String.ofList (c :: text.takeWhile Token.isNamePart)),
        unread source (text.dropWhile Token.isNamePart))) := by
  have hskip := dropWhile_unread Token.isNamePart h
  rw [List.dropWhile_cons, if_pos (isNamePart_of_isNameStart hc)] at hskip
  have hbetween : between? source (unread source (c :: text))
      (unread source (text.dropWhile Token.isNamePart)) =
        some (c :: text.takeWhile Token.isNamePart) := by
    have hsplit : (c :: text.takeWhile Token.isNamePart) ++ text.dropWhile Token.isNamePart =
        c :: text := congrArg (c :: ·) List.takeWhile_append_dropWhile
    rw [← hsplit] at h
    have := between?_unread h
    rwa [hsplit] at this
  rw [name, hskip, hbetween]
  rfl

theorem mark_unread (h : c :: text <:+ source) :
    mark source (unread source (c :: text)) =
      some (match Punct.all.find? fun p => p.chars.isPrefixOf (c :: text) with
        | some p => .ok (.punct p, unread source ((c :: text).drop p.chars.length))
        | none => .error ⟨.unexpectedCharacter c,
          Text.byteLength source - Text.byteLength (c :: text)⟩) := by
  rw [mark, from?_offset_unread h, offset_unread, Option.map_some]
  cases hfind : Punct.all.find? fun p => p.chars.isPrefixOf (c :: text) with
  | none => rfl
  | some p =>
    dsimp only
    rw [drop_unread h]

/-- A word that is read by positions is the word that stands there. -/
theorem word_unread (h : c :: text <:+ source) :
    word source (Text.byteLength source - Text.byteLength (c :: text), c) (unread source text) =
      some ((Token.read (Text.byteLength source) c text).map (unreadAfter source)) := by
  have behind : text <:+ source := (List.suffix_cons c text).trans h
  rw [word, Token.read.eq_def]
  dsimp only
  rw [← unread_cons h]
  split
  · rename_i hc
    rw [number_unread h hc]
    rfl
  · split
    · rw [string_unread behind]
      cases Token.readString _ (c :: text) c [] text <;> rfl
    · split
      · cases text with
        | nil => rfl
        | cons b body =>
          dsimp only
          split
          · rename_i hb
            rw [deref_unread behind hb, pointer_unread ((List.suffix_cons b body).trans behind)]
            cases Token.readPointer body <;> rfl
          · rename_i hb
            rw [unread_cons behind, deref, if_neg hb]
            rfl
      · split
        · rename_i hc
          rw [name_unread h hc]
          rfl
        · rw [mark_unread h]
          cases hfind : Punct.all.find? fun p => p.chars.isPrefixOf (c :: text) <;> rfl

/-! ## Expressions -/

theorem words_unread (h : text <:+ source) :
    words source (unread source text) =
      some ((Token.scanTo (Text.byteLength source) text).map fun spans =>
        spans.map (Spanned.placed (Text.byteLength source))) := by
  induction text using Token.scanTo.induct with
  | case1 =>
    rw [unread_nil, words, Token.scanTo]
    rfl
  | case2 c text hblank ih =>
    rw [unread_cons h, words, if_pos hblank, Token.scanTo, if_pos hblank,
      ih ((List.suffix_cons c text).trans h)]
  | case3 c text hblank ih =>
    rw [unread_cons h, words, if_neg hblank, Token.scanTo, if_neg hblank, word_unread h]
    have hadvances : Advances (Text.byteLength source - Text.byteLength ·) (·.2.1) (c :: text)
      (Token.read (Text.byteLength source) c text) := Token.advances_read
    cases hread : Token.read (Text.byteLength source) c text with
    | error e => rfl
    | ok read =>
      rw [hread] at hadvances
      have hrest : read.2.1 <:+ source := hadvances.trans h
      have hshorter : (unread source read.2.1).length ≤ (unread source text).length := by
        rw [length_unread, length_unread]
        exact read.2.2
      simp only [Except.map, unreadAfter]
      rw [if_pos hshorter, ih read.2 hrest]
      cases hscan : Token.scanTo (Text.byteLength source) read.2.1 with
      | error e => simp [hscan, Except.map, bind, Except.bind]
      | ok spans => simp [hscan, Except.map, bind, Except.bind, pure, Except.pure, Spanned.placed]

/-- Every word is cut out between positions of the source, and reading by positions is reading. -/
theorem expression_eq (source : List Char) : expression source = some (Expr.parseChars source) := by
  rw [expression, tokenize, ← unread_self, words_unread (List.suffix_refl source), Option.map_some,
    Expr.parseChars, Token.scan]
  cases Token.scanTo (Text.byteLength source) source <;> rfl

/-! ## Holes -/

open Template (Search Breaks IsHole Plain flush partsTo)

theorem matchingBrace_cons (s : Search) (next : Nat × Char) (chars : Chars) :
    matchingBrace s.quote s.guarded s.depth (next :: chars) =
      match s.next next.2 with
      | none => some next.1
      | some s' => matchingBrace s'.quote s'.guarded s'.depth chars := by
  obtain ⟨quote, guarded, depth⟩ := s
  rw [matchingBrace.eq_def, Search.next]
  dsimp only
  cases quote with
  | some q => dsimp only; split_ifs <;> rfl
  | none =>
    dsimp only
    split_ifs
    · rfl
    · rfl
    · cases depth <;> rfl
    · rfl

/-- The position of the brace is that of the end of what is before it. -/
theorem matchingBrace_indices (s : Search) (start : Nat) (text : List Char) :
    matchingBrace s.quote s.guarded s.depth (Text.indices start text) =
      (s.split? text).map fun found => start + Text.byteLength found.1 := by
  induction text generalizing s start with
  | nil => rfl
  | cons c text ih =>
    rw [Text.indices, matchingBrace_cons, Search.split?_cons]
    cases s.next c with
    | none => rfl
    | some s' =>
      dsimp only
      rw [ih, Option.map_map]
      simp only [Function.comp_def, Text.byteLength_cons, Nat.add_assoc]

theorem matchingBrace_closed {body : List Char} (h : Template.Closed body) (rest : List Char) :
    matchingBrace none false 0 (Text.indices 0 (body ++ '\x7d' :: rest)) =
      some (Text.byteLength body) := by
  obtain ⟨after, hafter, -⟩ := Template.exists_splitBrace h rest
  refine (matchingBrace_indices Search.start 0 _).trans ?_
  rw [Search.split?, Search.start, hafter]
  simp

theorem matchingBrace_unclosed {text : List Char} (h : Template.Unclosed text) :
    matchingBrace none false 0 (Text.indices 0 text) = none := by
  refine (matchingBrace_indices Search.start 0 _).trans ?_
  rw [Search.split?, Search.start, Template.splitBrace_eq_none_iff.2 h]
  rfl

variable {before more : List Char} {base : Nat}

theorem from?_dollar (before more : List Char) :
    Text.from? (Text.byteLength before + 1) (before ++ '$' :: more) = some more := by
  have := Text.from?_append (before ++ ['$']) more
  rwa [Text.byteLength_append, List.append_assoc] at this

theorem from?_brace (before more : List Char) :
    Text.from? (Text.byteLength before + 2) (before ++ '$' :: '\x7b' :: more) = some more := by
  have := Text.from?_append (before ++ ['$', '\x7b']) more
  rwa [Text.byteLength_append, List.append_assoc] at this

theorem slice?_hole (before body rest : List Char) :
    Text.slice? (Text.byteLength before + 2) (Text.byteLength before + 2 + Text.byteLength body)
      (before ++ '$' :: '\x7b' :: (body ++ rest)) = some body := by
  have := Text.slice?_append (before ++ ['$', '\x7b']) body rest
  rwa [Text.byteLength_append, List.append_assoc] at this

theorem brace_ne_backquote : '\x7b' ≠ backquote := by decide

theorem utf8Size_dollar : '$'.utf8Size = 1 := rfl

theorem utf8Size_backquote : backquote.utf8Size = 1 := rfl

theorem hole?_plain (h : Plain '$' more) (base : Nat) (before : List Char) :
    hole? base (Text.byteLength before) (before ++ '$' :: more) = some (.ok none) := by
  rw [hole?, from?_dollar]
  cases more with
  | nil => rfl
  | cons c more =>
    obtain ⟨hbackquote, hbrace⟩ := h rfl c rfl
    simp [hbackquote, hbrace]

theorem hole?_isHole {chunk : List Char} {hole : Expr} (h : IsHole chunk hole) (base : Nat)
    (before rest : List Char) :
    ∃ last, hole? base (Text.byteLength before) (before ++ (chunk ++ rest)) =
        some (.ok (some (hole, last))) ∧ last + 1 = Text.byteLength (before ++ chunk) := by
  cases h with
  | @pointer pointer hpointer =>
    refine ⟨Text.byteLength before + 2 + Text.byteLength pointer, ?_, ?_⟩
    · simp [hole?, from?_dollar, Text.position?_append hpointer, Text.upTo?_append]
    · simp [Text.byteLength_append, utf8Size_dollar, utf8Size_backquote]
      omega
  | @braces body e hclosed hbody =>
    refine ⟨Text.byteLength before + 2 + Text.byteLength body, ?_, ?_⟩
    · simp [hole?, brace_ne_backquote, from?_dollar, from?_brace, matchingBrace_closed hclosed,
        slice?_hole, expression_eq, hbody]
    · have hopen : '\x7b'.utf8Size = 1 := rfl
      have hclose : '\x7d'.utf8Size = 1 := rfl
      simp [Text.byteLength_append, utf8Size_dollar, hopen, hclose]
      omega

theorem hole?_breaks {text : List Char} {e : SyntaxError}
    (h : Breaks (base + Text.byteLength before) text e) :
    hole? base (Text.byteLength before) (before ++ text) = some (.error e) := by
  cases h with
  | pointer hbody => simp [hole?, from?_dollar, Text.position?_eq_none hbody]
  | hole hbody =>
    simp [hole?, brace_ne_backquote, from?_dollar, from?_brace, matchingBrace_unclosed hbody]
  | body hclosed hbody rest =>
    simp [hole?, brace_ne_backquote, from?_dollar, from?_brace, matchingBrace_closed hclosed,
      slice?_hole, expression_eq, hbody]
    omega

/-! ## Templates -/

variable {stop : Nat} {gathered : List Char}

theorem partsTo_append (h : '$' ∉ text) (gathered rest : List Char) :
    partsTo stop gathered (text ++ rest) = partsTo stop (text.reverse ++ gathered) rest := by
  induction text generalizing gathered with
  | nil => rfl
  | cons c text ih =>
    rw [List.mem_cons, not_or] at h
    have hplain : Plain c (text ++ rest) := fun hc => absurd hc.symm h.1
    rw [List.cons_append, hplain.partsTo_cons, ih h.2]
    simp

theorem parts_plain (hbefore : '$' ∉ before) (h : Plain '$' more) (base : Nat)
    (gathered : List Char) :
    parts base gathered (before ++ '$' :: more) =
      parts (base + Text.byteLength before + 1) ('$' :: (before.reverse ++ gathered)) more := by
  have hupTo : Text.upTo? (Text.byteLength before + 1) (before ++ '$' :: more) =
      some (before ++ ['$']) := by
    have := Text.upTo?_append (before ++ ['$']) more
    rwa [Text.byteLength_append, List.append_assoc] at this
  rw [parts.eq_def, Text.position?_append hbefore]
  dsimp only
  rw [hole?_plain h]
  dsimp only
  split
  · rename_i hnone
    rw [from?_dollar] at hnone
    cases hnone
  · rename_i after hafter
    rw [from?_dollar] at hafter
    obtain rfl := Option.some.inj hafter
    rw [hupTo, Option.bind_some, List.reverse_concat, List.cons_append]

theorem parts_isHole {chunk : List Char} {hole : Expr} (hbefore : '$' ∉ before)
    (h : IsHole chunk hole) (base : Nat) (gathered rest : List Char) :
    parts base gathered (before ++ (chunk ++ rest)) =
      (parts (base + Text.byteLength (before ++ chunk)) [] rest).map fun more =>
        more.map fun more => flush (before.reverse ++ gathered) ++ .hole hole :: more := by
  have hposition : Text.position? '$' (before ++ (chunk ++ rest)) =
      some (Text.byteLength before) := by
    cases h <;> exact Text.position?_append hbefore _
  obtain ⟨last, hhole, hlast⟩ := hole?_isHole h base before rest
  have hfrom : Text.from? (last + 1) (before ++ (chunk ++ rest)) = some rest := by
    rw [hlast, ← List.append_assoc, Text.from?_append]
  rw [parts.eq_def, hposition]
  dsimp only
  rw [hhole]
  dsimp only
  split
  · rename_i hnone
    rw [hfrom] at hnone
    cases hnone
  · rename_i after hafter
    rw [hfrom] at hafter
    obtain rfl := Option.some.inj hafter
    rw [Text.upTo?_append, Option.bind_some, Nat.add_assoc, hlast]

theorem parts_breaks {e : SyntaxError} (hbefore : '$' ∉ before)
    (h : Breaks (base + Text.byteLength before) text e) (gathered : List Char) :
    parts base gathered (before ++ text) = some (.error e) := by
  have hposition : Text.position? '$' (before ++ text) = some (Text.byteLength before) := by
    cases h <;> exact Text.position?_append hbefore _
  rw [parts.eq_def, hposition]
  dsimp only
  rw [hole?_breaks h]

/-- The count of the bytes before a rest and the length of the rest always make up the position of
the end. -/
theorem parts_eq (h : base + Text.byteLength rest = stop) (gathered : List Char) :
    parts base gathered rest = some (partsTo stop gathered rest) := by
  induction hlength : rest.length using Nat.strongRecOn generalizing base gathered rest with
  | ind n ih =>
    subst hlength
    by_cases hdollar : '$' ∈ rest
    · obtain ⟨before, more, rfl, hbefore⟩ := List.eq_append_cons_of_mem hdollar
      rw [partsTo_append hbefore]
      rw [Text.byteLength_append] at h
      obtain hplain | ⟨chunk, hole, after, heq, hhole⟩ | hbreaks :=
        Template.plain_or_hole_or_breaks '$' more
      · rw [parts_plain hbefore hplain, hplain.partsTo_cons]
        rw [Text.byteLength_cons, utf8Size_dollar] at h
        exact ih more.length (by simp; omega) (by omega) _ rfl
      · rw [heq] at h ih ⊢
        rw [parts_isHole hbefore hhole, hhole.partsTo_append]
        rw [Text.byteLength_append] at h
        have hshorter : after.length < (before ++ (chunk ++ after)).length := by
          cases hhole <;> simp <;> omega
        rw [ih after.length hshorter (by rw [Text.byteLength_append]; omega) [] rfl]
        rfl
      · obtain ⟨e, hbreaks⟩ := hbreaks (base + Text.byteLength before)
        rw [parts_breaks hbefore hbreaks, hbreaks.partsTo_eq (by omega)]
    · have happend : partsTo stop gathered (rest ++ []) = _ := partsTo_append hdollar gathered []
      rw [List.append_nil] at happend
      rw [parts.eq_def, Text.position?_eq_none hdollar, happend, partsTo]

theorem template_eq (source : List Char) : template source = some (Template.parseChars source) :=
  parts_eq (Nat.zero_add _) []

end Offsets

/-! ## Errors of expressions and templates -/

namespace Template

/-- Whether an error is that of a hole or a pointer without an end, at the dollar sign of it. -/
def Unterminated (source : String) (e : SyntaxError) : Prop :=
  ∃ before rest, source = before ++ "$" ++ rest ∧ e.offset = before.utf8ByteSize ∧
    (e.fault = .unterminatedPointer ∨ e.fault = .unterminatedHole)

/-- Whether the first hole that a template breaks at has this body, with this error of its own. -/
structure BreaksIn (source before body : String) (e : SyntaxError) : Prop where
  stands : ∃ after, source = before ++ "$\x7b" ++ body ++ "\x7d" ++ after
  closed : Closed body.toList
  reads : ∃ parts, Offsets.template before.toList = some (.ok parts)
  fails : Offsets.expression body.toList = some (.error e)

theorem BreaksIn.parseChars_eq {source before body : String} {e : SyntaxError}
    (h : BreaksIn source before body e) :
    parseChars source.toList = .error ⟨e.fault, (before ++ "$\x7b").utf8ByteSize + e.offset⟩ := by
  obtain ⟨⟨after, rfl⟩, hclosed, ⟨parts, hreads⟩, hfails⟩ := h
  rw [Offsets.template_eq] at hreads
  rw [Offsets.expression_eq] at hfails
  apply parseChars_eq_error_iff.2
  refine ⟨before.toList, '$' :: '\x7b' :: (body.toList ++ '\x7d' :: after.toList), parts,
    by simp, Option.some.inj hreads, ?_⟩
  rw [String.utf8ByteSize_append, ← Text.byteLength_toList before]
  exact .body hclosed (Option.some.inj hfails) after.toList

theorem Fails.unterminated_or_breaksIn {source : String} {e : SyntaxError}
    (h : Fails source.toList e) :
    Unterminated source e ∨ ∃ before body e', BreaksIn source before body e' := by
  obtain ⟨before, rest, parts, hsource, hparts, hbreaks⟩ := h
  cases hbreaks with
  | @pointer body hbody =>
    refine .inl ⟨.ofList before, .ofList (backquote :: body), ?_, ?_, .inl rfl⟩
    · apply String.toList_inj.1
      simp [hsource]
    · rw [Text.utf8ByteSize_ofList]
  | @hole body hbody =>
    refine .inl ⟨.ofList before, .ofList ('\x7b' :: body), ?_, ?_, .inr rfl⟩
    · apply String.toList_inj.1
      simp [hsource]
    · rw [Text.utf8ByteSize_ofList]
  | @body body e hclosed hbody rest =>
    refine .inr ⟨.ofList before, .ofList body, e, ⟨.ofList rest, ?_⟩, ?_, ⟨parts, ?_⟩, ?_⟩
    · apply String.toList_inj.1
      simp [hsource]
    · simpa using hclosed
    · simp [Offsets.template_eq, hparts]
    · simp [Offsets.expression_eq, hbody]

end Template

/-- Reading never cuts out a part that is not there, and an error shows at a position of the source
that cannot be read, be it an expression or a template.  In a template it is that of a hole or a
pointer without an end, at the dollar sign, or that of the body of a hole: the position of the body
in the template and that of the error in the body, one after the other. -/
theorem offset_of_error (source : String) :
    (∃ result, Offsets.expression source.toList = some result ∧
      ∀ e, result = .error e → e.PointsInto source) ∧
    (∃ result, Offsets.template source.toList = some result ∧
      ∀ e, result = .error e → e.PointsInto source ∧
        (Template.Unterminated source e ∨
          ∃ before body e', Template.BreaksIn source before body e')) ∧
    ∀ before body e, Template.BreaksIn source before body e →
      Offsets.template source.toList =
        some (.error ⟨e.fault, (before ++ "$\x7b").utf8ByteSize + e.offset⟩) := by
  refine ⟨⟨_, Offsets.expression_eq _, ?_⟩, ⟨_, Offsets.template_eq _, ?_⟩, ?_⟩
  · intro e h
    exact (Expr.isBoundary_of_parseChars h).pointsInto
  · intro e h
    have hfails := Template.parseChars_eq_error_iff.1 h
    exact ⟨hfails.isBoundary.pointsInto, hfails.unterminated_or_breaksIn⟩
  · intro before body e h
    rw [Offsets.template_eq, h.parseChars_eq]

/-- The template has a hole and a lone dollar sign before, and characters of two bytes and a brace
in quotes within. -/
theorem offset_of_error_quoted :
    Template.BreaksIn "ü $\x60b\x60$\x7bkey\x7d $$\x7b'é\x7d' + #\x7d $\x7b?\x7d"
      "ü $\x60b\x60$\x7bkey\x7d $" "'é\x7d' + #" ⟨.unexpectedCharacter '#', 8⟩ ∧
    Offsets.template "ü $\x60b\x60$\x7bkey\x7d $$\x7b'é\x7d' + #\x7d $\x7b?\x7d".toList =
      some (.error ⟨.unexpectedCharacter '#', 25⟩) ∧
    (⟨.unexpectedCharacter '#', 25⟩ : SyntaxError).PointsInto
      "ü $\x60b\x60$\x7bkey\x7d $$\x7b'é\x7d' + #\x7d $\x7b?\x7d" ∧
    (⟨.unexpectedCharacter '#', 8⟩ : SyntaxError).PointsInto "'é\x7d' + #" := by
  have hbody : Offsets.expression "'é\x7d' + #".toList =
      some (.error ⟨.unexpectedCharacter '#', 8⟩) := by cbv
  have hbefore : Offsets.template "ü $\x60b\x60$\x7bkey\x7d $".toList =
      some (.ok [.text "ü ", .hole (.deref "b"), .hole (.name .key), .text " $"]) := by cbv
  obtain ⟨⟨result, hresult, hwithin⟩, -, -⟩ := offset_of_error "'é\x7d' + #"
  obtain ⟨-, ⟨result', hresult', hwithin'⟩, hhole⟩ :=
    offset_of_error "ü $\x60b\x60$\x7bkey\x7d $$\x7b'é\x7d' + #\x7d $\x7b?\x7d"
  have hbreaks : Template.BreaksIn
      "ü $\x60b\x60$\x7bkey\x7d $$\x7b'é\x7d' + #\x7d $\x7b?\x7d"
      "ü $\x60b\x60$\x7bkey\x7d $" "'é\x7d' + #" ⟨.unexpectedCharacter '#', 8⟩ :=
    ⟨⟨" $\x7b?\x7d", by decide⟩, by decide, ⟨_, hbefore⟩, hbody⟩
  have htemplate := hhole _ _ _ hbreaks
  rw [hresult] at hbody
  rw [hresult'] at htemplate
  exact ⟨hbreaks, hhole _ _ _ hbreaks, (hwithin' _ (Option.some.inj htemplate)).1,
    hwithin _ (Option.some.inj hbody)⟩

end FormSchema
