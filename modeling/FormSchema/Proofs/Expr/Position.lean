import FormSchema.Proofs.Expr.Assembly
import FormSchema.Proofs.Expr.Forward

/-!
Where syntax errors show.  The position of an error is one between two characters of its source, or at
one of its ends.  In a template, the position of an error in the body of a hole is that of the body in
the template and that of the error in the body, one after the other.
-/

namespace FormSchema

open Token (backquote)

/-! ## Positions -/

namespace Text

variable {text body rest : List Char} {position : Nat}

/-- Whether a position, in bytes, is one between two characters of a text or at one of its ends. -/
def IsBoundary (text : List Char) (position : Nat) : Prop :=
  ∃ before rest, text = before ++ rest ∧ position = byteLength before

theorem isBoundary_of_suffix (h : rest <:+ text) :
    IsBoundary text (byteLength text - byteLength rest) := by
  obtain ⟨before, rfl⟩ := h
  exact ⟨before, rest, rfl, by simp [byteLength_append]⟩

/-- A position in a part of a text, counted from where the text starts. -/
theorem IsBoundary.within (h : IsBoundary body position) (before after : List Char) :
    IsBoundary (before ++ (body ++ after)) (byteLength before + position) := by
  obtain ⟨start, rest, rfl, rfl⟩ := h
  exact ⟨before ++ start, rest ++ after, by simp, by simp [byteLength_append]⟩

theorem utf8ByteSize_ofList (text : List Char) :
    (String.ofList text).utf8ByteSize = byteLength text := by
  induction text with
  | nil => rfl
  | cons c text ih => simp [String.ofList_cons, ih]

theorem byteLength_toList (source : String) : byteLength source.toList = source.utf8ByteSize := by
  rw [← utf8ByteSize_ofList, String.ofList_toList]

theorem IsBoundary.isValid {source : String} (h : IsBoundary source.toList position) :
    (String.Pos.Raw.mk position).IsValid source := by
  obtain ⟨before, rest, hsource, rfl⟩ := h
  apply String.Pos.Raw.isValid_iff_exists_append.2
  refine ⟨.ofList before, .ofList rest, ?_, ?_⟩
  · rw [← String.ofList_append, ← hsource, String.ofList_toList]
  · rw [String.Pos.Raw.ext_iff, String.byteIdx_rawEndPos, utf8ByteSize_ofList]

end Text

/-- Whether an error shows at a position of this source: not behind its end, and not within a
character. -/
def SyntaxError.PointsInto (e : SyntaxError) (source : String) : Prop :=
  e.offset ≤ source.utf8ByteSize ∧ (String.Pos.Raw.mk e.offset).IsValid source

theorem Text.IsBoundary.pointsInto {source : String} {e : SyntaxError}
    (h : Text.IsBoundary source.toList e.offset) : e.PointsInto source :=
  ⟨h.isValid.le_utf8ByteSize, h.isValid⟩

theorem Expr.isBoundary_of_parseChars {source : List Char} {e : SyntaxError}
    (h : parseChars source = .error e) : Text.IsBoundary source e.offset := by
  have hadvances := advances_parseChars source
  rw [h] at hadvances
  obtain ⟨rest, hrest, hoffset⟩ := hadvances
  rw [hoffset]
  exact Text.isBoundary_of_suffix hrest

namespace Template

/-! ## The brace that closes a hole -/

namespace Search

variable {s s' : Search} {c : Char} {text inner rest : List Char}

/-- Only a closing brace outside of quotes, with no other brace open, ends a search. -/
theorem next_eq_none (h : s.next c = none) : s.quote = none ∧ s.depth = 0 := by
  obtain ⟨quote, guarded, depth⟩ := s
  unfold next at h
  cases quote with
  | some q => dsimp only at h; split_ifs at h
  | none =>
    dsimp only at h
    split_ifs at h
    cases depth with
    | zero => exact ⟨rfl, rfl⟩
    | succ depth => cases h

/-- Whether nothing is guarded, as is so outside of quotes. -/
def Unguarded (s : Search) : Prop := s.quote = none → s.guarded = false

theorem unguarded_of_next (h : s.next c = some s') : s'.Unguarded := by
  obtain ⟨quote, guarded, depth⟩ := s
  unfold next at h
  cases quote with
  | some q =>
    dsimp only at h
    split_ifs at h <;> cases h <;> simp [Unguarded]
  | none =>
    dsimp only at h
    split_ifs at h
    · cases h; simp [Unguarded]
    · cases h; simp [Unguarded]
    · cases depth with
      | zero => cases h
      | succ depth => cases h; simp [Unguarded]
    · cases h; simp [Unguarded]

theorem run_of_split? (hs : s.Unguarded) (h : s.split? text = some (inner, rest)) :
    s.run inner = some start := by
  induction text generalizing s inner with
  | nil => cases h
  | cons c text ih =>
    rw [split?_cons] at h
    cases hnext : s.next c with
    | none =>
      rw [hnext] at h
      obtain ⟨rfl, -⟩ := Prod.mk.inj (Option.some.inj h)
      obtain ⟨hquote, hdepth⟩ := next_eq_none hnext
      obtain ⟨quote, guarded, depth⟩ := s
      obtain rfl : guarded = false := hs hquote
      subst hquote hdepth
      rfl
    | some s' =>
      rw [hnext] at h
      obtain ⟨⟨inner', rest'⟩, hsplit, heq⟩ := Option.map_eq_some_iff.1 h
      obtain ⟨rfl, rfl⟩ := Prod.mk.inj heq
      rw [run_cons hnext]
      exact ih (unguarded_of_next hnext) hsplit

end Search

/-- Whether the next closing brace behind this text in braces closes it: the quotes and braces in the
text are closed, and none of its braces closes it before. -/
def Closed (body : List Char) : Prop := Search.start.run body = some Search.start

instance (body : List Char) : Decidable (Closed body) :=
  inferInstanceAs (Decidable (Search.start.run body = some Search.start))

theorem closed_of_splitBrace {text inner : List Char}
    {rest : { rest : List Char // rest.length < text.length }}
    (h : splitBrace none false 0 text = some (inner, rest)) : Closed inner := by
  have hsplit : Search.start.split? text = some (inner, rest.1) := by
    rw [Search.split?, Search.start, h]
    rfl
  exact Search.run_of_split? (fun _ => rfl) hsplit

/-- Whether no brace of a text closes the braces that are open before it. -/
def Unclosed (text : List Char) : Prop :=
  ∀ inner rest, text = inner ++ '\x7d' :: rest → ¬ Closed inner

theorem splitBrace_eq_none_iff {text : List Char} :
    splitBrace none false 0 text = none ↔ Unclosed text := by
  constructor
  · rintro h inner rest rfl hclosed
    obtain ⟨after, hafter, -⟩ := exists_splitBrace hclosed rest
    rw [h] at hafter
    cases hafter
  · intro h
    cases hsplit : splitBrace none false 0 text with
    | none => rfl
    | some found => exact absurd (closed_of_splitBrace hsplit) (h _ _ (eq_of_splitBrace hsplit))

theorem readPointer_eq_none_iff {text : List Char} :
    Token.readPointer text = none ↔ backquote ∉ text := by
  constructor
  · intro h hmem
    obtain ⟨pointer, rest, rfl, hpointer⟩ := List.eq_append_cons_of_mem hmem
    obtain ⟨after, hafter, -⟩ := Token.readPointer_append hpointer rest
    rw [h] at hafter
    cases hafter
  · intro h
    cases hpointer : Token.readPointer text with
    | none => rfl
    | some found =>
      obtain ⟨htext, -⟩ := Token.eq_of_readPointer hpointer
      rw [htext] at h
      simp at h

/-! ## What breaks a template -/

variable {stop start : Nat} {gathered before text rest : List Char} {parts : List Part}
  {e : SyntaxError}

/-- What is in the way of reading a template on from where a hole starts, and the error that it
leads to; `start` is the position of that hole. -/
inductive Breaks (start : Nat) : List Char → SyntaxError → Prop
  /-- A pointer has no end. -/
  | pointer {body : List Char} (h : backquote ∉ body) :
      Breaks start ('$' :: backquote :: body) ⟨.unterminatedPointer, start⟩
  /-- The braces of a hole have no end. -/
  | hole {body : List Char} (h : Unclosed body) :
      Breaks start ('$' :: '\x7b' :: body) ⟨.unterminatedHole, start⟩
  /-- The body of a hole is no expression.  It stands behind a dollar sign and a brace. -/
  | body {body : List Char} {e : SyntaxError} (hclosed : Closed body)
      (h : Expr.parseChars body = .error e) (rest : List Char) :
      Breaks start ('$' :: '\x7b' :: (body ++ '\x7d' :: rest)) ⟨e.fault, start + 2 + e.offset⟩

theorem Breaks.head? (h : Breaks start text e) : text.head? = some '$' := by
  cases h <;> rfl

theorem Breaks.partsTo_eq (h : Breaks start text e) (hstart : start + Text.byteLength text = stop)
    (gathered : List Char) : partsTo stop gathered text = .error e := by
  subst hstart
  cases h with
  | pointer hbody =>
    rw [partsTo, if_pos rfl, if_pos rfl, readPointer_eq_none_iff.2 hbody]
    simp [failAt]
  | hole hbody =>
    rw [partsTo, if_pos rfl, if_neg (by decide), if_pos rfl, splitBrace_eq_none_iff.2 hbody]
    simp [failAt]
  | @body body e hclosed hbody rest =>
    obtain ⟨after, hafter, -⟩ := exists_splitBrace hclosed rest
    rw [partsTo, if_pos rfl, if_neg (by decide), if_pos rfl, hafter]
    dsimp only
    rw [hbody]
    have hdollar : Char.utf8Size '$' = 1 := rfl
    have hbrace : Char.utf8Size '\x7b' = 1 := rfl
    simp only [Text.byteLength_cons, hdollar, hbrace, Except.error.injEq, SyntaxError.mk.injEq,
      true_and]
    omega

/-- Whether a character is text in front of others: it is no dollar sign that opens a hole. -/
def Plain (c : Char) (text : List Char) : Prop :=
  c = '$' → ∀ d ∈ text.head?, d ≠ backquote ∧ d ≠ '\x7b'

theorem Plain.append {c : Char} (h : Plain c text) (hrest : ∀ d ∈ rest.head?, d = '$') :
    Plain c (text ++ rest) := by
  intro hc d hd
  cases text with
  | nil =>
    rw [hrest d hd]
    decide
  | cons b text => exact h hc d hd

theorem Plain.of_append {c : Char} (h : Plain c (text ++ rest)) : Plain c text := by
  intro hc d hd
  cases text with
  | nil => cases hd
  | cons b text => exact h hc d hd

theorem Plain.partsTo_cons {c : Char} (h : Plain c text) (gathered : List Char) :
    partsTo stop gathered (c :: text) = partsTo stop (c :: gathered) text := by
  by_cases hc : c = '$'
  · subst hc
    cases text with
    | nil => conv_lhs => rw [partsTo, if_pos rfl]
    | cons d text =>
      obtain ⟨hbackquote, hbrace⟩ := h rfl d rfl
      rw [partsTo, if_pos rfl, if_neg hbackquote, if_neg hbrace]
  · rw [partsTo.eq_def]
    dsimp only
    rw [if_neg hc]

/-- Whether a text is one hole, and this the expression in it. -/
inductive IsHole : List Char → Expr → Prop
  | pointer {pointer : List Char} (h : backquote ∉ pointer) :
      IsHole ('$' :: backquote :: (pointer ++ [backquote])) (.deref (.ofList pointer))
  | braces {body : List Char} {e : Expr} (hclosed : Closed body)
      (h : Expr.parseChars body = .ok e) : IsHole ('$' :: '\x7b' :: (body ++ ['\x7d'])) e

theorem IsHole.partsTo_append {chunk : List Char} {hole : Expr} (h : IsHole chunk hole)
    (gathered rest : List Char) :
    partsTo stop gathered (chunk ++ rest) =
      (partsTo stop [] rest).map fun parts => flush gathered ++ .hole hole :: parts := by
  cases h with
  | pointer hpointer => simpa using partsTo_cons_pointer gathered hpointer rest
  | braces hclosed hbody => simpa using partsTo_cons_hole gathered hclosed hbody rest

/-- What a text starts with: a character of text, a hole, or what breaks it. -/
theorem plain_or_hole_or_breaks (c : Char) (text : List Char) :
    Plain c text ∨ (∃ chunk hole rest, c :: text = chunk ++ rest ∧ IsHole chunk hole) ∨
      ∀ start, ∃ e, Breaks start (c :: text) e := by
  by_cases hc : c = '$'
  · subst hc
    cases text with
    | nil => exact .inl (by simp [Plain])
    | cons d body =>
      by_cases hpointer : d = backquote
      · subst hpointer
        cases hread : Token.readPointer body with
        | none => exact .inr (.inr fun _ => ⟨_, .pointer (readPointer_eq_none_iff.1 hread)⟩)
        | some found =>
          obtain ⟨hbody, hmem⟩ := Token.eq_of_readPointer hread
          exact .inr (.inl ⟨_, _, found.2.1, by simp [hbody], .pointer hmem⟩)
      · by_cases hbrace : d = '\x7b'
        · subst hbrace
          cases hsplit : splitBrace none false 0 body with
          | none => exact .inr (.inr fun _ => ⟨_, .hole (splitBrace_eq_none_iff.1 hsplit)⟩)
          | some found =>
            have hclosed := closed_of_splitBrace hsplit
            rw [eq_of_splitBrace hsplit]
            cases hparse : Expr.parseChars found.1 with
            | error e => exact .inr (.inr fun _ => ⟨_, .body hclosed hparse _⟩)
            | ok hole => exact .inr (.inl ⟨_, _, found.2.1, by simp, .braces hclosed hparse⟩)
        · refine .inl fun _ b hb => ?_
          obtain rfl := Option.some.inj hb
          exact ⟨hpointer, hbrace⟩
  · exact .inl fun heq => absurd heq hc

/-- A text is gone through piece by piece, up to its end or to what breaks it. -/
theorem pieces_induct {motive : List Char → Prop} (nil : motive [])
    (plain : ∀ c text, Plain c text → motive text → motive (c :: text))
    (hole : ∀ chunk hole rest, IsHole chunk hole → motive rest → motive (chunk ++ rest))
    (breaks : ∀ text, (∀ start, ∃ e, Breaks start text e) → motive text) (text : List Char) :
    motive text := by
  induction h : text.length using Nat.strongRecOn generalizing text with
  | ind n ih =>
    subst h
    cases text with
    | nil => exact nil
    | cons c text =>
      obtain hplain | ⟨chunk, e, rest, heq, hhole⟩ | hbreaks := plain_or_hole_or_breaks c text
      · exact plain c text hplain (ih text.length (by simp) text rfl)
      · rw [heq] at ih ⊢
        refine hole chunk e rest hhole (ih rest.length ?_ rest rfl)
        cases hhole <;> simp only [List.cons_append, List.length_cons, List.length_append] <;> omega
      · exact breaks _ hbreaks

/-- Behind a template reading goes on with some parts done and some text gathered, as long as nothing
comes next that opens a hole together with the end of the template. -/
theorem exists_partsTo_append (h : partsTo stop gathered before = .ok parts)
    (hstop : Text.byteLength before ≤ stop) (rest : List Char) (hrest : ∀ c ∈ rest.head?, c = '$') :
    ∃ (done : List Part) (more : List Char), ∀ stop,
      partsTo stop gathered (before ++ rest) = (partsTo stop more rest).map (done ++ ·) := by
  -- A dollar sign at the end of the template stays text because of `hrest`.
  induction before using pieces_induct generalizing gathered parts with
  | nil => exact ⟨[], gathered, fun stop => (congrFun Except.map_id _).symm⟩
  | plain c text hplain ih =>
    rw [hplain.partsTo_cons] at h
    obtain ⟨done, more, hmore⟩ := ih h (Nat.le_of_add_left_le hstop)
    refine ⟨done, more, fun stop => ?_⟩
    rw [List.cons_append, (hplain.append hrest).partsTo_cons, hmore]
  | hole chunk e after hhole ih =>
    rw [hhole.partsTo_append] at h
    rw [Text.byteLength_append] at hstop
    obtain ⟨parts, hparts, -⟩ := map_eq_ok.1 h
    obtain ⟨done, more, hmore⟩ := ih hparts (Nat.le_of_add_left_le hstop)
    refine ⟨flush gathered ++ .hole e :: done, more, fun stop => ?_⟩
    rw [List.append_assoc, hhole.partsTo_append, hmore]
    cases partsTo stop more rest <;> simp [Except.map]
  | breaks text hbreaks =>
    obtain ⟨e, hbreaks⟩ := hbreaks (stop - Text.byteLength text)
    rw [hbreaks.partsTo_eq (Nat.sub_add_cancel hstop)] at h
    cases h

/-- Where reading breaks off, all that is before it is a template of its own. -/
theorem exists_breaks (h : partsTo stop gathered text = .error e)
    (hstop : Text.byteLength text ≤ stop) :
    ∃ before rest parts, text = before ++ rest ∧ partsTo stop gathered before = .ok parts ∧
      Breaks (stop - Text.byteLength rest) rest e := by
  induction text using pieces_induct generalizing gathered with
  | nil =>
    rw [partsTo] at h
    cases h
  | plain c text hplain ih =>
    rw [hplain.partsTo_cons] at h
    obtain ⟨before, rest, parts, rfl, hparts, hbreaks⟩ := ih h (Nat.le_of_add_left_le hstop)
    exact ⟨c :: before, rest, parts, rfl, (hplain.of_append.partsTo_cons _).trans hparts, hbreaks⟩
  | hole chunk hole after hhole ih =>
    rw [hhole.partsTo_append, map_eq_error_iff] at h
    rw [Text.byteLength_append] at hstop
    obtain ⟨before, rest, parts, rfl, hparts, hbreaks⟩ := ih h (Nat.le_of_add_left_le hstop)
    refine ⟨chunk ++ before, rest, flush gathered ++ .hole hole :: parts, by simp, ?_, hbreaks⟩
    rw [hhole.partsTo_append, hparts]
    rfl
  | breaks text hbreaks =>
    obtain ⟨e', hbreaks⟩ := hbreaks (stop - Text.byteLength text)
    rw [hbreaks.partsTo_eq (Nat.sub_add_cancel hstop)] at h
    obtain rfl := Except.error.inj h
    exact ⟨[], text, flush gathered, rfl, by rw [partsTo], hbreaks⟩

/-- Whether something breaks a template behind the start of it, which is a template of its own, and
leads to this error. -/
def Fails (source : List Char) (e : SyntaxError) : Prop :=
  ∃ before rest parts, source = before ++ rest ∧ parseChars before = .ok parts ∧
    Breaks (Text.byteLength before) rest e

theorem parseChars_eq_error_iff {source : List Char} :
    parseChars source = .error e ↔ Fails source e := by
  constructor
  · intro h
    obtain ⟨before, rest, parts, rfl, hparts, hbreaks⟩ := exists_breaks h (Nat.le_refl _)
    rw [Text.byteLength_append, Nat.add_sub_cancel] at hbreaks
    -- The start can be read as it stands before the rest, so also with an end of its own.
    obtain ⟨done, more, hmore⟩ := exists_partsTo_append hparts
      (by simp [Text.byteLength_append]) [] (by simp)
    refine ⟨before, rest, done ++ flush more, rfl, ?_, hbreaks⟩
    rw [parseChars, ← List.append_nil before, hmore, partsTo]
    rfl
  · rintro ⟨before, rest, parts, rfl, hparts, hbreaks⟩
    have hrest : ∀ c ∈ rest.head?, c = '$' := by
      rw [hbreaks.head?]
      simp
    obtain ⟨done, more, hmore⟩ := exists_partsTo_append hparts (Nat.le_refl _) rest hrest
    rw [parseChars, hmore, map_eq_error_iff]
    exact hbreaks.partsTo_eq (Text.byteLength_append before rest).symm more

theorem Fails.isBoundary {source : List Char} (h : Fails source e) :
    Text.IsBoundary source e.offset := by
  obtain ⟨before, rest, parts, rfl, -, hbreaks⟩ := h
  cases hbreaks with
  | pointer hbody => exact ⟨before, _, rfl, rfl⟩
  | hole hbody => exact ⟨before, _, rfl, rfl⟩
  | body hclosed hbody rest =>
    have hwithin := (Expr.isBoundary_of_parseChars hbody).within (before ++ ['$', '\x7b'])
      ('\x7d' :: rest)
    rw [Text.byteLength_append, List.append_assoc] at hwithin
    exact hwithin

end Template

end FormSchema
