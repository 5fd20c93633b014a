import FormSchema.Proofs.Expr.Mention

/-!
Reading goes forward.  Whatever reads from a source, character by character or word by word, leaves an
end of it, and an error shows where an end of it starts.
-/

namespace FormSchema

/-! ## Steps -/

/-- Whether a step that reads from a source leaves an end of it, or shows an error at the position of
an end of it. -/
def Advances {ω α : Type} (position : List ω → Nat) (left : α → List ω) (source : List ω) :
    Except SyntaxError α → Prop
  | .ok a => left a <:+ source
  | .error e => ∃ rest, rest <:+ source ∧ e.offset = position rest

namespace Advances

variable {ω α β : Type} {position : List ω → Nat} {left : α → List ω} {left' : β → List ω}
  {source more : List ω} {r : Except SyntaxError α}

theorem mono (h : Advances position left more r) (hmore : more <:+ source) :
    Advances position left source r := by
  cases r with
  | ok a => exact h.trans hmore
  | error e =>
    obtain ⟨rest, hrest, hoffset⟩ := h
    exact ⟨rest, hrest.trans hmore, hoffset⟩

theorem tail {first : ω} (h : Advances position left more r) :
    Advances position left (first :: more) r := h.mono (List.suffix_cons first more)

/-- What comes next goes on from what is left. -/
theorem bind {f : α → Except SyntaxError β} (h : Advances position left source r)
    (hf : ∀ a, Advances position left' (left a) (f a)) :
    Advances position left' source (r >>= f) := by
  cases r with
  | ok a => exact (hf a).mono h
  | error e => exact h

theorem map {f : α → β} (h : Advances position left source r)
    (hf : ∀ a, left' (f a) = left a) : Advances position left' source (r.map f) := by
  cases r with
  | ok a =>
    show left' (f a) <:+ source
    rw [hf]
    exact h
  | error e => exact h

end Advances

/-! ## Words -/

namespace Token

variable {stop : Nat} {c quote : Char} {text whole rest : List Char}

theorem advances_failAt {α : Type} (left : α → List Char) (h : rest <:+ text)
    (fault : SyntaxFault) :
    Advances (stop - Text.byteLength ·) left text (failAt stop rest fault) := ⟨rest, h, rfl⟩

/-- A string without an end shows this at its opening quote, which stands before all that has been
read of it. -/
theorem advances_readString (h : text <:+ whole) (read : List Char) :
    Advances (stop - Text.byteLength ·) (·.2.1) whole (readString stop whole quote read text) := by
  induction text using written.induct quote generalizing read with
  | case1 =>
    rw [readString]
    exact advances_failAt _ List.suffix_rfl _
  | case2 text =>
    rw [readString.eq_def]
    dsimp only
    rw [if_pos rfl]
    exact (List.suffix_cons _ _).trans h
  | case3 hquote =>
    rw [readString.eq_def]
    dsimp only
    rw [if_neg hquote, if_pos rfl]
    exact advances_failAt _ h _
  | case4 e text hquote ih =>
    rw [readString.eq_def]
    dsimp only
    rw [if_neg hquote, if_pos rfl]
    have further : text <:+ '\\' :: e :: text :=
      (List.suffix_cons e text).trans (List.suffix_cons _ _)
    exact (ih (further.trans h) _).map fun _ => rfl
  | case5 d text hquote hguard ih =>
    rw [readString.eq_def]
    dsimp only
    rw [if_neg hquote, if_neg hguard]
    exact (ih ((List.suffix_cons d text).trans h) _).map fun _ => rfl

theorem advances_read :
    Advances (stop - Text.byteLength ·) (·.2.1) (c :: text) (read stop c text) := by
  rw [read.eq_def]
  dsimp only
  split
  · obtain ⟨htext, -⟩ := numberTail_eq text
    exact ⟨c :: (numberTail text).1, congrArg (c :: ·) htext.symm⟩
  · split
    · exact (advances_readString (List.suffix_cons c text) []).map fun _ => rfl
    · split
      · cases text with
        | nil => exact advances_failAt _ List.suffix_rfl _
        | cons b pointer =>
          dsimp only
          split
          · split
            · rename_i p after hpointer
              obtain ⟨htext, -⟩ := eq_of_readPointer hpointer
              refine ⟨c :: b :: (p ++ [backquote]), ?_⟩
              simp [htext]
            · exact advances_failAt _ List.suffix_rfl _
          · exact advances_failAt _ List.suffix_rfl _
      · split
        · exact (List.dropWhile_suffix _).trans (List.suffix_cons c text)
        · split
          · exact List.drop_suffix _ _
          · exact advances_failAt _ List.suffix_rfl _

theorem advances_scanTo (text : List Char) :
    Advances (stop - Text.byteLength ·) (fun _ => []) text (scanTo stop text) := by
  induction text using scanTo.induct with
  | case1 =>
    rw [scanTo]
    exact List.nil_suffix
  | case2 c text hblank ih =>
    rw [scanTo, if_pos hblank]
    exact ih.tail
  | case3 c text hblank ih =>
    rw [scanTo, if_neg hblank]
    refine advances_read.bind fun found => ?_
    exact (ih found.2).bind fun words => List.nil_suffix

/-- Every word starts an end of the source. -/
theorem suffix_of_scanTo {words : List Spanned} (h : scanTo stop text = .ok words) :
    ∀ word ∈ words, word.text <:+ text := by
  induction text using scanTo.induct generalizing words with
  | case1 =>
    rw [scanTo] at h
    obtain rfl := Except.ok.inj h
    simp
  | case2 c text hblank ih =>
    rw [scanTo, if_pos hblank] at h
    exact fun word hword => (ih h word hword).trans (List.suffix_cons c text)
  | case3 c text hblank ih =>
    rw [scanTo, if_neg hblank] at h
    obtain ⟨⟨token, rest⟩, hread, h⟩ := bind_eq_ok.1 h
    obtain ⟨tail, htail, h⟩ := bind_eq_ok.1 h
    obtain rfl := Except.ok.inj h
    have hadvances : Advances (stop - Text.byteLength ·) (·.2.1) (c :: text) (read stop c text) :=
      advances_read
    have hrest : rest.1 <:+ c :: text := by rwa [hread] at hadvances
    refine List.forall_mem_cons.2 ⟨List.suffix_rfl, fun word hword => ?_⟩
    exact (ih rest htail word hword).trans hrest

end Token

/-! ## Expressions -/

namespace Expr

variable {stop levels least : Nat} {words : List Placed} {p close : Punct} {left object : Expr}

theorem suffix_of_eat? {after : { rest : List Placed // rest.length < words.length }}
    (h : eat? p words = some after) : after.1 <:+ words := by
  unfold eat? at h
  split at h
  · split at h
    · obtain rfl := Option.some.inj h
      exact List.suffix_cons _ _
    · cases h
  · cases h

theorem advances_expected {α : Type} (left : α → List Placed) (what : Expected) :
    Advances (offset stop) left words (expected stop what words) :=
  ⟨words, List.suffix_rfl, rfl⟩

theorem advances_expect : Advances (offset stop) Subtype.val words (expect stop p words) := by
  unfold expect
  split
  · rename_i h
    exact suffix_of_eat? h
  · exact advances_expected _ _

/-- Whether the parser goes forward from some words in every place of the grammar. -/
structure Forward (stop : Nat) (words : List Placed) : Prop where
  conditional (levels : Nat) :
    Advances (offset stop) Parsed.rest words (parseConditional stop levels words)
  operators (levels least : Nat) (left : Expr) :
    Advances (offset stop) (·.2.1) words (parseOperators stop levels least left words)
  binary (levels least : Nat) :
    Advances (offset stop) Parsed.rest words (parseBinary stop levels least words)
  unary (levels : Nat) : Advances (offset stop) Parsed.rest words (parseUnary stop levels words)
  postfixes (levels : Nat) (object : Expr) :
    Advances (offset stop) (·.2.1) words (parsePostfixes stop levels object words)
  list (levels : Nat) (close : Punct) :
    Advances (offset stop) Parsed.rest words (parseList stop levels close words)
  items (levels : Nat) (close : Punct) :
    Advances (offset stop) Parsed.rest words (parseItems stop levels close words)

section

variable (ih : ∀ more : List Placed, more.length < words.length → Forward stop more)

include ih

/-! ## One step of the parser

Every production reads fewer words in its parts, of which this may be known already. -/

theorem advances_primary :
    Advances (offset stop) Parsed.rest words (parsePrimary stop levels words) := by
  rw [parsePrimary.eq_def]
  split
  · exact ⟨[], List.nil_suffix, rfl⟩
  · rename_i after
    refine .tail (((ih after (by simp)).conditional levels).bind fun inner => ?_)
    exact advances_expect.bind fun after => List.suffix_rfl
  · rename_i after
    exact .tail (((ih after (by simp)).list levels .closeBracket).bind fun items => List.suffix_rfl)
  · split
    · exact List.suffix_cons _ _
    · exact ⟨_, List.suffix_rfl, rfl⟩

theorem advances_postfixes :
    Advances (offset stop) (·.2.1) words (parsePostfixes stop levels object words) := by
  rw [parsePostfixes.eq_def]
  split
  · rename_i key _ after
    have further := (ih after (by simp only [List.length_cons]; omega)).postfixes levels
      (.member object key)
    exact .tail (.tail (further.bind fun whole => List.suffix_rfl))
  · exact .tail (advances_expected _ _)
  · rename_i after
    refine .tail (((ih after (by simp)).conditional levels).bind fun key => ?_)
    refine advances_expect.bind fun close => ?_
    have shorter : close.1.length < after.length := Nat.lt_trans close.2 key.shorter
    have further := (ih close.1 (by simp only [List.length_cons]; omega)).postfixes levels
      (.index object key.value)
    exact further.bind fun whole => List.suffix_rfl
  · rename_i after
    refine .tail (((ih after (by simp)).list levels .closeParen).bind fun args => ?_)
    have shorter := args.shorter
    have further := (ih args.rest (by simp only [List.length_cons]; omega)).postfixes levels
      (.call object args.value)
    exact further.bind fun whole => List.suffix_rfl
  · exact List.suffix_rfl

theorem advances_operand :
    Advances (offset stop) Parsed.rest words (parsePostfix stop levels words) := by
  rw [parsePostfix]
  refine (advances_primary ih).bind fun start => ?_
  exact ((ih start.rest start.shorter).postfixes levels start.value).bind fun whole => List.suffix_rfl

theorem advances_unary :
    Advances (offset stop) Parsed.rest words (parseUnary stop levels words) := by
  cases levels with
  | zero =>
    rw [parseUnary]
    exact ⟨words, List.suffix_rfl, rfl⟩
  | succ levels =>
    rw [parseUnary.eq_def]
    dsimp only
    split
    · rename_i after
      split
      · exact .tail (((ih after (by simp)).unary levels).bind fun operand => List.suffix_rfl)
      · exact advances_operand ih
    · exact advances_operand ih

theorem advances_operators :
    Advances (offset stop) (·.2.1) words (parseOperators stop levels least left words) := by
  rw [parseOperators.eq_def]
  split
  · rename_i after
    split
    · rename_i op _
      split
      · exact List.suffix_rfl
      · refine .tail (((ih after (by simp)).binary levels (op.precedence + 1)).bind fun right => ?_)
        have shorter := right.shorter
        have further := (ih right.rest (by simp only [List.length_cons]; omega)).operators levels
          least (.binary op left right.value)
        exact further.bind fun whole => List.suffix_rfl
    · exact List.suffix_rfl
  · exact List.suffix_rfl

theorem advances_binary :
    Advances (offset stop) Parsed.rest words (parseBinary stop levels least words) := by
  rw [parseBinary]
  refine (advances_unary ih).bind fun left => ?_
  exact ((ih left.rest left.shorter).operators levels least left.value).bind fun whole =>
    List.suffix_rfl

theorem advances_conditional :
    Advances (offset stop) Parsed.rest words (parseConditional stop levels words) := by
  cases levels with
  | zero =>
    rw [parseConditional]
    exact ⟨words, List.suffix_rfl, rfl⟩
  | succ levels =>
    rw [parseConditional]
    refine (advances_binary ih).bind fun test => ?_
    split
    · exact List.suffix_rfl
    · rename_i after hafter
      have hyes : after.1.length < words.length := Nat.lt_trans after.2 test.shorter
      refine .mono (((ih after.1 hyes).conditional levels).bind fun yes => ?_) (suffix_of_eat? hafter)
      refine advances_expect.bind fun middle => ?_
      have hno : middle.1.length < words.length :=
        Nat.lt_trans middle.2 (Nat.lt_trans yes.shorter hyes)
      exact ((ih middle.1 hno).conditional levels).bind fun no => List.suffix_rfl

theorem advances_items :
    Advances (offset stop) Parsed.rest words (parseItems stop levels close words) := by
  rw [parseItems]
  refine (advances_conditional ih).bind fun item => ?_
  split
  · rename_i hafter
    exact suffix_of_eat? hafter
  · refine advances_expect.bind fun after => ?_
    have shorter : after.1.length < words.length := Nat.lt_trans after.2 item.shorter
    exact ((ih after.1 shorter).items levels close).bind fun items => List.suffix_rfl

theorem advances_list :
    Advances (offset stop) Parsed.rest words (parseList stop levels close words) := by
  rw [parseList]
  split
  · rename_i hafter
    exact suffix_of_eat? hafter
  · exact advances_items ih

end

/-! ## The whole parser -/

theorem forward (stop : Nat) (words : List Placed) : Forward stop words := by
  induction h : words.length using Nat.strongRecOn generalizing words with
  | ind n ih =>
    subst h
    have shorter (more : List Placed) (h : more.length < words.length) : Forward stop more :=
      ih _ h more rfl
    exact {
      conditional := fun _ => advances_conditional shorter
      operators := fun _ _ _ => advances_operators shorter
      binary := fun _ _ => advances_binary shorter
      unary := fun _ => advances_unary shorter
      postfixes := fun _ _ => advances_postfixes shorter
      list := fun _ _ => advances_list shorter
      items := fun _ _ => advances_items shorter }

theorem advances_ofWords (h : words ≠ []) :
    Advances (offset stop) (fun _ => []) words (ofWords stop words) := by
  rw [ofWords, if_neg (by simpa using h)]
  refine ((forward stop words).conditional nestingLevels).bind fun whole => ?_
  split
  · exact List.nil_suffix
  · exact advances_expected _ _

/-- Where a word starts, an end of the source starts. -/
theorem advances_of_words {α : Type} {left : α → List Placed} {r : Except SyntaxError α}
    {source : List Char} {spans : List Spanned}
    (h : Advances (offset stop) left (spans.map (Spanned.placed stop)) r)
    (hspans : ∀ span ∈ spans, span.text <:+ source) :
    Advances (stop - Text.byteLength ·) (fun _ => []) source r := by
  cases r with
  | ok a => exact List.nil_suffix
  | error e =>
    obtain ⟨rest, hrest, hoffset⟩ := h
    cases rest with
    | nil => exact ⟨[], List.nil_suffix, hoffset⟩
    | cons word rest =>
      obtain ⟨span, hspan, rfl⟩ := List.mem_map.1 (hrest.mem List.mem_cons_self)
      exact ⟨span.text, hspans span hspan, hoffset⟩

/-- An expression that cannot be read shows this where an end of its source starts. -/
theorem advances_parseChars (source : List Char) :
    Advances (Text.byteLength source - Text.byteLength ·) (fun _ => []) source
      (parseChars source) := by
  have hscan : Advances (Text.byteLength source - Text.byteLength ·) (fun _ => []) source
      (Token.scanTo (Text.byteLength source) source) := Token.advances_scanTo source
  unfold parseChars Token.scan
  cases h : Token.scanTo (Text.byteLength source) source with
  | error e =>
    rw [h] at hscan
    exact hscan
  | ok spans =>
    show Advances _ _ source (ofWords _ (spans.map _))
    by_cases hne : spans = []
    · subst hne
      -- The error of an empty expression shows at the start of the source, before its blanks.
      exact ⟨source, List.suffix_rfl, (Nat.sub_self _).symm⟩
    · refine advances_of_words (advances_ofWords ?_) (Token.suffix_of_scanTo h)
      simpa using hne

end Expr

end FormSchema
