import FormSchema.Expr.Template
import FormSchema.Proofs.Expr.Mention
import Mathlib.Algebra.Group.Nat.Even
import Mathlib.Data.List.Induction

/-!
Templates that are put together of texts, pointers and sources of expressions, and taken apart again.
The search for the brace that closes a hole knows nothing of words: it goes character by character, and
a backslash guards the next character in a pointer too, as it does in a string.  So it passes over
the source of an expression as long as no pointer in it ends in an odd number of backslashes.
-/

namespace FormSchema

open Token (backquote)

namespace Template

/-- Where the search for the brace that closes a hole stands: in which quotes, whether the next
character is guarded, and how many braces are open. -/
structure Search where
  quote : Option Char
  guarded : Bool
  depth : Nat
  deriving DecidableEq

/-- The backslashes at the end of a text. -/
def backslashes (text : List Char) : Nat := (text.reverse.takeWhile (· == '\\')).length

theorem backslashes_concat (text : List Char) (c : Char) :
    backslashes (text ++ [c]) = if c = '\\' then backslashes text + 1 else 0 := by
  rw [backslashes, List.reverse_concat, List.takeWhile_cons]
  by_cases hc : c = '\\' <;> simp [hc, backslashes]

namespace Search

variable {s s' : Search} {quote c : Char} {chunk text more body : List Char}

/-- Where a search starts, and where it stands again after every word. -/
def start : Search := ⟨none, false, 0⟩

/-- Where a search stands in quotes, unless a character is guarded there. -/
def within (quote : Char) : Search := ⟨some quote, false, 0⟩

/-- The search after one more character; nothing if that is the brace. -/
def next (s : Search) (c : Char) : Option Search :=
  match s.quote with
  | some q =>
    if s.guarded then some ⟨some q, false, s.depth⟩
    else if c = '\\' then some ⟨some q, true, s.depth⟩
    else if c = q then some ⟨none, false, s.depth⟩
    else some ⟨some q, false, s.depth⟩
  | none =>
    if c = '\'' ∨ c = '"' ∨ c = backquote then some ⟨some c, false, s.depth⟩
    else if c = '\x7b' then some ⟨none, false, s.depth + 1⟩
    else if c = '\x7d' then
      match s.depth with
      | 0 => none
      | depth + 1 => some ⟨none, false, depth⟩
    else some ⟨none, false, s.depth⟩

/-- The search after a stretch without the brace. -/
def run (s : Search) (text : List Char) : Option Search := text.foldlM next s

theorem run_cons (h : s.next c = some s') (text : List Char) : s.run (c :: text) = s'.run text := by
  rw [run, List.foldlM_cons, h]
  rfl

theorem run_append (h : s.run chunk = some s') (text : List Char) :
    s.run (chunk ++ text) = s'.run text := by
  rw [run, List.foldlM_append, ← run, h]
  rfl

/-- What is before the brace and what is after it. -/
def split? (s : Search) (text : List Char) : Option (List Char × List Char) :=
  (splitBrace s.quote s.guarded s.depth text).map fun (inner, rest) => (inner, rest.1)

theorem split?_cons (s : Search) (c : Char) (text : List Char) :
    s.split? (c :: text) =
      match s.next c with
      | none => some ([], text)
      | some s' => (s'.split? text).map fun (inner, rest) => (c :: inner, rest) := by
  obtain ⟨quote, guarded, depth⟩ := s
  have goOn (s' : Search) :
      ((splitBrace s'.quote s'.guarded s'.depth text).map (fun found =>
          ((c :: found.1, ⟨found.2.1, Nat.lt_succ_of_lt found.2.2⟩) :
            List Char × { rest : List Char // rest.length < (c :: text).length }))).map
          (fun found => (found.1, found.2.1)) =
        (s'.split? text).map fun found => (c :: found.1, found.2) := by
    rw [split?, Option.map_map, Option.map_map]
    rfl
  rw [split?, splitBrace.eq_def, next]
  dsimp only
  cases quote with
  | some q =>
    dsimp only
    split
    · exact goOn ⟨some q, false, depth⟩
    · split
      · exact goOn ⟨some q, true, depth⟩
      · split
        · exact goOn ⟨none, false, depth⟩
        · exact goOn ⟨some q, false, depth⟩
  | none =>
    dsimp only
    split
    · exact goOn ⟨some c, false, depth⟩
    · split
      · exact goOn ⟨none, false, depth + 1⟩
      · split
        · cases depth with
          | zero => rfl
          | succ depth => exact goOn ⟨none, false, depth⟩
        · exact goOn ⟨none, false, depth⟩

theorem split?_append (h : s.run chunk = some s') (text : List Char) :
    s.split? (chunk ++ text) = (s'.split? text).map fun (inner, rest) => (chunk ++ inner, rest) := by
  induction chunk generalizing s with
  | nil =>
    obtain rfl := Option.some.inj h
    exact (Option.map_id' (x := _)).symm
  | cons c chunk ih =>
    rw [run, List.foldlM_cons] at h
    obtain ⟨s₁, hnext, h⟩ := Option.bind_eq_some_iff.1 h
    rw [List.cons_append, split?_cons, hnext]
    dsimp only
    rw [ih h, Option.map_map]
    rfl

/-- Quotes and braces apart, a search passes over everything. -/
theorem run_bare (h : ∀ c ∈ chunk, c ∉ Token.marks) : start.run chunk = some start := by
  induction chunk with
  | nil => rfl
  | cons c chunk ih =>
    obtain ⟨hc, h⟩ := List.forall_mem_cons.1 h
    simp only [Token.marks, List.mem_cons, List.not_mem_nil, or_false, not_or] at hc
    obtain ⟨hsingle, hdouble, hbackquote, hopen, hclose⟩ := hc
    have hnext : start.next c = some start := by
      simp [start, next, hsingle, hdouble, hbackquote, hopen, hclose]
    rw [run_cons hnext]
    exact ih h

/-- A search goes through a string, as it is written, the way the reader of words does. -/
theorem run_written (h : text = Token.written quote text ++ quote :: more) :
    (within quote).run (Token.written quote text) = some (within quote) := by
  induction text using Token.written.induct quote with
  | case1 => cases h
  | case2 text =>
    rw [Token.written.eq_def]
    dsimp only
    rw [if_pos rfl]
    rfl
  | case3 hquote =>
    rw [Token.written.eq_def] at h
    dsimp only at h
    rw [if_neg hquote, if_pos rfl] at h
    cases h
  | case4 e text hquote ih =>
    rw [Token.written.eq_def] at h ⊢
    dsimp only at h ⊢
    rw [if_neg hquote, if_pos rfl] at h ⊢
    exact ih (List.cons.inj (List.cons.inj h).2).2
  | case5 c text hquote hguard ih =>
    rw [Token.written.eq_def] at h ⊢
    dsimp only at h ⊢
    rw [if_neg hquote, if_neg hguard] at h ⊢
    have hnext : (within quote).next c = some (within quote) := by
      simp [within, next, hquote, hguard]
    rw [run_cons hnext]
    exact ih (List.cons.inj h).2

/-- At the end of a pointer, the next character is guarded if the pointer ends in an odd number of
backslashes. -/
theorem run_pointer (h : backquote ∉ body) :
    (within backquote).run body = some ⟨some backquote, backslashes body % 2 == 1, 0⟩ := by
  induction body using List.reverseRecOn with
  | nil => rfl
  | append_singleton body c ih =>
    rw [List.mem_append, not_or, List.mem_singleton] at h
    have hnext : next ⟨some backquote, backslashes body % 2 == 1, 0⟩ c =
        some ⟨some backquote, backslashes (body ++ [c]) % 2 == 1, 0⟩ := by
      rw [backslashes_concat]
      rcases Nat.mod_two_eq_zero_or_one (backslashes body) with heven | hodd
      · by_cases hc : c = '\\'
        · simp [next, hc, heven, Nat.succ_mod_two_eq_one_iff.2 heven]
        · simp [next, hc, heven, Ne.symm h.2]
      · by_cases hc : c = '\\'
        · simp [next, hc, hodd, Nat.succ_mod_two_eq_zero_iff.2 hodd]
        · simp [next, hc, hodd]
    rw [run_append (ih h.1), run_cons hnext]
    rfl

/-- A search passes over a text in quotes unless the last quote is guarded. -/
theorem run_quoted (hquote : quote = '\'' ∨ quote = '"' ∨ quote = backquote)
    (h : (within quote).run body = some (within quote)) :
    start.run (quote :: (body ++ [quote])) = some start := by
  have hopen : start.next quote = some (within quote) := if_pos hquote
  have hclose : (within quote).next quote = some start := by
    rcases hquote with rfl | rfl | rfl <;> decide
  rw [run_cons hopen, run_append h, run_cons hclose]
  rfl

/-- A search passes over every word, but for pointers that end in an odd number of backslashes. -/
theorem exists_run_of_read {stop : Nat} {token : Token}
    {rest : { rest : List Char // rest.length ≤ text.length }}
    (h : Token.read stop c text = .ok (token, rest))
    (even : ∀ pointer, token.atom? = some (.pointer pointer) → backslashes pointer.toList % 2 = 0) :
    ∃ chunk, c :: text = chunk ++ rest.1 ∧ start.run chunk = some start := by
  obtain ⟨chunk, -, hplain, htext⟩ | ⟨s, -, hquote, hstring⟩ | ⟨pointer, rfl, hmem, htext⟩ :=
    Token.read_cases h
  · exact ⟨c :: chunk, congrArg (c :: ·) htext, run_bare hplain⟩
  · obtain ⟨htext, -⟩ := Token.eq_of_readString hstring
    refine ⟨c :: (Token.written c text ++ [c]), ?_, run_quoted (by tauto) (run_written htext)⟩
    rw [List.cons_append, List.append_assoc]
    exact congrArg (c :: ·) htext
  · have heven := even _ rfl
    rw [String.toList_ofList] at heven
    have hrun := run_pointer hmem
    rw [heven] at hrun
    have hdollar : start.next '$' = some start := by decide
    refine ⟨'$' :: backquote :: (pointer ++ [backquote]), ?_, ?_⟩
    · rw [htext, List.cons_append, List.cons_append, List.append_assoc]
      rfl
    · rw [run_cons hdollar]
      exact run_quoted (.inr (.inr rfl)) hrun

theorem run_of_scanTo {stop : Nat} {words : List Spanned} (h : Token.scanTo stop text = .ok words)
    (even : ∀ pointer, .pointer pointer ∈ Expr.wordAtoms (words.map (Spanned.placed stop)) →
      backslashes pointer.toList % 2 = 0) :
    start.run text = some start := by
  induction text using Token.scanTo.induct generalizing words with
  | case1 => rfl
  | case2 c text hblank ih =>
    rw [Token.scanTo, if_pos hblank] at h
    have hplain : ∀ d ∈ [c], d ∉ Token.marks :=
      List.forall_mem_singleton.2 (Token.not_mem_marks (by decide +kernel) hblank)
    exact (run_append (run_bare hplain) text).trans (ih h even)
  | case3 c text hblank ih =>
    rw [Token.scanTo, if_neg hblank] at h
    obtain ⟨⟨token, rest⟩, hread, h⟩ := bind_eq_ok.1 h
    obtain ⟨tail, htail, h⟩ := bind_eq_ok.1 h
    obtain rfl := Except.ok.inj h
    rw [List.map_cons, Expr.wordAtoms_cons, Spanned.token_placed] at even
    obtain ⟨chunk, htext, hchunk⟩ := exists_run_of_read hread fun pointer hpointer =>
      even pointer (List.mem_append_left _ (by rw [hpointer]; exact List.mem_singleton_self _))
    rw [htext, run_append hchunk]
    exact ih rest htail fun pointer hpointer => even pointer (List.mem_append_right _ hpointer)

/-- A search passes over the source of an expression unless a pointer in it ends in an odd number of
backslashes. -/
theorem run_of_parseChars {e : Expr} (h : Expr.parseChars text = .ok e)
    (even : ∀ pointer ∈ e.derefs, backslashes pointer.toList % 2 = 0) :
    start.run text = some start := by
  obtain ⟨words, hwords, h⟩ := bind_eq_ok.1 h
  refine run_of_scanTo hwords fun pointer hpointer => even pointer ?_
  rw [Expr.derefs_eq, Expr.atoms_ofWords h]
  exact List.mem_filterMap.2 ⟨_, hpointer, rfl⟩

end Search

theorem exists_splitBrace {source : List Char} (h : Search.start.run source = some Search.start)
    (more : List Char) :
    ∃ rest, splitBrace none false 0 (source ++ '\x7d' :: more) = some (source, rest) ∧
      rest.1 = more := by
  have hsplit := Search.split?_append h ('\x7d' :: more)
  have hclose : Search.start.next '\x7d' = none := by decide
  rw [Search.split?_cons, hclose] at hsplit
  obtain ⟨⟨inner, rest⟩, hfound, heq⟩ := Option.map_eq_some_iff.1 hsplit
  obtain ⟨hinner, hrest⟩ := Prod.mk.inj heq
  rw [List.append_nil] at hinner
  subst hinner
  exact ⟨rest, hfound, hrest⟩

end Template

namespace Part

/-- A part before others.  Texts that meet become one, and an empty one disappears. -/
def before : Part → List Part → List Part
  | .text s, .text t :: parts => .text (s ++ t) :: parts
  | .text s, parts => if s.isEmpty then parts else .text s :: parts
  | .hole e, parts => .hole e :: parts

theorem before_before (s t : String) (parts : List Part) :
    (text s).before ((text t).before parts) = (text (s ++ t)).before parts := by
  match parts with
  | .text u :: parts => simp [before, String.append_assoc]
  | [] | .hole e :: parts => by_cases ht : t = "" <;> simp [before, ht]

theorem empty_before (parts : List Part) : (text "").before parts = parts := by
  match parts with
  | .text u :: parts => simp [before]
  | [] | .hole e :: parts => rfl

theorem before_gathered_nil (gathered : List Char) :
    (text (String.ofList gathered.reverse)).before [] = Template.flush gathered := by
  cases gathered <;> simp [before, Template.flush]

theorem before_gathered_hole (gathered : List Char) (e : Expr) (parts : List Part) :
    (text (String.ofList gathered.reverse)).before (.hole e :: parts) =
      Template.flush gathered ++ .hole e :: parts := by
  cases gathered <;> simp [before, Template.flush]

end Part

namespace Template

/-- Parts with no empty text and no two texts in a row. -/
def merge (parts : List Part) : List Part := parts.foldr Part.before []

/-- What a template can be put together of. -/
inductive Segment where
  | text (s : String) (plain : '$' ∉ s.toList)
  | pointer (p : String) (plain : backquote ∉ p.toList)
  | hole (source : String) (e : Expr) (parsed : Expr.parse source = .ok e)

namespace Segment

def written : Segment → List Char
  | text s _ => s.toList
  | pointer p _ => '$' :: backquote :: (p.toList ++ [backquote])
  | hole source _ _ => '$' :: '\x7b' :: (source.toList ++ ['\x7d'])

def part : Segment → Part
  | text s _ => .text s
  | pointer p _ => .hole (.deref p)
  | hole _ e _ => .hole e

/-- Whether no pointer in braces ends in an odd number of backslashes. -/
def Separable : Segment → Prop
  | hole _ e _ => ∀ pointer ∈ e.derefs, backslashes pointer.toList % 2 = 0
  | _ => True

end Segment

variable {stop : Nat} {gathered text rest : List Char} {parts : List Part}

theorem partsTo_text (h : '$' ∉ text) :
    partsTo stop gathered (text ++ rest) = partsTo stop (text.reverse ++ gathered) rest := by
  induction text generalizing gathered with
  | nil => rfl
  | cons c text ih =>
    rw [List.mem_cons, not_or] at h
    rw [List.cons_append, partsTo.eq_def]
    dsimp only
    rw [if_neg (Ne.symm h.1), ih h.2, List.reverse_cons, List.append_assoc]
    rfl

theorem partsTo_cons_pointer (gathered : List Char) {pointer : List Char} (h : backquote ∉ pointer)
    (rest : List Char) :
    partsTo stop gathered ('$' :: backquote :: (pointer ++ backquote :: rest)) =
      (partsTo stop [] rest).map
        fun parts => flush gathered ++ .hole (.deref (String.ofList pointer)) :: parts := by
  obtain ⟨after, hafter, heq⟩ := Token.readPointer_append h rest
  rw [partsTo, if_pos rfl, if_pos rfl, hafter]
  dsimp only
  rw [heq]
  cases partsTo stop [] rest <;> rfl

theorem partsTo_pointer (gathered : List Char) {pointer : List Char} (h : backquote ∉ pointer)
    (hrest : partsTo stop [] rest = .ok parts) :
    partsTo stop gathered ('$' :: backquote :: (pointer ++ backquote :: rest)) =
      .ok (flush gathered ++ .hole (.deref (String.ofList pointer)) :: parts) := by
  rw [partsTo_cons_pointer gathered h, hrest]
  rfl

theorem partsTo_cons_hole (gathered : List Char) {source : List Char} {e : Expr}
    (hclosed : Search.start.run source = some Search.start)
    (hsource : Expr.parseChars source = .ok e) (rest : List Char) :
    partsTo stop gathered ('$' :: '\x7b' :: (source ++ '\x7d' :: rest)) =
      (partsTo stop [] rest).map fun parts => flush gathered ++ .hole e :: parts := by
  obtain ⟨after, hafter, heq⟩ := exists_splitBrace hclosed rest
  rw [partsTo, if_pos rfl, if_neg (by decide), if_pos rfl, hafter]
  dsimp only
  rw [hsource]
  dsimp only
  rw [heq]
  cases partsTo stop [] rest <;> rfl

theorem partsTo_hole (gathered : List Char) {source : List Char} {e : Expr}
    (hsource : Expr.parseChars source = .ok e)
    (even : ∀ pointer ∈ e.derefs, backslashes pointer.toList % 2 = 0)
    (hrest : partsTo stop [] rest = .ok parts) :
    partsTo stop gathered ('$' :: '\x7b' :: (source ++ '\x7d' :: rest)) =
      .ok (flush gathered ++ .hole e :: parts) := by
  rw [partsTo_cons_hole gathered (Search.run_of_parseChars hsource even) hsource, hrest]
  rfl

/-- The parts of a text are those of the segments that it is put together of, after what has been
gathered. -/
theorem partsTo_written {segments : List Segment} (h : ∀ segment ∈ segments, segment.Separable) :
    partsTo stop gathered (segments.flatMap Segment.written) =
      .ok ((Part.text (String.ofList gathered.reverse)).before
        (merge (segments.map Segment.part))) := by
  induction segments generalizing gathered with
  | nil =>
    rw [List.flatMap_nil, partsTo]
    exact congrArg _ (Part.before_gathered_nil gathered).symm
  | cons segment segments ih =>
    rw [List.forall_mem_cons] at h
    obtain ⟨hsegment, h⟩ := h
    have hrest : partsTo stop [] (segments.flatMap Segment.written) =
        .ok (merge (segments.map Segment.part)) := (ih h).trans (congrArg _ (Part.empty_before _))
    rw [List.flatMap_cons, List.map_cons]
    cases segment with
    | text s plain =>
      have hgathered : String.ofList (s.toList.reverse ++ gathered).reverse =
          String.ofList gathered.reverse ++ s := by
        simp
      rw [Segment.written, partsTo_text plain, ih h, hgathered, ← Part.before_before]
      rfl
    | pointer p plain =>
      have hparts := partsTo_pointer gathered plain hrest
      rw [String.ofList_toList, ← Part.before_gathered_hole] at hparts
      rw [Segment.written, List.cons_append, List.cons_append, List.append_assoc]
      exact hparts
    | hole source e parsed =>
      have hparts := partsTo_hole gathered parsed hsegment hrest
      rw [← Part.before_gathered_hole] at hparts
      rw [Segment.written, List.cons_append, List.cons_append, List.append_assoc]
      exact hparts

/-- A template that is put together of texts, pointers and sources of expressions is read as these
parts, in the same order; texts that meet are one, and empty ones are gone.  No pointer in braces may
end in an odd number of backslashes. -/
theorem parse_written (segments : List Segment) (h : ∀ segment ∈ segments, segment.Separable) :
    parse (String.ofList (segments.flatMap Segment.written)) =
      .ok (merge (segments.map Segment.part)) := by
  rw [parse, parseChars, String.toList_ofList, partsTo_written h, List.reverse_nil]
  exact congrArg _ (Part.empty_before _)

namespace Assembled

def segments : List Segment :=
  [.text "a " (by decide), .text "" (by decide), .text "\x7d" (by decide), .pointer "b\\" (by decide),
    .hole "'\x7d' + $\x60c\\\\\x60" (.binary .add (.literal (.str "\x7d")) (.deref "c\\\\"))
      (by cbv)]

end Assembled

/-- Braces in texts and strings do not count, and a backslash may end a pointer outside of braces. -/
theorem parse_written_quoted :
    parse "a \x7d$\x60b\\\x60$\x7b'\x7d' + $\x60c\\\\\x60\x7d" =
      .ok [.text "a \x7d", .hole (.deref "b\\"),
        .hole (.binary .add (.literal (.str "\x7d")) (.deref "c\\\\"))] := by
  refine parse_written Assembled.segments ?_
  simp [Assembled.segments, Segment.Separable, Expr.derefs, backslashes]

/-- A pointer that ends in a backslash is read alone and as an expression, but in braces its end is
not seen. -/
theorem parse_hole_backslash :
    Expr.parse "$\x60/a\\\x60" = .ok (.deref "/a\\") ∧
      parse "$\x60/a\\\x60" = .ok [.hole (.deref "/a\\")] ∧
      parse "$\x7b$\x60/a\\\x60\x7d" = .error ⟨.unterminatedHole, 0⟩ := by
  refine ⟨?_, ?_, ?_⟩ <;> cbv

end Template

end FormSchema
