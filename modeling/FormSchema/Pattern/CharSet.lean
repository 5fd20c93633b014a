import FormSchema.Text.Property

/-! The sets of characters that a pattern speaks of. -/

namespace FormSchema

abbrev CharSet := Char → Bool

namespace CharSet

def empty : CharSet := fun _ => false

def only (c : Char) : CharSet := (· == c)

def range (low high : Char) : CharSet := fun c => low ≤ c && c ≤ high

def union (s t : CharSet) : CharSet := fun c => s c || t c

def inter (s t : CharSet) : CharSet := fun c => s c && t c

def diff (s t : CharSet) : CharSet := fun c => s c && !t c

def symmDiff (s t : CharSet) : CharSet := fun c => s c != t c

def compl (s : CharSet) : CharSet := fun c => !s c

def plain (s : CharSet) : CharSet := fun c => c.toNat < 0x80 && s c

def anyCase (s : CharSet) : CharSet := fun c => (Text.caseVariants c).any s

/-- A set with the other case of those of its members that are plain letters. -/
def anyPlainCase (s : CharSet) : CharSet := fun c => s c || s c.toLower || s c.toUpper

/-- Whether a set holds one of the characters from U+0080 to U+00FF. -/
def pastPlain (s : CharSet) : Bool := (List.range 0x80).any fun n => s (Char.ofNat (0x80 + n))

theorem compl_union (s t : CharSet) : (s.union t).compl = s.compl.inter t.compl := by
  funext c
  simp [compl, union, inter]

/-- The classes that are written by a letter after a backslash. -/
def lettered? : Char → Option CharSet
  | 'd' => some Text.isDecimalDigit
  | 's' => some Text.isBlank
  | 'w' => some Text.isWord
  | _ => none

/-- The classes of plain characters that are written by a name between colons. -/
def named? : String → Option CharSet
  | "alnum" => some fun c => Text.isPlainLetter c || Text.isPlainDigit c
  | "alpha" => some Text.isPlainLetter
  | "ascii" => some fun c => c.toNat < 0x80
  | "blank" => some fun c => c == ' ' || c == '\t'
  | "cntrl" => some fun c => c.toNat < 0x20 || c.toNat == 0x7F
  | "digit" => some Text.isPlainDigit
  | "graph" => some (range '!' '~')
  | "lower" => some (range 'a' 'z')
  | "print" => some (range ' ' '~')
  | "punct" => some fun c => range '!' '~' c && !(Text.isPlainLetter c || Text.isPlainDigit c)
  | "space" => some fun c => c == ' ' || range '\t' '\r' c
  | "upper" => some (range 'A' 'Z')
  | "word" => some fun c => Text.isPlainLetter c || Text.isPlainDigit c || c == '_'
  | "xdigit" => some fun c => (Text.hexDigit? c).isSome
  | _ => none

end CharSet

end FormSchema
