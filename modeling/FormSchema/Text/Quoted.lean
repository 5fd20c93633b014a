import FormSchema.Text.Category

/-!
Text in quotes for messages.  Characters that cannot be seen are written by their number.
-/

namespace FormSchema.Text

/-- Marks that extend the character before them though their category is spacing mark. -/
def otherExtending : CodeRanges := .read "
  9BE 9D7 B3E B57 BBE BD7 CC2 CD5-CD6 D3E D57 DCF DDF 1B35 200C 302E-302F FF9E-FF9F 1133E 11357
  114B0 114BD 115AF 11930 1D165 1D16E-1D172 E0020-E007F"

/-- Whether a character cannot stand in a message by itself. -/
def isHidden (c : Char) : Bool :=
  if c.toNat < 0x7F then c.toNat < 0x20
  else
    [Category.nonspacingMark, .enclosingMark, .spaceSeparator, .lineSeparator, .paragraphSeparator,
      .control, .format, .privateUse, .unassigned].any (·.holds c) || otherExtending.contains c

def quotedChar (c : Char) : String :=
  if c == '\x00' then "\\0"
  else if c == '\t' then "\\t"
  else if c == '\r' then "\\r"
  else if c == '\n' then "\\n"
  else if c == '"' then "\\\""
  else if c == '\\' then "\\\\"
  else if isHidden c then
    "\\u\x7b" ++ String.ofList (Nat.toDigits 16 c.toNat) ++ "\x7d"
  else String.singleton c

def quoted (s : String) : String := "\"" ++ String.join (s.toList.map quotedChar) ++ "\""

end FormSchema.Text
