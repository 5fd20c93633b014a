import FormSchema.Expr.Token

/-! The pointers that a source mentions, found in its text without reading the expression. -/

namespace FormSchema.Expr

/-- Every text between backquotes of which the first follows a dollar sign. -/
def mentionedIn (source : List Char) : List String :=
  match source with
  | [] => []
  | c :: text =>
    match text with
    | [] => []
    | d :: body =>
      if c = '$' ∧ d = Token.backquote then
        match Token.readPointer body with
        | some (pointer, rest) => String.ofList pointer :: mentionedIn rest.1
        | none => []
      else mentionedIn (d :: body)
termination_by source.length
decreasing_by
  · have := rest.2; simp only [List.length_cons]; omega
  · simp

def mentioned (source : String) : List String := mentionedIn source.toList

end FormSchema.Expr
