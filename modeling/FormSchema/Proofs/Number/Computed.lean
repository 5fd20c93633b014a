import FormSchema.Expr.Eval
import FormSchema.Proofs.Number.Rounding

/-!
Computed numbers.  A whole double in the range of signed integers is stored as an integer, which has
its value: it stands for the same double and is shown by its digits.  Only `2 ^ 63`, which is no signed
integer, is taken for the integer before it.
-/

namespace FormSchema

namespace Number

/-- A double that is a whole number is the double of that number, but for the sign of zero. -/
theorem ofInt_of_wholeOfFloat? {x : Float} {n : Int} (h : wholeOfFloat? x = some n)
    (hn : n.natAbs < 2 ^ 64) :
    (Float.ofInt n == x) = true ∧ (n ≠ 0 → Float.ofInt n = x) := by
  obtain ⟨a, ha, hint⟩ := Option.bind_eq_some_iff.1 h
  have hvalue : a.toRat = n := Binary64.toInt?_eq_some_iff.1 hint
  obtain ⟨b, hb, hround⟩ := exists_ofInt hn
  have hequal : b.toRat = a.toRat := by
    rw [hround, roundInt_of_toRat (Binary64.isCanonical_of_ofFloat? ha) hvalue, hvalue]
  refine ⟨(Binary64.beq_iff_toRat_eq hb ha).2 hequal, fun hzero => ?_⟩
  rcases (Binary64.isCanonical_of_ofFloat? hb).eq_or_zeros (Binary64.isCanonical_of_ofFloat? ha)
    hequal with rfl | ⟨-, hzeros⟩
  · exact Binary64.ofFloat?_inj hb ha
  · rw [Binary64.toRat_eq_zero_iff.2 hzeros] at hvalue
    exact absurd (Int.cast_eq_zero.1 hvalue.symm) hzero

end Number

namespace Json

variable {x : Float} {n : Int}

/-- Which doubles are stored as integers, and as which. -/
theorem ofFloat_eq_int_iff : ofFloat x = .num (.int n) ↔
    ∃ m, Number.wholeOfFloat? x = some m ∧ -intBound ≤ m ∧ m ≤ intBound ∧
      n = min m (intBound - 1) := by
  rw [ofFloat, Number.wholeOfFloat?]
  cases Binary64.ofFloat? x with
  | none => simp
  | some b =>
    rw [Option.bind_some]
    dsimp only
    cases b.toInt? with
    | none => simp
    | some m =>
      dsimp only
      split
      · rename_i hrange
        simp [hrange, eq_comm]
      · rename_i hrange
        simpa using fun h h' => absurd ⟨h, h'⟩ hrange

/-- A computed integer has the value of the double that it was computed as, stands for that double
and is shown by the digits of its value. -/
theorem ofFloat_exact (integer : ofFloat x = .num (.int n))
    (inRange : Number.wholeOfFloat? x ≠ some intBound) :
    Number.wholeOfFloat? x = some n ∧
    (∃ y, (ofFloat x).toNumber? = some y ∧ (y == x) = true ∧ (n ≠ 0 → y = x)) ∧
    (ofFloat x).display = toString n := by
  obtain ⟨m, hm, hlower, hupper, hmin⟩ := ofFloat_eq_int_iff.1 integer
  have hne : m ≠ intBound := fun h => inRange (h ▸ hm)
  obtain rfl : n = m := by omega
  have hbound : intBound = 2 ^ 63 := rfl
  refine ⟨hm, ⟨Float.ofInt n, ?_, Number.ofInt_of_wholeOfFloat? hm (by omega)⟩, ?_⟩
  · rw [integer, toNumber?, Number.toFloat]
  · rw [integer, display, displayNumber]

theorem ofFloat_exact_lowest :
    ofFloat (-9223372036854775808) = .num (.int (-9223372036854775808)) ∧
    Number.wholeOfFloat? (-9223372036854775808) = some (-9223372036854775808) :=
  have whole : Number.wholeOfFloat? (-9223372036854775808) = some (-9223372036854775808) := by
    decide +kernel
  have integer : ofFloat (-9223372036854775808) = .num (.int (-9223372036854775808)) :=
    ofFloat_eq_int_iff.2 ⟨_, whole, by decide, by decide, by decide⟩
  ⟨integer, (ofFloat_exact integer (by rw [whole]; decide)).1⟩

/-- The first double beyond the signed integers is stored as the last of them. -/
theorem ofFloat_inexact :
    Number.wholeOfFloat? (Float.ofInt 4611686018427387904 * Float.ofInt 2) = some (2 ^ 63) ∧
    Expr.binaryOf .mul (.ofNat 4611686018427387904) (.ofNat 2) = .num (.int (2 ^ 63 - 1)) := by
  have whole : Number.wholeOfFloat? (Float.ofInt 4611686018427387904 * Float.ofInt 2) =
      some (2 ^ 63) := by decide +kernel
  refine ⟨whole, ?_⟩
  change ofFloat (Float.ofInt 4611686018427387904 * Float.ofInt 2) = _
  exact ofFloat_eq_int_iff.2 ⟨_, whole, by decide, by decide, by decide⟩

end Json

end FormSchema
