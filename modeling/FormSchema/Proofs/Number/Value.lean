import FormSchema.Number.Binary64
import Mathlib

/-!
The values of doubles.  A finite double is told apart by its sign, its mantissa and its exponent; as
long as it is not zero, its value alone tells it apart, and doubles are equal if and only if their
values are.

What the library knows about the bits and the comparison of doubles is in none of the parts of
Mathlib, so that the whole of it is imported.
-/

namespace FormSchema

namespace Binary64

variable {a b : Binary64} {bits : UInt64}

/-- The value of a finite double. -/
def toRat (x : Binary64) : ℚ :=
  (if x.negative then -(x.mantissa : ℚ) else x.mantissa) * 2 ^ x.exponent

/-- Whether no digits before the mantissa are left unused, as far as the exponents allow. -/
structure IsCanonical (x : Binary64) : Prop where
  mantissa_lt : x.mantissa < 2 ^ 53
  exponent_ge : -1074 ≤ x.exponent
  filled : x.exponent = -1074 ∨ 2 ^ 52 ≤ x.mantissa

/-- The bit pattern, as a number. -/
def code (x : Binary64) : Nat :=
  (if x.negative then 2 ^ 63 else 0) +
    if x.mantissa < 2 ^ 52 then x.mantissa
    else (x.exponent + 1075).toNat * 2 ^ 52 + (x.mantissa - 2 ^ 52)

theorem isCanonical_of_ofBits? (h : ofBits? bits = some b) :
    b.IsCanonical ∧ bits.toNat = b.code := by
  have hbits := bits.toNat_lt
  unfold ofBits? at h
  dsimp only [Nat.pow_eq] at h
  split at h
  · cases h
  · split at h
    · obtain rfl := Option.some.inj h
      refine ⟨⟨?_, le_refl _, .inl rfl⟩, ?_⟩
      · change bits.toNat % 2 ^ 52 < 2 ^ 53
        omega
      · simp only [code, beq_iff_eq]
        rw [if_pos (by omega : bits.toNat % 2 ^ 52 < 2 ^ 52)]
        split <;> omega
    · obtain rfl := Option.some.inj h
      refine ⟨⟨?_, ?_, .inr ?_⟩, ?_⟩
      · change 2 ^ 52 + bits.toNat % 2 ^ 52 < 2 ^ 53
        omega
      · change -1074 ≤ ((bits.toNat / 2 ^ 52 % 2 ^ 11 : Nat) : Int) - 1075
        omega
      · change 2 ^ 52 ≤ 2 ^ 52 + bits.toNat % 2 ^ 52
        omega
      · simp only [code, beq_iff_eq]
        rw [if_neg (by omega : ¬ 2 ^ 52 + bits.toNat % 2 ^ 52 < 2 ^ 52)]
        split <;> omega

/-- The values of positive doubles do not depend on how they are written. -/
theorem IsCanonical.eq_of_mul_eq (ha : a.IsCanonical) (hb : b.IsCanonical)
    (h : (a.mantissa : ℚ) * 2 ^ a.exponent = b.mantissa * 2 ^ b.exponent) :
    a.mantissa = b.mantissa ∧ a.exponent = b.exponent := by
  wlog hle : a.exponent ≤ b.exponent generalizing a b
  · obtain ⟨hmantissa, hexponent⟩ := this hb ha h.symm (le_of_not_ge hle)
    exact ⟨hmantissa.symm, hexponent.symm⟩
  obtain ⟨d, hd⟩ := Int.le.dest hle
  have hmantissa : a.mantissa = b.mantissa * 2 ^ d := by
    rw [← hd, zpow_add₀ two_ne_zero, mul_comm ((2 : ℚ) ^ a.exponent), ← mul_assoc] at h
    have := mul_right_cancel₀ (zpow_ne_zero _ two_ne_zero) h
    rw [zpow_natCast] at this
    exact_mod_cast this
  rcases Nat.eq_zero_or_pos d with rfl | hpos
  · exact ⟨by simpa using hmantissa, by simpa using hd⟩
  · -- With a larger exponent all digits of the mantissa are used, so that none is left for the other.
    exfalso
    have hlt := ha.mantissa_lt
    have hge := ha.exponent_ge
    have hfilled : 2 ^ 52 ≤ b.mantissa := hb.filled.resolve_left (by omega)
    have htwo : 2 ^ 1 ≤ 2 ^ d := Nat.pow_le_pow_right (by decide) hpos
    have := Nat.mul_le_mul hfilled htwo
    omega

theorem toRat_eq_zero_iff : a.toRat = 0 ↔ a.mantissa = 0 := by
  have hunit : (2 : ℚ) ^ a.exponent ≠ 0 := zpow_ne_zero _ two_ne_zero
  rw [toRat]
  cases a.negative <;> simp [hunit]

/-- Doubles of one value are the same double, or both are zeros. -/
theorem IsCanonical.eq_or_zeros (ha : a.IsCanonical) (hb : b.IsCanonical) (h : a.toRat = b.toRat) :
    a = b ∨ a.mantissa = 0 ∧ b.mantissa = 0 := by
  by_cases hzero : a.mantissa = 0
  · exact .inr ⟨hzero, toRat_eq_zero_iff.1 (h ▸ toRat_eq_zero_iff.2 hzero)⟩
  · have hzero' : b.mantissa ≠ 0 := fun hb => hzero (toRat_eq_zero_iff.1 (h ▸ toRat_eq_zero_iff.2 hb))
    have hpos : (0 : ℚ) < a.mantissa * 2 ^ a.exponent := by positivity
    have hpos' : (0 : ℚ) < b.mantissa * 2 ^ b.exponent := by positivity
    rw [toRat, toRat] at h
    obtain ⟨s, m, e⟩ := a
    obtain ⟨s', m', e'⟩ := b
    dsimp only at h hpos hpos'
    refine .inl ?_
    have hsign : s = s' := by
      cases s <;> cases s' <;> simp only [Bool.false_eq_true, if_false, if_true] at h ⊢ <;> linarith
    subst hsign
    have hmagnitude : (m : ℚ) * 2 ^ e = m' * 2 ^ e' := by
      cases s <;> simpa using h
    obtain ⟨hm, he⟩ := ha.eq_of_mul_eq hb hmagnitude
    dsimp only at hm he
    rw [hm, he]

theorem cast_signed (s : Bool) (k : Nat) :
    ((if s then -(k : Int) else (k : Int) : Int) : ℚ) = if s then -(k : ℚ) else k := by
  cases s <;> simp

/-- With a negative exponent, a double is the whole number that gives its mantissa when multiplied. -/
theorem toInt?_negSucc_iff {s : Bool} {m e : Nat} {n : Int} :
    toInt? ⟨s, m, .negSucc e⟩ = some n ↔ (if s then -(m : Int) else m) = n * 2 ^ (e + 1) := by
  have hpos := Nat.two_pow_pos (e + 1)
  have htoInt : toInt? ⟨s, m, .negSucc e⟩ = if m % 2 ^ (e + 1) = 0 then
      some (if s then -((m / 2 ^ (e + 1) : Nat) : Int) else ((m / 2 ^ (e + 1) : Nat) : Int))
      else none := rfl
  rw [htoInt]
  constructor
  · intro h
    split at h
    · rename_i hdvd
      obtain ⟨k, rfl⟩ := Nat.dvd_of_mod_eq_zero hdvd
      rw [Nat.mul_div_cancel_left _ hpos] at h
      rw [← Option.some.inj h]
      cases s <;> simp <;> ring
    · cases h
  · intro h
    have hm : m = n.natAbs * 2 ^ (e + 1) := by
      have := congrArg Int.natAbs h
      rw [Int.natAbs_mul, Int.natAbs_pow] at this
      cases s <;> simpa using this
    have hn : (if s then -(n.natAbs : Int) else n.natAbs) = n := by
      rw [hm] at h
      have hpow : (2 : Int) ^ (e + 1) ≠ 0 := by positivity
      refine mul_right_cancel₀ hpow ?_
      rw [← h]
      cases s <;> simp
    rw [if_pos (by rw [hm, Nat.mul_mod_left]), hm, Nat.mul_div_cancel _ hpos, hn]

/-- A double is the whole number that its value is. -/
theorem toInt?_eq_some_iff {n : Int} : a.toInt? = some n ↔ a.toRat = n := by
  obtain ⟨s, m, e⟩ := a
  cases e with
  | ofNat e =>
    have hvalue : toRat ⟨s, m, .ofNat e⟩ = ((if s then -((m * 2 ^ e : Nat) : Int)
        else ((m * 2 ^ e : Nat) : Int) : Int) : ℚ) := by
      rw [cast_signed, toRat]
      cases s <;> simp
    rw [hvalue, Int.cast_inj]
    exact Option.some_inj
  | negSucc e =>
    have hunit : (0 : ℚ) < 2 ^ (e + 1) := by positivity
    have hvalue : toRat ⟨s, m, .negSucc e⟩ = (if s then -(m : ℚ) else m) / 2 ^ (e + 1) := by
      rw [toRat, zpow_negSucc, div_eq_mul_inv]
    rw [toInt?_negSucc_iff, hvalue, div_eq_iff hunit.ne', ← cast_signed]
    norm_cast

end Binary64

section Equality

variable {x y : Float} {a b : Binary64}

theorem Binary64.isCanonical_of_ofFloat? (h : Binary64.ofFloat? x = some a) : a.IsCanonical :=
  (isCanonical_of_ofBits? h).1

/-- A finite double is told apart by sign, mantissa and exponent. -/
theorem Binary64.ofFloat?_inj (hx : Binary64.ofFloat? x = some a)
    (hy : Binary64.ofFloat? y = some a) : x = y := by
  have hcode := (isCanonical_of_ofBits? hx).2.trans (isCanonical_of_ofBits? hy).2.symm
  exact Float.toBits_inj.1 (UInt64.toNat_inj.1 hcode)

theorem Binary64.ofFloat?_zero : Binary64.ofFloat? 0 = some ⟨false, 0, -1074⟩ := by decide +kernel

theorem Binary64.ofFloat?_neg_zero : Binary64.ofFloat? (-0) = some ⟨true, 0, -1074⟩ := by
  decide +kernel

theorem Binary64.ofFloat?_nan : Binary64.ofFloat? Float.nan = none := by decide +kernel

theorem Binary64.eq_zero_of_mantissa (hx : Binary64.ofFloat? x = some a) (ha : a.mantissa = 0) :
    x = 0 ∨ x = -0 := by
  have hcanonical := isCanonical_of_ofFloat? hx
  have hexponent : a.exponent = -1074 := hcanonical.filled.resolve_right (by rw [ha]; decide)
  obtain ⟨s, m, e⟩ := a
  obtain rfl : m = 0 := ha
  obtain rfl : e = -1074 := hexponent
  cases s with
  | false => exact .inl (ofFloat?_inj hx ofFloat?_zero)
  | true => exact .inr (ofFloat?_inj hx ofFloat?_neg_zero)

/-- Finite doubles are equal if and only if their values are. -/
theorem Binary64.beq_iff_toRat_eq (hx : Binary64.ofFloat? x = some a)
    (hy : Binary64.ofFloat? y = some b) : (x == y) = true ↔ a.toRat = b.toRat := by
  have hzeros : toRat ⟨false, 0, -1074⟩ = 0 ∧ toRat ⟨true, 0, -1074⟩ = 0 :=
    ⟨toRat_eq_zero_iff.2 rfl, toRat_eq_zero_iff.2 rfl⟩
  have hnan {z : Float} {c : Binary64} (hz : ofFloat? z = some c) : z ≠ Float.nan := by
    rintro rfl
    rw [ofFloat?_nan] at hz
    cases hz
  rw [Float.beq_iff_ne_nan_and_eq, and_iff_right (hnan hx), and_iff_right (hnan hy)]
  constructor
  · rintro (rfl | ⟨rfl, rfl⟩ | ⟨rfl, rfl⟩)
    · rw [Option.some.inj (hx.symm.trans hy)]
    · rw [← Option.some.inj (ofFloat?_zero.symm.trans hx),
        ← Option.some.inj (ofFloat?_neg_zero.symm.trans hy), hzeros.1, hzeros.2]
    · rw [← Option.some.inj (ofFloat?_neg_zero.symm.trans hx),
        ← Option.some.inj (ofFloat?_zero.symm.trans hy), hzeros.1, hzeros.2]
  · intro h
    rcases (isCanonical_of_ofFloat? hx).eq_or_zeros (isCanonical_of_ofFloat? hy) h with
      rfl | ⟨ha, hb⟩
    · exact .inl (ofFloat?_inj hx hy)
    · rcases eq_zero_of_mantissa hx ha with rfl | rfl <;>
        rcases eq_zero_of_mantissa hy hb with rfl | rfl <;> simp

end Equality

end FormSchema
