import FormSchema.Proofs.Number.Value
import FormSchema.Proofs.Number.Whole

/-!
Whole numbers as doubles.  A double keeps 53 binary digits of a whole number, which is rounded to the
nearest multiple of a power of two and, if two multiples are equally near, to the even one.
-/

namespace FormSchema

open Float.Model (Format totalExponent)
open Float.Model.UnpackedFloat (ExtendedMantissa roundWithAccuracy shiftToTargetExponent
  shiftToExponent)

/-- A quotient rounded to the nearest whole number, or to the even one of two equally near ones. -/
def roundDiv (n d : Nat) : Nat :=
  if 2 * (n % d) < d then n / d
  else if 2 * (n % d) = d then n / d + n / d % 2
  else n / d + 1

theorem roundDiv_mul_right (n d : Nat) {c : Nat} (hc : 0 < c) :
    roundDiv (n * c) (d * c) = roundDiv n d := by
  have hrest : 2 * (n % d * c) = 2 * (n % d) * c := (Nat.mul_assoc _ _ _).symm
  have hlt : 2 * (n % d) * c < d * c ↔ 2 * (n % d) < d := Nat.mul_lt_mul_right hc
  have heq : 2 * (n % d) * c = d * c ↔ 2 * (n % d) = d := Nat.mul_left_inj hc.ne'
  rw [roundDiv, roundDiv, Nat.mul_mod_mul_right, Nat.mul_div_mul_right _ _ hc, hrest]
  simp only [hlt, heq]

theorem roundDiv_mul_self (q : Nat) {d : Nat} (hd : 0 < d) : roundDiv (q * d) d = q := by
  rw [roundDiv, Nat.mul_mod_left, Nat.mul_div_cancel _ hd, if_pos (by omega)]

theorem roundDiv_le (n d : Nat) : n / d ≤ roundDiv n d ∧ roundDiv n d ≤ n / d + 1 := by
  rw [roundDiv]
  split
  · omega
  · split <;> omega

theorem roundDiv_nearest (n j : Nat) {d : Nat} (hd : 0 < d) :
    ((n : Int) - (roundDiv n d * d : Nat)).natAbs ≤ ((n : Int) - (j * d : Nat)).natAbs := by
  have hsplit : n / d * d + n % d = n := Nat.div_add_mod' n d
  have hlt := Nat.mod_lt n hd
  have hround : roundDiv n d * d = n / d * d ∧ 2 * (n % d) ≤ d ∨
      roundDiv n d * d = n / d * d + d ∧ d ≤ 2 * (n % d) := by
    rw [roundDiv]
    split
    · exact .inl ⟨rfl, by omega⟩
    · split
      · rcases Nat.mod_two_eq_zero_or_one (n / d) with h | h
        · exact .inl ⟨by rw [h, Nat.add_zero], by omega⟩
        · exact .inr ⟨by rw [h, Nat.succ_mul], by omega⟩
      · exact .inr ⟨Nat.succ_mul _ _, by omega⟩
  rcases Nat.lt_or_ge (n / d) j with h | h
  · have := Nat.mul_le_mul_right d h
    rw [Nat.succ_mul] at this
    omega
  · have := Nat.mul_le_mul_right d h
    omega

/-- The digits that are shifted out are kept as far as rounding needs them: whether the first of them
is set, and whether any other is. -/
theorem shiftRight_eq (n k : Nat) :
    ExtendedMantissa.ofMantissaAndAccuracy n .exact >>> k =
      ⟨n / 2 ^ k, decide (2 ^ k ≤ 2 * (n % 2 ^ k)),
        decide (n % 2 ^ k ≠ 0 ∧ 2 * (n % 2 ^ k) ≠ 2 ^ k)⟩ := by
  induction k with
  | zero =>
    rw [Nat.pow_zero, Nat.div_one, Nat.mod_one]
    rfl
  | succ k ih =>
    have hstep : ExtendedMantissa.ofMantissaAndAccuracy n .exact >>> (k + 1) =
        (ExtendedMantissa.ofMantissaAndAccuracy n .exact >>> k).shiftRightOne := rfl
    have hquotient : n / 2 ^ (k + 1) = n / 2 ^ k / 2 := by
      rw [Nat.pow_succ, Nat.div_div_eq_div_mul]
    have hrest : n % 2 ^ (k + 1) = n % 2 ^ k + 2 ^ k * (n / 2 ^ k % 2) := by
      rw [Nat.pow_succ, Nat.mod_mul]
    have hlt : n % 2 ^ k < 2 ^ k := Nat.mod_lt _ (Nat.two_pow_pos k)
    rw [hstep, ih, ExtendedMantissa.shiftRightOne, hquotient, hrest, Nat.pow_succ]
    generalize n % 2 ^ k = r at *
    generalize 2 ^ k = d at *
    rcases Nat.mod_two_eq_zero_or_one (n / d) with hbit | hbit
    · rw [hbit]
      simp only [bne_self_eq_false, Nat.mul_zero, Nat.add_zero, ExtendedMantissa.mk.injEq, true_and]
      refine ⟨(decide_eq_false (by omega)).symm, ?_⟩
      rw [← Bool.decide_or]
      exact decide_eq_decide.2 (by omega)
    · rw [hbit]
      simp only [Nat.mul_one, ExtendedMantissa.mk.injEq, true_and]
      refine ⟨(decide_eq_true (by omega)).symm, ?_⟩
      rw [← Bool.decide_or]
      exact decide_eq_decide.2 (by omega)

theorem roundedMantissa_shiftRight (n k : Nat) :
    (ExtendedMantissa.ofMantissaAndAccuracy n .exact >>> k).roundedMantissa =
      roundDiv n (2 ^ k) := by
  rw [shiftRight_eq, roundDiv]
  generalize n % 2 ^ k = r
  have hpos := Nat.two_pow_pos k
  generalize 2 ^ k = d at *
  rcases Nat.lt_trichotomy (2 * r) d with hlt | heq | hgt
  · rw [if_pos hlt, decide_eq_false (Nat.not_le.2 hlt)]
    by_cases hzero : r ≠ 0 ∧ 2 * r ≠ d
    · rw [decide_eq_true hzero]
      rfl
    · rw [decide_eq_false hzero]
      rfl
  · rw [if_neg (by omega), if_pos heq, decide_eq_true (by omega), decide_eq_false (by omega)]
    rfl
  · rw [if_neg (by omega), if_neg (by omega), decide_eq_true (by omega), decide_eq_true (by omega)]
    rfl

namespace Number

/-- The last digit of the doubles that are as large as a whole number is. -/
def unit (n : Nat) : Nat := 2 ^ (n.log2 - 52)

/-- A whole number as far as a double keeps it. -/
def roundNat (n : Nat) : Nat := roundDiv n (unit n) * unit n

def roundInt (n : Int) : Int := n.sign * roundNat n.natAbs

theorem unit_pos (n : Nat) : 0 < unit n := Nat.two_pow_pos _

theorem two_pow_mul_unit {n : Nat} (h : 52 ≤ n.log2) : 2 ^ 52 * unit n = 2 ^ n.log2 := by
  rw [unit, ← Nat.pow_add, Nat.add_sub_cancel' h]

/-- A number with zeros behind the first 53 binary digits is kept as it is. -/
theorem roundNat_of_lt {m : Nat} (h : m < 2 ^ 53) (s : Nat) : roundNat (m * 2 ^ s) = m * 2 ^ s := by
  rcases Nat.eq_zero_or_pos m with rfl | hm
  · rw [Nat.zero_mul]
    decide
  · have hlog : m.log2 ≤ 52 := by
      have := (Nat.log2_lt hm.ne').2 h
      omega
    have hle : (m * 2 ^ s).log2 - 52 ≤ s := by
      rw [log2_mul_two_pow hm]
      omega
    obtain ⟨t, ht⟩ := Nat.exists_eq_add_of_le hle
    have hunit : m * 2 ^ s = m * 2 ^ t * unit (m * 2 ^ s) := by
      rw [unit, Nat.mul_assoc, ← Nat.pow_add, Nat.add_comm t, ← ht]
    conv_lhs => rw [roundNat]
    conv_lhs => enter [1, 1]; rw [hunit]
    rw [roundDiv_mul_self _ (unit_pos _), ← hunit]

theorem roundNat_eq_self {n : Nat} (h : n < 2 ^ 53) : roundNat n = n := by
  simpa using roundNat_of_lt h 0

/-- No double is nearer to a whole number. -/
theorem roundNat_nearest (n t : Nat) {k : Nat} (hk : k < 2 ^ 53) :
    ((n : Int) - roundNat n).natAbs ≤ ((n : Int) - (k * 2 ^ t : Nat)).natAbs := by
  rcases Nat.lt_or_ge t (n.log2 - 52) with ht | ht
  · -- What has smaller digits than the unit is below the power of two below the number.
    have hn : n ≠ 0 := by
      rintro rfl
      exact absurd ht (by simp)
    have hself := Nat.log2_self_le hn
    have hsmall : k * 2 ^ t ≤ 2 ^ n.log2 := by
      have htwo : 2 ^ 53 * 2 ^ t ≤ 2 ^ n.log2 := by
        rw [← Nat.pow_add]
        exact Nat.pow_le_pow_right (by decide) (by omega)
      exact (Nat.mul_le_mul_right _ hk.le).trans htwo
    have := roundDiv_nearest n (2 ^ 52) (unit_pos n)
    rw [two_pow_mul_unit (by omega)] at this
    rw [roundNat]
    omega
  · obtain ⟨s, rfl⟩ := Nat.exists_eq_add_of_le ht
    rw [Nat.pow_add, Nat.mul_left_comm, Nat.mul_comm, roundNat]
    exact roundDiv_nearest n _ (unit_pos n)

/-- The digits that are kept of a number with more than 53 of them. -/
theorem exists_significand {n : Nat} (h : 52 ≤ n.log2) :
    ∃ m s, IsSignificand m ∧ s ≤ 1 ∧ roundDiv n (unit n) = m * 2 ^ s := by
  have hn : n ≠ 0 := by
    rintro rfl
    exact absurd h (by decide)
  have hlower := Nat.log2_self_le hn
  have hupper : n < 2 ^ (n.log2 + 1) := Nat.lt_log2_self
  have hfilled := two_pow_mul_unit h
  have hquotient : 2 ^ 52 ≤ n / unit n ∧ n / unit n < 2 ^ 53 := by
    refine ⟨(Nat.le_div_iff_mul_le (unit_pos n)).2 (by omega), (Nat.div_lt_iff_lt_mul (unit_pos n)).2 ?_⟩
    rw [Nat.pow_succ] at hupper
    omega
  obtain ⟨hle, hle'⟩ := roundDiv_le n (unit n)
  -- Rounding up may need one digit more, which is zero.
  rcases Nat.lt_or_ge (roundDiv n (unit n)) (2 ^ 53) with hlt | hge
  · exact ⟨_, 0, ⟨by omega, hlt⟩, Nat.zero_le 1, (Nat.mul_one _).symm⟩
  · exact ⟨2 ^ 52, 1, ⟨le_refl _, by decide⟩, le_refl 1, by omega⟩

theorem ofScientific_eq {n : Nat} (hn : n ≠ 0) :
    Float.Model.UnpackedFloat.ofScientific Format.binary64 n 0 =
      roundWithAccuracy Format.binary64 .positive (n * 2 ^ 53) (-53) .exact := by
  have hbits : Format.binary64.exponentBits = 11 := rfl
  have hmantissa : Format.binary64.mantissaBits = 53 := rfl
  have hnotTiny : ¬ (0 : Int) < -((2 ^ 11 : Int) + n.log2) := by omega
  have hmul (m : Nat) (e : Int) (hm : 0 < m) :
      Float.Model.UnpackedFloat.mul Format.binary64 (.finite .positive m e hm)
        (.finite .positive (10 ^ (0 : Int).toNat) 0 (Nat.pow_pos (by decide))) =
      roundWithAccuracy Format.binary64 .positive m e .exact := by
    rw [Float.Model.UnpackedFloat.mul]
    congr 1
    · exact Nat.mul_one m
    · exact Int.add_zero e
  rw [Float.Model.UnpackedFloat.ofScientific, dif_neg hn, hbits, if_neg (by decide),
    if_neg hnotTiny, if_pos (le_refl 0), hmul, Nat.shiftLeft_eq, hmantissa]
  rfl

/-- With 53 zeros behind it, a number is shifted until its first 53 digits are left. -/
theorem shiftToTargetExponent_mul {n : Nat} (h : 52 ≤ n.log2) :
    shiftToTargetExponent Format.binary64 (n * 2 ^ 53) (-53) .exact =
      (ExtendedMantissa.ofMantissaAndAccuracy (n * 2 ^ 53) .exact >>> (n.log2 + 1),
        (n.log2 : Int) - 52) := by
  have hn : 0 < n := by
    rcases Nat.eq_zero_or_pos n with rfl | hn
    · exact absurd h (by decide)
    · exact hn
  have htarget : Format.binary64.targetExponent (totalExponent (n * 2 ^ 53) (-53)) =
      (n.log2 : Int) - 52 := by
    have hmin : Format.binary64.minExponent = -1074 := rfl
    have hbits : (Format.binary64.mantissaBits : Int) = 53 := rfl
    rw [Format.targetExponent, totalExponent, log2_mul_two_pow hn, hmin, hbits]
    omega
  have hshift : ((n.log2 : Int) - 52 - -53).toNat = n.log2 + 1 := by omega
  rw [shiftToTargetExponent, htarget, shiftToExponent, hshift]
  exact congrArg _ (by omega)

theorem roundedMantissa_mul {n : Nat} (h : 52 ≤ n.log2) :
    (ExtendedMantissa.ofMantissaAndAccuracy (n * 2 ^ 53) .exact >>> (n.log2 + 1)).roundedMantissa =
      roundDiv n (unit n) := by
  have hdigits : 2 ^ (n.log2 + 1) = unit n * 2 ^ 53 := by
    have := two_pow_mul_unit h
    rw [Nat.pow_succ]
    omega
  rw [roundedMantissa_shiftRight, hdigits, roundDiv_mul_right _ _ (Nat.two_pow_pos 53)]

/-- A large number that is given by its digits is rounded as a whole number is. -/
theorem exists_ofScientific {n : Nat} (hlower : 52 ≤ n.log2) (hupper : n.log2 ≤ 1022) :
    ∃ m e, ∃ h : IsSignificand m, -1074 ≤ e ∧ e ≤ 971 ∧
      Float.Model.UnpackedFloat.ofScientific Format.binary64 n 0 = .finite .positive m e h.pos ∧
      (m : ℚ) * 2 ^ e = roundNat n := by
  have hn : n ≠ 0 := by
    rintro rfl
    exact absurd hlower (by decide)
  obtain ⟨m, s, h, hs, hkept⟩ := exists_significand hlower
  refine ⟨m, (n.log2 : Int) - 52 + s, h, by omega, by omega, ?_, ?_⟩
  · have hagain := h.shiftToTargetExponent_eq s (e := (n.log2 : Int) - 52 + s) (by omega)
    rw [Int.add_sub_cancel] at hagain
    rw [ofScientific_eq hn, roundWithAccuracy, shiftToTargetExponent_mul hlower]
    dsimp only
    rw [roundedMantissa_mul hlower, hkept, hagain]
    exact dif_neg h.pos.ne'
  · have hunit : ((n.log2 : Int) - 52 + s) = ((s + (n.log2 - 52) : Nat) : Int) := by omega
    rw [roundNat, hkept, hunit, zpow_natCast, unit, Nat.mul_assoc, ← Nat.pow_add]
    norm_cast

/-- The double of a positive whole number is the number as far as 53 binary digits go. -/
theorem exists_ofNat {n : Nat} (hn : n ≠ 0) (h : n.log2 ≤ 1022) :
    ∃ m e, ∃ hm : IsSignificand m, -1074 ≤ e ∧ e ≤ 971 ∧
      Float.ofNat n = .ofModel (Float.Model.pack (.finite .positive m e hm.pos)) ∧
      (m : ℚ) * 2 ^ e = roundNat n := by
  rcases Nat.lt_or_ge n (2 ^ 53) with hlt | hge
  · obtain ⟨z, hz, hm⟩ := exists_isSignificand (Nat.pos_of_ne_zero hn) hlt
    refine ⟨n * 2 ^ z, -z, hm, by omega, by omega, ofScientific_of_isSignificand hm hz, ?_⟩
    rw [roundNat_eq_self hlt, zpow_neg, zpow_natCast, Nat.cast_mul, Nat.cast_pow, Nat.cast_ofNat,
      mul_inv_cancel_right₀ (by positivity)]
  · have hlog : 52 ≤ n.log2 := (Nat.le_log2 hn).2 (by omega)
    obtain ⟨m, e, hm, he, he', hread, hvalue⟩ := exists_ofScientific hlog h
    refine ⟨m, e, hm, he, he', ?_, hvalue⟩
    have hslow : Float.ofNat n = .ofModel (Float.Model.ofScientific n 0) := by
      change Float.ofScientific n false 0 = _
      rw [Float.ofScientific, dif_neg (by omega)]
      rfl
    rw [hslow, Float.Model.ofScientific, hread]

theorem roundInt_natCast (n : Nat) : roundInt n = roundNat n := by
  rcases Nat.eq_zero_or_pos n with rfl | hn
  · decide
  · rw [roundInt, Int.sign_natCast_of_ne_zero hn.ne', Int.one_mul, Int.natAbs_natCast]

theorem roundInt_neg (n : Int) : roundInt (-n) = -roundInt n := by
  rw [roundInt, Int.sign_neg, Int.natAbs_neg, Int.neg_mul, ← roundInt]

/-- The double of an integer is the integer as far as 53 binary digits go. -/
theorem exists_ofInt {n : Int} (h : n.natAbs < 2 ^ 64) :
    ∃ b, Binary64.ofFloat? (Float.ofInt n) = some b ∧ b.toRat = roundInt n := by
  have hlog {k : Nat} (hk : k ≠ 0) (hlt : k < 2 ^ 64) : k.log2 ≤ 1022 := by
    have := (Nat.log2_lt hk).2 hlt
    omega
  cases n with
  | ofNat n =>
    rcases Nat.eq_zero_or_pos n with rfl | hn
    · exact ⟨_, Binary64.ofFloat?_zero, by decide +kernel⟩
    · obtain ⟨m, e, hm, he, he', hfloat, hvalue⟩ := exists_ofNat hn.ne' (hlog hn.ne' h)
      refine ⟨⟨false, m, e⟩, ?_, ?_⟩
      · rw [Float.ofInt, hfloat, Binary64.ofFloat?, Float.toBits, hm.ofBits?_eq .positive he he']
        rfl
      · change (m : ℚ) * 2 ^ e = roundInt n
        rw [roundInt_natCast, hvalue, Int.cast_natCast]
  | negSucc n =>
    obtain ⟨m, e, hm, he, he', hfloat, hvalue⟩ := exists_ofNat (Nat.succ_ne_zero n)
      (hlog (Nat.succ_ne_zero n) h)
    refine ⟨⟨true, m, e⟩, ?_, ?_⟩
    · have hneg : (Float.ofNat n.succ).neg =
          .ofModel (Float.Model.pack (.finite .negative m e hm.pos)) := by
        rw [hfloat]
        change Float.ofModel (Float.Model.pack
          (Float.Model.pack (.finite .positive m e hm.pos)).unpack.neg) = _
        rw [hm.unpack_pack .positive he he']
        rfl
      rw [Float.ofInt, hneg, Binary64.ofFloat?, Float.toBits, hm.ofBits?_eq .negative he he']
      rfl
    · change -(m : ℚ) * 2 ^ e = roundInt (-((n.succ : Nat) : Int))
      rw [roundInt_neg, roundInt_natCast, neg_mul, hvalue, Int.cast_neg, Int.cast_natCast]

/-- The value of a double is kept. -/
theorem roundInt_of_toRat {b : Binary64} (hb : b.IsCanonical) {n : Int} (h : b.toRat = n) :
    roundInt n = n := by
  have hlt := hb.mantissa_lt
  have hkept {k : Nat} (hk : roundNat k = k) (s : Bool)
      (hn : (if s then -(k : Int) else k) = n) : roundInt n = n := by
    rw [← hn]
    cases s with
    | false => exact (roundInt_natCast k).trans (congrArg _ hk)
    | true => exact (roundInt_neg k).trans (congrArg _ ((roundInt_natCast k).trans (congrArg _ hk)))
  have hint := Binary64.toInt?_eq_some_iff.2 h
  obtain ⟨s, m, e⟩ := b
  cases e with
  | ofNat e => exact hkept (roundNat_of_lt hlt e) s (Option.some.inj hint)
  | negSucc e =>
    have hquotient := roundNat_eq_self ((Nat.div_le_self m (2 ^ (e + 1))).trans_lt hlt)
    change (if m % 2 ^ (e + 1) = 0 then _ else none) = _ at hint
    split at hint
    · exact hkept hquotient s (Option.some.inj hint)
    · cases hint

end Number

end FormSchema
