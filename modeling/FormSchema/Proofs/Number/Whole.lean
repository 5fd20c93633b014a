import FormSchema.Expr.Coercion
import FormSchema.Proofs.Number.Value
import FormSchema.Proofs.Pointer.Text

/-!
Whole numbers read from their digits.  Up to `2 ^ 53` a whole number is a significand of 53 binary
digits times a power of two, so that nothing of it is rounded away: the double that is read from its
digits has its value, and counts as that integer.
-/

namespace FormSchema

open Float.Model (Format totalExponent)
open Float.Model.UnpackedFloat (ExtendedMantissa roundWithAccuracy shiftToTargetExponent
  shiftToExponent pack unpack packComponents)

theorem log2_mul_two_pow {n : Nat} (hn : 0 < n) (s : Nat) : (n * 2 ^ s).log2 = n.log2 + s := by
  have hpos : n * 2 ^ s ≠ 0 := (Nat.mul_pos hn (Nat.two_pow_pos s)).ne'
  refine (Nat.log2_eq_iff hpos).2 ⟨?_, ?_⟩
  · rw [Nat.pow_add]
    exact Nat.mul_le_mul_right _ (Nat.log2_self_le hn.ne')
  · rw [Nat.add_right_comm, Nat.pow_add]
    exact Nat.mul_lt_mul_of_pos_right Nat.lt_log2_self (Nat.two_pow_pos s)

/-- Whether a number is the significand of a normal double. -/
def IsSignificand (m : Nat) : Prop := 2 ^ 52 ≤ m ∧ m < 2 ^ 53

namespace IsSignificand

variable {m : Nat} {e : Int} (h : IsSignificand m)

include h

theorem pos : 0 < m := Nat.lt_of_lt_of_le (by decide) h.1

theorem log2_eq : m.log2 = 52 := (Nat.log2_eq_iff h.pos.ne').2 h

theorem targetExponent_eq (s : Nat) (he : -1074 ≤ e) :
    Format.binary64.targetExponent (totalExponent (m * 2 ^ s) (e - s)) = e := by
  have hmin : Format.binary64.minExponent = -1074 := rfl
  have hbits : (Format.binary64.mantissaBits : Int) = 53 := rfl
  rw [Format.targetExponent, totalExponent, log2_mul_two_pow h.pos, h.log2_eq, hmin, hbits]
  omega

end IsSignificand

theorem toNat_append_eq {v w : Nat} (x : BitVec v) (y : BitVec w) :
    (x ++ y).toNat = x.toNat * 2 ^ w + y.toNat := by
  rw [BitVec.toNat_append, ← Nat.shiftLeft_add_eq_or_of_lt y.isLt, Nat.shiftLeft_eq]

/-- Zeros that are shifted out do not count. -/
theorem shiftRight_mul_two_pow (m s : Nat) :
    ExtendedMantissa.ofMantissaAndAccuracy (m * 2 ^ s) .exact >>> s =
      ExtendedMantissa.ofMantissaAndAccuracy m .exact := by
  induction s generalizing m with
  | zero => rw [Nat.pow_zero, Nat.mul_one]; rfl
  | succ s ih =>
    have hstep : ExtendedMantissa.ofMantissaAndAccuracy (m * 2 ^ (s + 1)) .exact >>> (s + 1) =
        (ExtendedMantissa.ofMantissaAndAccuracy (m * 2 ^ (s + 1)) .exact >>> s).shiftRightOne := rfl
    rw [hstep, Nat.pow_succ', ← Nat.mul_assoc, ih, ExtendedMantissa.shiftRightOne]
    simp [ExtendedMantissa.ofMantissaAndAccuracy]

namespace IsSignificand

variable {m : Nat} {e : Int} (h : IsSignificand m)

include h

theorem shiftToTargetExponent_eq (s : Nat) (he : -1074 ≤ e) :
    shiftToTargetExponent Format.binary64 (m * 2 ^ s) (e - s) .exact =
      (ExtendedMantissa.ofMantissaAndAccuracy m .exact, e) := by
  have hshift : (e - (e - s)).toNat = s := by omega
  rw [shiftToTargetExponent, h.targetExponent_eq s he, shiftToExponent, hshift,
    shiftRight_mul_two_pow]
  exact congrArg _ (by omega)

/-- A significand with zeros behind it is not rounded. -/
theorem roundWithAccuracy_eq (sign : Float.Model.UnpackedFloat.Sign) (s : Nat) (he : -1074 ≤ e) :
    roundWithAccuracy Format.binary64 sign (m * 2 ^ s) (e - s) .exact =
      .finite sign m e h.pos := by
  have hagain := h.shiftToTargetExponent_eq 0 he
  rw [Nat.pow_zero, Nat.mul_one, Nat.cast_zero, Int.sub_zero] at hagain
  have hrounded : (ExtendedMantissa.ofMantissaAndAccuracy m .exact).roundedMantissa = m := rfl
  rw [roundWithAccuracy, h.shiftToTargetExponent_eq s he]
  dsimp only
  rw [hrounded, hagain]
  exact dif_neg h.pos.ne'

/-- A normal double by its fields: the sign, the exponent and what follows the first digit. -/
theorem pack_eq (sign : Float.Model.UnpackedFloat.Sign) (he : -1074 ≤ e) (he' : e ≤ 971) :
    pack Format.binary64 (.finite sign m e h.pos) =
      packComponents Format.binary64 sign (BitVec.ofNat 11 (e + 1075).toNat)
        (BitVec.ofNat 52 m) := by
  have hbiased : (e + Format.binary64.exponentBias + Format.binary64.mantissaBitsWithoutImplicit).toNat =
      (e + 1075).toNat := by
    change (e + 1023 + 52).toNat = _
    omega
  have hfinite : ¬ 2 ^ Format.binary64.exponentBits ≤ (e + 1075).toNat + 1 := by
    change ¬ 2048 ≤ _
    omega
  rw [pack, hbiased, if_neg hfinite, h.log2_eq]
  exact if_pos rfl

theorem unpack_pack (sign : Float.Model.UnpackedFloat.Sign) (he : -1074 ≤ e) (he' : e ≤ 971) :
    (Float.Model.pack (.finite sign m e h.pos)).unpack = .finite sign m e h.pos := by
  have hexponent : (BitVec.ofNat 11 (e + 1075).toNat).toNat = (e + 1075).toNat := by
    rw [BitVec.toNat_ofNat]
    omega
  have hspecial : BitVec.ofNat 11 (e + 1075).toNat ≠ -1#11 := fun heq => by
    have := congrArg BitVec.toNat heq
    rw [hexponent, show (-1#11).toNat = 2047 from rfl] at this
    omega
  have hzero : BitVec.ofNat 11 (e + 1075).toNat ≠ 0#11 := fun heq => by
    have := congrArg BitVec.toNat heq
    rw [hexponent, show (0#11).toNat = 0 from rfl] at this
    omega
  have hmantissa : (1#1 ++ BitVec.ofNat 52 m).toNat = m := by
    have := h.1
    have := h.2
    rw [toNat_append_eq, BitVec.toNat_ofNat, BitVec.toNat_ofNat]
    omega
  have hvalue : ((e + 1075).toNat : Int) - (Format.binary64.exponentBias + 52) = e := by
    change ((e + 1075).toNat : Int) - (1023 + 52) = e
    omega
  change unpack Format.binary64 (pack Format.binary64 _) = _
  rw [h.pack_eq sign he he', unpack]
  simp only [Float.Model.UnpackedFloat.unpackMantissa_packComponents,
    Float.Model.UnpackedFloat.unpackExponent_packComponents,
    Float.Model.UnpackedFloat.unpackSign_packComponents]
  rw [if_neg hspecial, if_neg hzero, Float.Model.UnpackedFloat.finite.injEq]
  exact ⟨Float.Model.UnpackedFloat.Sign.ofBitVec_toBitVec sign, hmantissa, by rw [hexponent]; exact hvalue⟩

theorem mul_one (he : -1022 ≤ e) (he' : e ≤ 971) :
    (Float.Model.pack (.finite .positive m e h.pos)).mul (Float.ofBits 4607182418800017408).toModel =
      Float.Model.pack (.finite .positive m e h.pos) := by
  have hone : (Float.ofBits 4607182418800017408).toModel.unpack =
      .finite .positive (2 ^ 52) (-52) (by decide) := rfl
  rw [Float.Model.mul, h.unpack_pack .positive (by omega) he', hone]
  exact congrArg Float.Model.pack (h.roundWithAccuracy_eq .positive 52 (by omega))

/-- The bit pattern of a normal double. -/
theorem toNat_toBits (sign : Float.Model.UnpackedFloat.Sign) (he : -1074 ≤ e) (he' : e ≤ 971) :
    (Float.Model.pack (.finite sign m e h.pos)).toBits.toNat =
      sign.toBitVec.toNat * 2 ^ 63 + ((e + 1075).toNat * 2 ^ 52 + (m - 2 ^ 52)) := by
  have := h.1
  have := h.2
  have hfields : (sign.toBitVec ++ BitVec.ofNat 11 (e + 1075).toNat ++ BitVec.ofNat 52 m).toNat =
      sign.toBitVec.toNat * 2 ^ 63 + ((e + 1075).toNat * 2 ^ 52 + (m - 2 ^ 52)) := by
    rw [toNat_append_eq, toNat_append_eq, BitVec.toNat_ofNat, BitVec.toNat_ofNat]
    omega
  change (pack Format.binary64 _).toNat = _
  rw [h.pack_eq sign he he']
  exact hfields

theorem ofBits?_eq (sign : Float.Model.UnpackedFloat.Sign) (he : -1074 ≤ e) (he' : e ≤ 971) :
    Binary64.ofBits? (Float.Model.pack (.finite sign m e h.pos)).toBits =
      some ⟨sign == .negative, m, e⟩ := by
  have hm := h.1
  have hm' := h.2
  unfold Binary64.ofBits?
  dsimp only [Nat.pow_eq]
  rw [h.toNat_toBits sign he he']
  have hsign : (sign.toBitVec.toNat * 2 ^ 63 + ((e + 1075).toNat * 2 ^ 52 + (m - 2 ^ 52))) / 2 ^ 63 =
      sign.toBitVec.toNat := by omega
  have hexponent : (sign.toBitVec.toNat * 2 ^ 63 + ((e + 1075).toNat * 2 ^ 52 + (m - 2 ^ 52))) /
      2 ^ 52 % 2 ^ 11 = (e + 1075).toNat := by omega
  have hfraction : (sign.toBitVec.toNat * 2 ^ 63 + ((e + 1075).toNat * 2 ^ 52 + (m - 2 ^ 52))) %
      2 ^ 52 = m - 2 ^ 52 := by omega
  have hnegative : (sign.toBitVec.toNat == 1) = (sign == .negative) := by cases sign <;> rfl
  rw [hsign, hexponent, hfraction, hnegative, if_neg (by omega), if_neg (by omega)]
  have hmantissa : 2 ^ 52 + (m - 2 ^ 52) = m := by omega
  have hvalue : ((e + 1075).toNat : Int) - 1075 = e := by omega
  rw [hmantissa, hvalue]

end IsSignificand

section Filled

variable {n z : Nat} (h : IsSignificand (n * 2 ^ z)) (hz : z ≤ 52)

include h hz

theorem ofNat_eq_of_isSignificand :
    Float.Model.UnpackedFloat.ofNat Format.binary64 n = .finite .positive (n * 2 ^ z) (-z) h.pos := by
  have hn : 0 < n := Nat.pos_of_mul_pos_right h.pos
  have hcompare : compare (n : Int) 0 = .gt := Int.compare_eq_gt.2 (by omega)
  have hlog2 : n.log2 + z = 52 := by
    rw [← log2_mul_two_pow hn, h.log2_eq]
  have htarget : Format.binary64.targetExponent (totalExponent n 0) = -z := by
    have hmin : Format.binary64.minExponent = -1074 := rfl
    have hbits : (Format.binary64.mantissaBits : Int) = 53 := rfl
    rw [Format.targetExponent, totalExponent, hmin, hbits]
    omega
  have hshift : ((0 : Int) - -z).toNat = z := by omega
  rw [Float.Model.UnpackedFloat.ofNat, Float.Model.UnpackedFloat.ofInt,
    Float.Model.UnpackedFloat.normalize, hcompare]
  dsimp only
  rw [Int.toNat_natCast, Float.Model.UnpackedFloat.round, htarget,
    Float.Model.UnpackedFloat.decreaseExponent]
  dsimp only
  rw [hshift, Nat.shiftLeft_eq, Int.zero_sub]
  have hround := h.roundWithAccuracy_eq .positive 0 (e := -z) (by omega)
  rwa [Nat.pow_zero, Nat.mul_one, Nat.cast_zero, Int.sub_zero] at hround

theorem toInt?_of_isSignificand : Binary64.toInt? ⟨false, n * 2 ^ z, -z⟩ = some (n : Int) := by
  cases z with
  | zero => simp [Binary64.toInt?]
  | succ z =>
    have hdvd : n * 2 ^ (z + 1) % 2 ^ (z + 1) = 0 := Nat.mul_mod_left _ _
    have hdiv : n * 2 ^ (z + 1) / 2 ^ (z + 1) = n := Nat.mul_div_left _ (Nat.two_pow_pos _)
    change (if n * 2 ^ (z + 1) % 2 ^ (z + 1) = 0 then _ else none) = _
    rw [if_pos hdvd]
    exact congrArg (fun k : Nat => some (k : Int)) hdiv

theorem ofScientific_of_isSignificand :
    Float.ofScientific n false 0 =
      .ofModel (Float.Model.pack (.finite .positive (n * 2 ^ z) (-z) h.pos)) := by
  have hn : n < 2 ^ 53 := Nat.lt_of_le_of_lt (Nat.le_mul_of_pos_right n (Nat.two_pow_pos z)) h.2
  have hword : n.toUInt64.toNat = n := Nat.mod_eq_of_lt (by omega)
  have hfloat : n.toUInt64.toFloat =
      .ofModel (Float.Model.pack (.finite .positive (n * 2 ^ z) (-z) h.pos)) := by
    rw [UInt64.toFloat, Float.Model.ofUInt64, Float.Model.UnpackedFloat.ofUInt64, hword,
      ofNat_eq_of_isSignificand h hz]
  have hscale : Float.ofScientific n false 0 =
      n.toUInt64.toFloat * Float.ofBits 4607182418800017408 := by
    rw [Float.ofScientific, dif_pos ⟨hn, by decide⟩]
    rfl
  rw [hscale, hfloat]
  exact congrArg Float.ofModel (h.mul_one (by omega) (by omega))

theorem wholeOfFloat?_of_isSignificand :
    Number.wholeOfFloat? (Float.ofScientific n false 0) = some (n : Int) := by
  rw [Number.wholeOfFloat?, ofScientific_of_isSignificand h hz, Binary64.ofFloat?, Float.toBits,
    h.ofBits?_eq .positive (by omega) (by omega)]
  exact toInt?_of_isSignificand h hz

end Filled

/-- Some zeros fill a whole number of at most 53 binary digits up to a significand. -/
theorem exists_isSignificand {n : Nat} (hn : 0 < n) (h : n < 2 ^ 53) :
    ∃ z ≤ 52, IsSignificand (n * 2 ^ z) := by
  have hlower := Nat.log2_self_le hn.ne'
  have hupper : n < 2 ^ (n.log2 + 1) := Nat.lt_log2_self
  have hlog2 : n.log2 ≤ 52 := by
    have := (Nat.log2_lt hn.ne').2 h
    omega
  obtain ⟨z, hz⟩ := Nat.exists_eq_add_of_le hlog2
  refine ⟨z, by omega, ?_, ?_⟩
  · rw [hz, Nat.pow_add]
    exact Nat.mul_le_mul_right _ hlower
  · rw [show 53 = n.log2 + 1 + z by omega, Nat.pow_add]
    exact Nat.mul_lt_mul_of_pos_right hupper (Nat.two_pow_pos z)

namespace Number

/-- The double of a whole number up to `2 ^ 53` has its value. -/
theorem wholeOfFloat?_ofScientific {n : Nat} (h : n ≤ 2 ^ 53) :
    wholeOfFloat? (Float.ofScientific n false 0) = some (n : Int) := by
  rcases Nat.lt_or_eq_of_le h with h | rfl
  · rcases Nat.eq_zero_or_pos n with rfl | hn
    · decide +kernel
    · obtain ⟨z, hz, hfilled⟩ := exists_isSignificand hn h
      exact wholeOfFloat?_of_isSignificand hfilled hz
  · decide +kernel

theorem digitsValue_dropWhile_zero (digits : List Char) :
    digitsValue (digits.dropWhile (· == '0')) = digitsValue digits := by
  induction digits with
  | nil => rfl
  | cons c digits ih =>
    rw [List.dropWhile_cons]
    split
    · rename_i hc
      obtain rfl := beq_iff_eq.1 hc
      exact ih
    · rfl

theorem nearestDecimal_zero {digits : List Char} (h : digits.length ≤ 400) :
    nearestDecimal digits 0 =
      if digitsValue digits = 0 then 0.0 else Float.ofScientific (digitsValue digits) false 0 := by
  have hlarge : ¬ (400 < (digits.length : Int) + 0 ∧ digits.head? ≠ some '0') := by omega
  have hsmall : ¬ (digits.length : Int) + 0 < -400 := by omega
  unfold nearestDecimal
  dsimp only
  rw [if_neg hlarge, if_neg hsmall, if_pos (le_refl 0)]
  rfl

theorem toLower_eq_self {c : Char} (h : Text.isPlainDigit c = true) : c.toLower = c := by
  rw [Text.isPlainDigit, Bool.and_eq_true, decide_eq_true_iff, decide_eq_true_iff] at h
  have hupper : ¬ (c.val ≥ 'A'.val ∧ c.val ≤ 'Z'.val) := fun hc => by
    have := UInt32.le_trans hc.1 (Char.le_def.1 h.2)
    revert this
    decide
  exact dif_neg hupper

/-- A run of digits is read as a whole number. -/
theorem decimal?_digits {c : Char} {digits : List Char}
    (h : ∀ d ∈ c :: digits, Text.isPlainDigit d = true) :
    decimal? (c :: digits) =
      some (nearestDecimal ((c :: digits).dropWhile (· == '0')) 0) := by
  have hc := h c List.mem_cons_self
  have hname (name : List Char) (hname : ∃ d ∈ name.head?, Text.isPlainDigit d = false) :
      ((c :: digits).map Char.toLower == name) = false := by
    obtain ⟨d, hd, hdigit⟩ := hname
    refine beq_eq_false_iff_ne.2 fun heq => ?_
    rw [← heq, List.map_cons, toLower_eq_self hc] at hd
    obtain rfl := Option.some.inj hd
    rw [hc] at hdigit
    cases hdigit
  have htake : (c :: digits).takeWhile Text.isPlainDigit = c :: digits :=
    List.takeWhile_eq_self_iff.2 h
  have hdrop : (c :: digits).dropWhile Text.isPlainDigit = [] := List.dropWhile_eq_nil_iff.2 h
  have hminus : c ≠ '-' := by
    rintro rfl
    revert hc
    decide
  have hplus : c ≠ '+' := by
    rintro rfl
    revert hc
    decide
  have hmagnitude : decimal? (c :: digits) = magnitude? (c :: digits) := by
    unfold decimal?
    split
    · rename_i heq
      exact absurd (List.cons.inj heq).1 hminus
    · rename_i heq
      exact absurd (List.cons.inj heq).1 hplus
    · rfl
  rw [hmagnitude, magnitude?]
  dsimp only
  rw [hname "inf".toList ⟨'i', rfl, rfl⟩, hname "infinity".toList ⟨'i', rfl, rfl⟩,
    hname "nan".toList ⟨'n', rfl, rfl⟩, htake, hdrop]
  simp

/-- A whole number up to `2 ^ 53` is read from its digits as the double with its value. -/
theorem exists_decimal?_repr {n : Nat} (h : n ≤ 2 ^ 53) :
    ∃ x, decimal? n.repr.toList = some x ∧ wholeOfFloat? x = some (n : Int) := by
  obtain ⟨c, digits, hrepr, -⟩ := exists_digit_of_repr n
  have hdigits : ∀ d ∈ c :: digits, Text.isPlainDigit d = true :=
    fun d hd => isPlainDigit_of_mem_repr (hrepr ▸ hd)
  have hlength : n.repr.toList.length ≤ 17 := by
    rw [Nat.toList_repr]
    exact Nat.toDigits_length 10 n 17 (by decide) (by omega)
  refine ⟨_, by rw [hrepr, decimal?_digits hdigits], ?_⟩
  rw [← hrepr, nearestDecimal_zero ((List.length_dropWhile_le _ _).trans (by omega)),
    digitsValue_dropWhile_zero, digitsValue_repr]
  split
  · rename_i hn
    rw [hn]
    decide +kernel
  · exact wholeOfFloat?_ofScientific h

end Number

/-- A double with the value of a whole number counts as that integer. -/
theorem Json.ofFloat_of_wholeOfFloat? {x : Float} {n : Nat} (h : n ≤ 2 ^ 53)
    (hx : Number.wholeOfFloat? x = some (n : Int)) : Json.ofFloat x = .num (.int n) := by
  obtain ⟨b, hb, hn⟩ := Option.bind_eq_some_iff.1 hx
  have hbound : intBound = 2 ^ 63 := rfl
  have hrange : -intBound ≤ (n : Int) ∧ (n : Int) ≤ intBound := by omega
  rw [ofFloat, hb]
  dsimp only
  rw [hn]
  dsimp only
  rw [if_pos hrange, min_eq_left (by omega)]

end FormSchema
