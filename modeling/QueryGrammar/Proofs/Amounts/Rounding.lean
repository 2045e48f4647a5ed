import Mathlib.Algebra.Order.Field.Power
import Mathlib.Algebra.Order.Field.Rat
import Mathlib.Tactic.Linarith
import Mathlib.Tactic.Ring
import QueryGrammar.Proofs.Amounts

namespace QueryGrammar

/-! How sums are rounded and stored.

Main statement: sums of numbers that are not negative are not negative, and where the exact sum is
not above a power of two, the rounded one is not above it either.
-/

open Float.Model hiding pack unpack
open UnpackedFloat

/-- A number that is not negative, possibly infinite. -/
inductive Unsigned : UnpackedFloat → Prop
  | infinite : Unsigned (.infinity .positive)
  | zero (sign : Sign) : Unsigned (.zero sign)
  | finite {mantissa : ℕ} {exponent : ℤ} (positive : 0 < mantissa) :
      Unsigned (.finite .positive mantissa exponent positive)

/-- What a finite number is worth, exactly. -/
def worth? : UnpackedFloat → Option ℚ
  | .zero _ => some 0
  | .finite sign mantissa exponent _ => some (sign.apply mantissa * 2 ^ exponent)
  | _ => none

/-- A number from zero to a power of two, with an exponent that can be stored. -/
inductive Fits (power : ℤ) : UnpackedFloat → Prop
  | zero (sign : Sign) : Fits power (.zero sign)
  | finite {mantissa : ℕ} {exponent : ℤ} (positive : 0 < mantissa) :
      (mantissa : ℚ) * 2 ^ exponent ≤ 2 ^ power → -1074 ≤ exponent → exponent ≤ 971 →
      Fits power (.finite .positive mantissa exponent positive)

/-- The one mantissa and exponent that a number is stored by, however high its exponent is. -/
structure Canonical (mantissa : ℕ) (exponent : ℤ) : Prop where
  short : mantissa < 2 ^ 53
  least : -1074 ≤ exponent
  full : exponent = -1074 ∨ 2 ^ 52 ≤ mantissa

section

variable {number : UnpackedFloat} {power : ℤ}

theorem unsigned_iff : Unsigned number ↔ (UnpackedFloat.zero .positive).le number = true := by
  constructor
  · rintro (_ | _ | _) <;> rfl
  · intro above
    rcases number with (_ | _) | _ | sign | ⟨_ | _, mantissa, exponent, positive⟩
    · cases above
    · exact .infinite
    · cases above
    · exact .zero _
    · cases above
    · exact .finite _

theorem Unsigned.isNaN (unsigned : Unsigned number) : number.isNaN = false := by
  cases unsigned <;> rfl

theorem Fits.unsigned (fits : Fits power number) : Unsigned number := by
  cases fits with
  | zero => exact .zero _
  | finite => exact .finite _

theorem Fits.isFinite (fits : Fits power number) : number.isFinite = true := by
  cases fits <;> rfl

theorem Fits.exists_worth (fits : Fits power number) :
    ∃ value, worth? number = some value ∧ 0 ≤ value ∧ value ≤ 2 ^ power := by
  cases fits with
  | zero => exact ⟨0, rfl, le_rfl, by positivity⟩
  | finite positive below =>
      refine ⟨_, rfl, ?_, ?_⟩
      · simp only [Sign.apply]
        positivity
      · simpa only [Sign.apply, Int.cast_natCast] using below

end

/-! Rounding. -/

section

variable {mantissa count : ℕ} {exponent target power : ℤ}

/-- What has been shifted out of a mantissa is not negative, and it is remembered if it was not
nothing. -/
structure Shifted (mantissa count : ℕ) (extended : ExtendedMantissa) : Prop where
  below : extended.mantissa * 2 ^ count ≤ mantissa
  dropped : (extended.roundBit || extended.stickyBit) = true →
    extended.mantissa * 2 ^ count < mantissa

theorem Shifted.shiftRightOne {extended : ExtendedMantissa}
    (shifted : Shifted mantissa count extended) :
    Shifted mantissa (count + 1) extended.shiftRightOne := by
  obtain ⟨below, dropped⟩ := shifted
  have halves : extended.mantissa / 2 * 2 ^ (count + 1) + extended.mantissa % 2 * 2 ^ count =
      extended.mantissa * 2 ^ count := by
    rw [pow_succ, mul_comm (2 ^ count) 2, ← mul_assoc, ← add_mul, mul_comm _ 2, Nat.div_add_mod]
  refine ⟨by simp only [ExtendedMantissa.shiftRightOne]; omega, fun lost => ?_⟩
  simp only [ExtendedMantissa.shiftRightOne, Bool.or_eq_true, bne_iff_ne] at lost dropped ⊢
  rcases lost with odd | earlier
  · have half : 0 < extended.mantissa % 2 * 2 ^ count := by positivity
    omega
  · have := dropped earlier
    omega

theorem shifted_shiftRight (mantissa count : ℕ) :
    Shifted mantissa count (ExtendedMantissa.ofMantissaAndAccuracy mantissa .exact >>> count) := by
  change Shifted mantissa count (count.repeat ExtendedMantissa.shiftRightOne _)
  induction count with
  | zero => exact ⟨by simp [Nat.repeat, ExtendedMantissa.ofMantissaAndAccuracy],
      by simp [Nat.repeat, ExtendedMantissa.ofMantissaAndAccuracy]⟩
  | succ count ih => exact ih.shiftRightOne

/-- Rounding goes up to the next multiple at most. -/
theorem Shifted.roundedMantissa_le {extended : ExtendedMantissa} {bound : ℕ}
    (shifted : Shifted mantissa count extended) (within : mantissa ≤ bound * 2 ^ count) :
    extended.roundedMantissa ≤ bound := by
  obtain ⟨below, dropped⟩ := shifted
  have whole : extended.mantissa ≤ bound :=
    Nat.le_of_mul_le_mul_right (below.trans within) (by positivity)
  have part : (extended.roundBit || extended.stickyBit) = true → extended.mantissa < bound :=
    fun lost => Nat.lt_of_mul_lt_mul_right ((dropped lost).trans_le within)
  rcases extended with ⟨kept, _ | _, _ | _⟩
  · exact whole
  · exact whole
  · -- A tie goes to the even one of its neighbours.
    have even : kept + kept % 2 ≤ bound := by
      have := part rfl
      dsimp only at this
      omega
    exact even
  · exact part rfl

theorem le_power_iff (below : exponent ≤ power) :
    (mantissa : ℚ) * 2 ^ exponent ≤ 2 ^ power ↔ mantissa ≤ 2 ^ (power - exponent).toNat := by
  have apart : (2 : ℚ) ^ power = 2 ^ (power - exponent).toNat * 2 ^ exponent := by
    rw [← zpow_natCast, ← zpow_add₀ two_ne_zero, Int.toNat_sub_of_le below, sub_add_cancel]
  rw [apart, mul_le_mul_iff_left₀ (by positivity)]
  exact_mod_cast Iff.rfl

/-- A mantissa is lengthened as its exponent is lowered. -/
theorem shiftLeft_mul (mantissa count : ℕ) (exponent : ℤ) :
    ((mantissa <<< count : ℕ) : ℚ) * 2 ^ (exponent - count) = mantissa * 2 ^ exponent := by
  rw [Nat.shiftLeft_eq, Nat.cast_mul, Nat.cast_pow, Nat.cast_ofNat, mul_assoc, ← zpow_natCast,
    ← zpow_add₀ two_ne_zero, add_sub_cancel]

theorem shiftLeft_pos (positive : 0 < mantissa) (count : ℕ) : 0 < mantissa <<< count := by
  rw [Nat.shiftLeft_eq]
  positivity

theorem totalExponent_le (positive : 0 < mantissa)
    (within : (mantissa : ℚ) * 2 ^ exponent ≤ 2 ^ power) :
    totalExponent mantissa exponent ≤ power + 1 := by
  have lead : ((2 ^ mantissa.log2 : ℕ) : ℚ) ≤ mantissa :=
    Nat.cast_le.2 (Nat.log2_self_le positive.ne')
  have first : (2 : ℚ) ^ (mantissa.log2 + exponent) ≤ 2 ^ power := by
    rw [zpow_add₀ two_ne_zero, zpow_natCast]
    exact (mul_le_mul_of_nonneg_right (by exact_mod_cast lead) (by positivity)).trans within
  have := (zpow_le_zpow_iff_right₀ one_lt_two).1 first
  unfold totalExponent
  omega

theorem targetExponent_le (low : -1022 ≤ power) (positive : 0 < mantissa)
    (within : (mantissa : ℚ) * 2 ^ exponent ≤ 2 ^ power) :
    Format.binary64.targetExponent (totalExponent mantissa exponent) ≤ power - 52 := by
  have := totalExponent_le positive within
  show max (totalExponent mantissa exponent - 53) (-1074) ≤ power - 52
  omega

theorem minExponent_le (total : ℤ) : -1074 ≤ Format.binary64.targetExponent total :=
  le_max_right _ _

/-- A mantissa is shifted to where it takes no more bits than there are. -/
theorem shiftToTargetExponent_spec (low : -1022 ≤ power) (high : exponent ≤ power - 52)
    (positive : 0 < mantissa) (within : (mantissa : ℚ) * 2 ^ exponent ≤ 2 ^ power) :
    ∃ (count : ℕ) (extended : ExtendedMantissa),
      shiftToTargetExponent .binary64 mantissa exponent .exact = (extended, exponent + count) ∧
      Shifted mantissa count extended ∧ exponent + count ≤ power - 52 ∧
      -1074 ≤ exponent + count := by
  have most := targetExponent_le low positive within
  have least := minExponent_le (totalExponent mantissa exponent)
  refine ⟨_, _, rfl, shifted_shiftRight _ _, ?_, ?_⟩ <;> omega

theorem Shifted.within {extended : ExtendedMantissa} (shifted : Shifted mantissa count extended)
    (low : exponent + count ≤ power) (within : (mantissa : ℚ) * 2 ^ exponent ≤ 2 ^ power) :
    (extended.roundedMantissa : ℚ) * 2 ^ (exponent + count) ≤ 2 ^ power := by
  rw [le_power_iff (by omega)] at within
  rw [le_power_iff low]
  refine shifted.roundedMantissa_le (within.trans_eq ?_)
  rw [← pow_add]
  congr 1
  omega

/-- Rounding stays within powers of two. -/
theorem fits_roundWithAccuracy (low : -1022 ≤ power) (last : power ≤ 1023)
    (high : exponent ≤ power - 52) (positive : 0 < mantissa)
    (within : (mantissa : ℚ) * 2 ^ exponent ≤ 2 ^ power) :
    Fits power (roundWithAccuracy .binary64 .positive mantissa exponent .exact) := by
  obtain ⟨count, extended, shift, shifted, ends, begins⟩ :=
    shiftToTargetExponent_spec low high positive within
  have rounded := shifted.within (by omega) within
  clear within high
  unfold roundWithAccuracy
  rw [shift]
  dsimp only
  generalize extended.roundedMantissa = whole at rounded ⊢
  generalize exponent + (count : ℤ) = place at *
  rcases whole.eq_zero_or_pos with rfl | above
  · -- A mantissa of zero stays zero, however it is shifted.
    have none : (shiftToTargetExponent .binary64 0 place .exact).1.mantissa = 0 :=
      Nat.le_zero.1 (Nat.le_of_mul_le_mul_right
        ((shifted_shiftRight 0 _).below.trans (Nat.zero_le _)) (by positivity))
    rw [dif_pos none]
    exact .zero _
  · -- Where rounding has made the mantissa a bit longer, it is shifted once more.
    obtain ⟨more, final, shiftAgain, shiftedAgain, finish, start⟩ :=
      shiftToTargetExponent_spec low ends above rounded
    rw [shiftAgain]
    dsimp only
    by_cases zero : final.mantissa = 0
    · rw [dif_pos zero]
      exact .zero _
    · rw [dif_neg zero]
      refine .finite _ (le_trans ?_ rounded) start (by omega)
      have below : ((final.mantissa * 2 ^ more : ℕ) : ℚ) ≤ whole := Nat.cast_le.2 shiftedAgain.below
      calc (final.mantissa : ℚ) * 2 ^ (place + more)
          = (final.mantissa * 2 ^ more : ℕ) * 2 ^ place := by
            rw [add_comm, zpow_add₀ two_ne_zero, zpow_natCast]
            push_cast
            ring
        _ ≤ whole * 2 ^ place := mul_le_mul_of_nonneg_right below (by positivity)

theorem fits_round (low : -1022 ≤ power) (last : power ≤ 1023) (positive : 0 < mantissa)
    (within : (mantissa : ℚ) * 2 ^ exponent ≤ 2 ^ power) :
    Fits power (UnpackedFloat.round .binary64 .positive mantissa exponent) := by
  have most := targetExponent_le low positive within
  unfold UnpackedFloat.round decreaseExponent
  generalize Format.binary64.targetExponent (totalExponent mantissa exponent) = target at most ⊢
  exact fits_roundWithAccuracy low last (by omega) (shiftLeft_pos positive _)
    ((shiftLeft_mul ..).trans_le within)

end

/-! Packing. -/

section

variable {number other : UnpackedFloat} {power : ℤ}

theorem ofBitVec_unpackSign (sign : Sign) (exponent : BitVec 11) (mantissa : BitVec 52) :
    Sign.ofBitVec (@unpackSign .binary64 (packComponents .binary64 sign exponent mantissa)) =
      sign := by
  have same : @unpackSign .binary64 (packComponents .binary64 sign exponent mantissa) =
      sign.toBitVec := by
    change (sign.toBitVec ++ exponent ++ mantissa).extractLsb' 63 1 = sign.toBitVec
    rw [BitVec.extractLsb'_append_eq_of_le (by decide),
      BitVec.extractLsb'_append_eq_of_le (by decide)]
    cases sign <;> rfl
  rw [same]
  cases sign <;> rfl

theorem toNat_append_implicit (mantissa : BitVec 52) :
    (1#1 ++ mantissa).toNat = 2 ^ 52 + mantissa.toNat := by
  rw [BitVec.toNat_append, ← Nat.shiftLeft_add_eq_or_of_lt mantissa.isLt]
  rfl

/-- What the parts of a stored number stand for. -/
inductive Reads (sign : Sign) (exponent : BitVec 11) (mantissa : BitVec 52) : UnpackedFloat → Prop
  | infinite : exponent.toNat = 2047 → Reads sign exponent mantissa (.infinity sign)
  | undefined : exponent.toNat = 2047 → mantissa ≠ 0#52 → Reads sign exponent mantissa .notANumber
  | zero : exponent.toNat = 0 → mantissa = 0#52 → Reads sign exponent mantissa (.zero sign)
  | small (positive : 0 < mantissa.toNat) : exponent.toNat = 0 →
      Reads sign exponent mantissa (.finite sign mantissa.toNat (-1074) positive)
  | large {whole : ℕ} {place : ℤ} (positive : 0 < whole) : 0 < exponent.toNat →
      exponent.toNat < 2047 → whole = 2 ^ 52 + mantissa.toNat → place = exponent.toNat - 1075 →
      Reads sign exponent mantissa (.finite sign whole place positive)

theorem reads_unpack (bits : BitVec 64) :
    Reads (.ofBitVec (@unpackSign .binary64 bits)) (@unpackExponent .binary64 bits)
      (@unpackMantissa .binary64 bits) (unpack .binary64 bits) := by
  unfold unpack
  dsimp only
  generalize @unpackExponent .binary64 bits = exponent
  generalize Sign.ofBitVec (@unpackSign .binary64 bits) = sign
  by_cases full : exponent = -1#11
  · rw [if_pos full]
    have last : exponent.toNat = 2047 := congrArg BitVec.toNat full
    split
    · exact .infinite last
    · exact .undefined last ‹_›
  · rw [if_neg full]
    by_cases low : exponent = 0#11
    · have first : exponent.toNat = 0 := congrArg BitVec.toNat low
      subst low
      rw [if_pos rfl]
      by_cases nothing : @unpackMantissa .binary64 bits = 0#52
      · rw [dif_pos nothing]
        exact .zero first nothing
      · rw [dif_neg nothing]
        exact .small _ first
    · rw [if_neg low]
      have small : exponent.toNat < 2048 := exponent.isLt
      have notLast : exponent.toNat ≠ 2047 := fun last => full (BitVec.eq_of_toNat_eq last)
      have notFirst : exponent.toNat ≠ 0 := fun first => low (BitVec.eq_of_toNat_eq first)
      have leading := toNat_append_implicit (@unpackMantissa .binary64 bits)
      exact .large _ (by omega) (by omega) leading rfl

theorem reads_packComponents (sign : Sign) (exponent : BitVec 11) (mantissa : BitVec 52) :
    Reads sign exponent mantissa
      (unpack .binary64 (packComponents .binary64 sign exponent mantissa)) := by
  have reads := reads_unpack (packComponents .binary64 sign exponent mantissa)
  rwa [ofBitVec_unpackSign, unpackExponent_packComponents, unpackMantissa_packComponents] at reads

/-- A finite number is stored as an infinite one if its exponent is too high. -/
theorem pack_finite (sign : Sign) {mantissa : ℕ} (exponent : ℤ) (positive : 0 < mantissa) :
    (971 < exponent ∧ pack .binary64 (.finite sign mantissa exponent positive) =
      packedInfinity .binary64 sign) ∨
    ∃ field : BitVec 11, field.toNat < 2047 ∧
      pack .binary64 (.finite sign mantissa exponent positive) =
        packComponents .binary64 sign field (.ofNat 52 mantissa) ∧
      (field.toNat = 0 ∧ mantissa.log2 ≠ 52 ∨
        field.toNat = (exponent + 1075).toNat ∧ mantissa.log2 = 52) := by
  have biased : exponent + (Format.binary64.exponentBias : ℕ) + (52 : ℕ) = exponent + 1075 := by
    rw [add_assoc]
    rfl
  have bits : Format.binary64.mantissaBits = 53 := rfl
  unfold pack
  dsimp only
  rw [biased, bits]
  split
  · rename_i high
    exact .inl ⟨by omega, rfl⟩
  · rename_i inside
    right
    split
    · rename_i full
      have field : (BitVec.ofNat 11 (exponent + 1075).toNat).toNat = (exponent + 1075).toNat := by
        rw [BitVec.toNat_ofNat]
        omega
      exact ⟨_, by omega, rfl, .inr ⟨field, by omega⟩⟩
    · exact ⟨0#11, by decide, rfl, .inl ⟨rfl, by omega⟩⟩

theorem Unsigned.unpack_pack (unsigned : Unsigned number) :
    Unsigned (unpack .binary64 (pack .binary64 number)) := by
  have endless : Unsigned (unpack .binary64 (packedInfinity .binary64 .positive)) := .infinite
  cases unsigned with
  | infinite => exact endless
  | zero sign => cases sign <;> exact .zero _
  | @finite mantissa exponent positive =>
      rcases pack_finite .positive exponent positive with ⟨-, same⟩ | ⟨field, finite, same, -⟩
      · exact same ▸ endless
      · rw [same]
        have reads := reads_packComponents .positive field (.ofNat 52 mantissa)
        generalize unpack .binary64 _ = number at reads ⊢
        cases reads with
        | infinite last | undefined last => omega
        | zero => exact .zero _
        | small | large => exact .finite _

theorem Fits.unpack_pack (fits : Fits power number) :
    Fits power (unpack .binary64 (pack .binary64 number)) := by
  cases fits with
  | zero sign => cases sign <;> exact .zero _
  | @finite mantissa exponent positive within least most =>
      rcases pack_finite .positive exponent positive with ⟨high, -⟩ | ⟨field, finite, same, parts⟩
      · omega
      · rw [same]
        have reads := reads_packComponents .positive field (.ofNat 52 mantissa)
        generalize unpack .binary64 _ = number at reads ⊢
        cases reads with
        | infinite last | undefined last => omega
        | zero => exact .zero _
        | small _ first =>
            refine .finite _ (le_trans ?_ within) le_rfl (by omega)
            have fewer : ((BitVec.ofNat 52 mantissa).toNat : ℚ) ≤ mantissa := by
              rw [BitVec.toNat_ofNat]
              exact_mod_cast Nat.mod_le ..
            exact mul_le_mul fewer (zpow_le_zpow_right₀ one_le_two least) (by positivity)
              (by positivity)
        | large _ first last whole place =>
            obtain ⟨field, full⟩ := parts.resolve_left fun low => first.ne' low.1
            have again : 2 ^ 52 + (BitVec.ofNat 52 mantissa).toNat = mantissa := by
              have bounds := (Nat.log2_eq_iff positive.ne').1 full
              rw [BitVec.toNat_ofNat]
              omega
            obtain rfl := whole.trans again
            obtain rfl : _ = exponent := place.trans (by omega)
            exact .finite _ within least most

/-- What is stored has an exponent that can be stored. -/
theorem Reads.fits {sign : Sign} {exponent : BitVec 11} {mantissa : BitVec 52} {value : ℚ}
    (reads : Reads sign exponent mantissa number) (worth : worth? number = some value)
    (nonnegative : 0 ≤ value) (within : value ≤ 2 ^ power) : Fits power number := by
  have unsigned : ∀ {whole : ℕ} {place : ℤ} (positive : 0 < whole),
      worth? (.finite sign whole place positive) = some value → -1074 ≤ place → place ≤ 971 →
      Fits power (.finite sign whole place positive) := by
    intro whole place positive worth least most
    obtain rfl := Option.some.inj worth
    cases sign with
    | negative =>
        have : 0 < (whole : ℚ) * 2 ^ place := by positivity
        simp only [Sign.apply, Int.cast_neg, Int.cast_natCast, neg_mul] at nonnegative
        linarith
    | positive => exact .finite _ within least most
  cases reads with
  | infinite | undefined => cases worth
  | zero => exact .zero _
  | small positive => exact unsigned positive worth (by omega) (by omega)
  | large positive first last _ place => exact unsigned positive worth (by omega) (by omega)

theorem Reads.canonical {sign sign' : Sign} {field : BitVec 11} {stored : BitVec 52} {mantissa : ℕ}
    {exponent : ℤ} {positive : 0 < mantissa}
    (reads : Reads sign field stored (.finite sign' mantissa exponent positive)) :
    Canonical mantissa exponent := by
  have short := stored.isLt
  cases reads with
  | small => exact ⟨by omega, le_rfl, .inl rfl⟩
  | large => exact ⟨by omega, by omega, .inr (by omega)⟩

/-- Stored numbers are placed by what they are worth. -/
theorem Reads.fits_of_place {sign sign' : Sign} {field field' : BitVec 11}
    {stored stored' : BitVec 52} (reads : Reads sign field stored number)
    (also : Reads sign' field' stored' other) (unsigned : Unsigned number)
    (fits : Fits power other) {place place' : ℤ ×ₗ ℤ ×ₗ ℤ} (found : placeOf number = some place)
    (foundAlso : placeOf other = some place') (before : place < place') : Fits power number := by
  cases unsigned with
  | zero => exact .zero _
  | infinite =>
      cases found
      cases fits <;> cases foundAlso <;> simp [Prod.Lex.toLex_lt_toLex] at before
  | @finite mantissa exponent positive =>
      cases found
      cases fits with
      | zero =>
          cases foundAlso
          simp [Prod.Lex.toLex_lt_toLex] at before
      | @finite count start _ below least most =>
          cases foundAlso
          obtain ⟨short, low, -⟩ := reads.canonical
          obtain ⟨-, lowAlso, long⟩ := also.canonical
          simp only [Prod.Lex.toLex_lt_toLex, lt_irrefl, false_or, true_and] at before
          rcases before with further | ⟨rfl, fewer⟩
          · refine .finite _ (le_trans ?_ below) low (by omega)
            have full : 2 ^ 52 ≤ count := long.resolve_left (by omega)
            calc (mantissa : ℚ) * 2 ^ exponent
                ≤ 2 ^ 53 * 2 ^ exponent := by
                  gcongr
                  exact_mod_cast short.le
              _ = 2 ^ 52 * 2 ^ (exponent + 1) := by
                  rw [zpow_add_one₀ two_ne_zero]
                  ring
              _ ≤ count * 2 ^ start := by
                  gcongr
                  · exact_mod_cast full
                  · exact one_le_two
                  · exact further
          · refine .finite _ (le_trans ?_ below) low most
            gcongr
            exact_mod_cast fewer.le

/-! Sums. -/

theorem unsigned_round (mantissa : ℕ) (exponent : ℤ) :
    Unsigned (UnpackedFloat.round .binary64 .positive mantissa exponent) := by
  unfold UnpackedFloat.round roundWithAccuracy
  dsimp only
  generalize ExtendedMantissa.mantissa _ = final
  by_cases zero : final = 0
  · rw [dif_pos zero]
    exact .zero _
  · rw [dif_neg zero]
    exact .finite _

/-- The sum of two positive numbers is their exact sum, rounded. -/
theorem exists_add_finite {mantissa count : ℕ} (exponent place : ℤ) (positive : 0 < mantissa)
    (above : 0 < count) : ∃ whole start, 0 < whole ∧
      UnpackedFloat.add .binary64 (.finite .positive mantissa exponent positive)
        (.finite .positive count place above) =
        UnpackedFloat.round .binary64 .positive whole start ∧
      (whole : ℚ) * 2 ^ start = mantissa * 2 ^ exponent + count * 2 ^ place := by
  have first := shiftLeft_mul mantissa (exponent - min exponent place).toNat exponent
  have second := shiftLeft_mul count (place - min exponent place).toNat place
  rw [Int.toNat_sub_of_le (min_le_left ..), sub_sub_cancel] at first
  rw [Int.toNat_sub_of_le (min_le_right ..), sub_sub_cancel] at second
  have some : 0 < mantissa <<< (exponent - min exponent place).toNat +
      count <<< (place - min exponent place).toNat :=
    Nat.add_pos_left (shiftLeft_pos positive _) _
  refine ⟨_, min exponent place, some, ?_, by rw [Nat.cast_add, add_mul, first, second]⟩
  unfold UnpackedFloat.add decreaseExponent UnpackedFloat.normalize
  dsimp only [Sign.apply]
  rw [← Nat.cast_add, compare_gt_iff_gt.2 (Int.natCast_pos.2 some)]
  rfl

theorem Unsigned.add (unsigned : Unsigned number) (also : Unsigned other) :
    Unsigned (UnpackedFloat.add .binary64 number other) := by
  cases unsigned with
  | infinite => cases also <;> exact .infinite
  | zero sign =>
      cases also with
      | infinite => exact .infinite
      | zero sign' => cases sign <;> cases sign' <;> exact .zero _
      | finite => exact .finite _
  | @finite mantissa exponent positive =>
      cases also with
      | infinite => exact .infinite
      | zero => exact .finite _
      | @finite count place above =>
          obtain ⟨whole, start, -, same, -⟩ := exists_add_finite exponent place positive above
          rw [same]
          exact unsigned_round whole start

theorem Fits.add {one two : ℚ} (low : -1022 ≤ power) (last : power ≤ 1023)
    (fits : Fits power number) (also : Fits power other)
    (worth : worth? number = some one) (worthAlso : worth? other = some two)
    (within : one + two ≤ 2 ^ power) :
    Fits power (UnpackedFloat.add .binary64 number other) := by
  cases fits with
  | zero sign =>
      cases also with
      | zero sign' => cases sign <;> cases sign' <;> exact .zero _
      | finite _ below least most => exact .finite _ below least most
  | @finite mantissa exponent positive below least most =>
      cases also with
      | zero => exact .finite _ below least most
      | @finite count place above =>
          obtain ⟨whole, start, some, same, exact⟩ := exists_add_finite exponent place positive above
          cases worth
          cases worthAlso
          rw [same]
          exact fits_round low last some (exact.trans_le within)

end

end QueryGrammar
