import QueryGrammar.Proofs.Amounts.Sums

namespace QueryGrammar

/-! Sums of amounts that are not below what is summed up.

Main statement: rounding does not take a sum below a number that can be stored and that the exact sum
is not below, so a sum of amounts that are not negative is not less than any of them.
-/

open Float.Model hiding pack unpack
open UnpackedFloat

/-- The exponent of one number is lower, or the same with no higher mantissa. -/
def AtMost (count : ℕ) (start : ℤ) (mantissa : ℕ) (exponent : ℤ) : Prop :=
  start < exponent ∨ start = exponent ∧ count ≤ mantissa

section

variable {mantissa count kept : ℕ} {exponent start place target : ℤ}

/-! Rounding. -/

theorem targetExponent_eq : Format.binary64.targetExponent (totalExponent mantissa exponent) =
    max ((mantissa.log2 + 1 : ℤ) + exponent - 53) (-1074) :=
  rfl

theorem mantissa_shiftRight (mantissa count : ℕ) :
    (ExtendedMantissa.ofMantissaAndAccuracy mantissa .exact >>> count).mantissa =
      mantissa / 2 ^ count := by
  change (count.repeat ExtendedMantissa.shiftRightOne _).mantissa = _
  induction count with
  | zero => exact (Nat.div_one mantissa).symm
  | succ count ih =>
      have half : ((count + 1).repeat ExtendedMantissa.shiftRightOne
          (.ofMantissaAndAccuracy mantissa .exact)).mantissa =
        (count.repeat ExtendedMantissa.shiftRightOne
          (.ofMantissaAndAccuracy mantissa .exact)).mantissa / 2 := rfl
      rw [half, ih, Nat.div_div_eq_div_mul, ← pow_succ]

theorem roundedMantissa_bounds (extended : ExtendedMantissa) :
    extended.mantissa ≤ extended.roundedMantissa ∧
      extended.roundedMantissa ≤ extended.mantissa + 1 := by
  rcases extended with ⟨kept, _ | _, _ | _⟩ <;>
    simp only [ExtendedMantissa.roundedMantissa, ExtendedMantissa.accuracy,
      Accuracy.roundToNearestEven] <;>
    omega

theorem log2_shiftLeft (positive : 0 < mantissa) (count : ℕ) :
    (mantissa <<< count).log2 = mantissa.log2 + count := by
  rw [Nat.log2_eq_iff (shiftLeft_pos positive count).ne', Nat.shiftLeft_eq, pow_add,
    add_right_comm, pow_add]
  exact ⟨Nat.mul_le_mul_right _ (Nat.log2_self_le positive.ne'),
    Nat.mul_lt_mul_of_pos_right Nat.lt_log2_self (by positivity)⟩

/-- A mantissa is canonical once as many bits are dropped as its number has too many. -/
theorem canonical_div (positive : 0 < mantissa)
    (drops : exponent + count =
      Format.binary64.targetExponent (totalExponent mantissa exponent)) :
    Canonical (mantissa / 2 ^ count) (exponent + count) := by
  have lead : 2 ^ mantissa.log2 ≤ mantissa := Nat.log2_self_le positive.ne'
  have bits : mantissa < 2 ^ (mantissa.log2 + 1) := Nat.lt_log2_self
  rw [targetExponent_eq] at drops
  refine ⟨Nat.div_lt_of_lt_mul (bits.trans_le ?_), drops ▸ le_max_right .., ?_⟩
  · rw [← pow_add]
    exact Nat.pow_le_pow_right two_pos (by omega)
  · rcases eq_or_ne (exponent + (count : ℤ)) (-1074) with last | further
    · exact .inl last
    · refine .inr ((Nat.le_div_iff_mul_le (by positivity)).2 (le_trans ?_ lead))
      rw [← pow_add]
      exact Nat.pow_le_pow_right two_pos (by omega)

/-- Numbers that do not exceed another do not exceed what is left of it. -/
theorem Canonical.atMost_div {whole : ℕ} (canonical : Canonical whole start)
    (drops : exponent + count =
      Format.binary64.targetExponent (totalExponent mantissa exponent))
    (below : (whole : ℚ) * 2 ^ start ≤ mantissa * 2 ^ exponent) :
    AtMost whole start (mantissa / 2 ^ count) (exponent + count) := by
  rcases lt_trichotomy start (exponent + count) with before | rfl | after
  · exact .inl before
  · refine .inr ⟨rfl, (Nat.le_div_iff_mul_le (by positivity)).2 ?_⟩
    have same : (whole : ℚ) * 2 ^ (exponent + count) = (whole * 2 ^ count : ℕ) * 2 ^ exponent := by
      rw [add_comm, zpow_add₀ two_ne_zero, zpow_natCast]
      push_cast
      ring
    rw [same, mul_le_mul_iff_left₀ (by positivity)] at below
    exact_mod_cast below
  · -- A mantissa with all its bits and a higher exponent would be more than the other number.
    have most := canonical.least
    rw [targetExponent_eq] at drops
    have least : -1074 ≤ exponent + (count : ℤ) := drops ▸ le_max_right ..
    have long : ((2 ^ 52 : ℕ) : ℚ) ≤ whole := Nat.cast_le.2 (canonical.full.resolve_left (by omega))
    have bits : (mantissa : ℚ) < (2 ^ (mantissa.log2 + 1) : ℕ) := Nat.cast_lt.2 Nat.lt_log2_self
    refine absurd below (not_le_of_gt ?_)
    calc (mantissa : ℚ) * 2 ^ exponent
        < (2 ^ (mantissa.log2 + 1) : ℕ) * 2 ^ exponent := by gcongr
      _ = 2 ^ ((mantissa.log2 + 1 : ℕ) + exponent) := by
          rw [zpow_add₀ two_ne_zero, zpow_natCast, Nat.cast_pow, Nat.cast_ofNat]
      _ ≤ 2 ^ ((52 : ℕ) + start) := zpow_le_zpow_right₀ one_le_two (by omega)
      _ = (2 ^ 52 : ℕ) * 2 ^ start := by
          rw [zpow_add₀ two_ne_zero, zpow_natCast, Nat.cast_pow, Nat.cast_ofNat]
      _ ≤ whole * 2 ^ start := by gcongr

/-- A mantissa with at most one bit too many loses that bit. -/
theorem carry (within : mantissa ≤ 2 ^ 53) (least : -1074 ≤ exponent) :
    ∃ (extended : ExtendedMantissa) (place : ℤ),
      shiftToTargetExponent .binary64 mantissa exponent .exact = (extended, place) ∧
      (mantissa < 2 ^ 53 ∧ extended.mantissa = mantissa ∧ place = exponent ∨
        extended.mantissa = 2 ^ 52 ∧ place = exponent + 1) := by
  refine ⟨_, _, rfl, ?_⟩
  rw [mantissa_shiftRight, targetExponent_eq]
  rcases within.lt_or_eq with short | rfl
  · have few : mantissa.log2 < 53 := by
      rcases mantissa.eq_zero_or_pos with rfl | positive
      · decide
      · exact (Nat.log2_lt positive.ne').2 short
    have none : (max ((mantissa.log2 + 1 : ℤ) + exponent - 53) (-1074) - exponent).toNat = 0 := by
      omega
    rw [none]
    exact .inl ⟨short, Nat.div_one mantissa, add_zero exponent⟩
  · have one : (max (((2 ^ 53 : ℕ).log2 + 1 : ℤ) + exponent - 53) (-1074) - exponent).toNat = 1 := by
      rw [Nat.log2_two_pow]
      omega
    rw [one]
    exact .inr ⟨rfl, rfl⟩

/-- A canonical number that stands for one: what can be stored and does not exceed the one does not
exceed the other. -/
structure Stands (mantissa : ℕ) (exponent : ℤ) (kept : ℕ) (place : ℤ) : Prop where
  canonical : Canonical kept place
  above : ∀ (whole : ℕ) start, Canonical whole start →
    (whole : ℚ) * 2 ^ start ≤ mantissa * 2 ^ exponent → AtMost whole start kept place

theorem roundWithAccuracy_stands (positive : 0 < mantissa)
    (low : exponent ≤ Format.binary64.targetExponent (totalExponent mantissa exponent)) :
    ∃ kept place, Stands mantissa exponent kept place ∧
      roundWithAccuracy .binary64 .positive mantissa exponent .exact =
        if zero : kept = 0 then .zero .positive
        else .finite .positive kept place (Nat.pos_of_ne_zero zero) := by
  have drops : exponent + ((Format.binary64.targetExponent (totalExponent mantissa exponent) -
      exponent).toNat : ℤ) =
      Format.binary64.targetExponent (totalExponent mantissa exponent) := by
    omega
  unfold roundWithAccuracy
  rw [shiftToTargetExponent, shiftToExponent]
  dsimp only
  generalize (Format.binary64.targetExponent (totalExponent mantissa exponent) -
    exponent).toNat = count at drops ⊢
  have canonical := canonical_div positive drops
  have above : ∀ (whole : ℕ) start, Canonical whole start →
      (whole : ℚ) * 2 ^ start ≤ mantissa * 2 ^ exponent →
      AtMost whole start (mantissa / 2 ^ count) (exponent + count) :=
    fun whole start own => own.atMost_div drops
  obtain ⟨more, most⟩ := roundedMantissa_bounds
    (ExtendedMantissa.ofMantissaAndAccuracy mantissa .exact >>> count)
  rw [mantissa_shiftRight] at more most
  generalize ExtendedMantissa.roundedMantissa _ = rounded at *
  generalize mantissa / 2 ^ count = kept at *
  generalize exponent + (count : ℤ) = target at *
  have within : rounded ≤ 2 ^ 53 := most.trans canonical.short
  obtain ⟨extended, place, shift, parts⟩ := carry within canonical.least
  refine ⟨extended.mantissa, place, ⟨?_, fun whole start own below => ?_⟩, by rw [shift]⟩
  · have least := canonical.least
    rcases parts with ⟨short, same, rfl⟩ | ⟨same, rfl⟩
    · rw [same]
      exact ⟨short, least, canonical.full.imp_right fun full => full.trans more⟩
    · rw [same]
      exact ⟨by decide, by omega, .inr le_rfl⟩
  · have before := above whole start own below
    rcases parts with ⟨short, same, rfl⟩ | ⟨same, rfl⟩
    · rw [same]
      exact before.imp_right fun ⟨level, fewer⟩ => ⟨level, fewer.trans more⟩
    · exact .inl (by rcases before with lower | ⟨level, -⟩ <;> omega)

/-- A rounded number stands for the exact one. -/
theorem round_stands (positive : 0 < mantissa) (exponent : ℤ) :
    ∃ kept place, Stands mantissa exponent kept place ∧
      UnpackedFloat.round .binary64 .positive mantissa exponent =
        if zero : kept = 0 then .zero .positive
        else .finite .positive kept place (Nat.pos_of_ne_zero zero) := by
  unfold UnpackedFloat.round decreaseExponent
  dsimp only
  generalize longer : (exponent - Format.binary64.targetExponent
    (totalExponent mantissa exponent)).toNat = count
  have total : totalExponent (mantissa <<< count) (exponent - count) =
      totalExponent mantissa exponent := by
    unfold totalExponent
    rw [log2_shiftLeft positive]
    omega
  have low : exponent - count ≤
      Format.binary64.targetExponent (totalExponent (mantissa <<< count) (exponent - count)) := by
    rw [total]
    omega
  obtain ⟨kept, place, stands, same⟩ :=
    roundWithAccuracy_stands (shiftLeft_pos positive count) low
  refine ⟨kept, place, ⟨stands.canonical, fun whole start own below => ?_⟩, same⟩
  exact stands.above whole start own (below.trans_eq (shiftLeft_mul ..).symm)

end

/-! Comparing sums. -/

section

variable {number other : UnpackedFloat} {mantissa count : ℕ} {exponent start : ℤ}

theorem infinite_not_lt : (UnpackedFloat.infinity .positive).lt number = false := by
  rcases number with (_ | _) | _ | _ | _ <;> rfl

theorem Unsigned.not_lt_zero (unsigned : Unsigned number) (sign : Sign) :
    number.lt (.zero sign) = false := by
  cases unsigned <;> rfl

theorem Unsigned.exists_place (unsigned : Unsigned number) :
    ∃ place, placeOf number = some place := by
  cases unsigned <;> exact ⟨_, rfl⟩

theorem AtMost.not_lt (most : AtMost count start mantissa exponent) (positive : 0 < mantissa)
    (above : 0 < count) : (UnpackedFloat.finite .positive mantissa exponent positive).lt
      (.finite .positive count start above) = false := by
  rw [Bool.eq_false_iff, ne_eq, lt_iff_placeOf]
  rintro ⟨place, last, found, foundAlso, before⟩
  cases found
  cases foundAlso
  simp only [Prod.Lex.toLex_lt_toLex, lt_irrefl, false_or, true_and, Nat.cast_lt] at before
  unfold AtMost at most
  omega

/-- A canonical number is stored as it is, or as an infinite one. -/
theorem Canonical.unpack_pack (canonical : Canonical mantissa exponent) (positive : 0 < mantissa) :
    unpack .binary64 (pack .binary64 (.finite .positive mantissa exponent positive)) =
        .finite .positive mantissa exponent positive ∨
      unpack .binary64 (pack .binary64 (.finite .positive mantissa exponent positive)) =
        .infinity .positive := by
  obtain ⟨short, least, full⟩ := canonical
  have size : mantissa.log2 = 52 ↔ 2 ^ 52 ≤ mantissa := by
    rw [Nat.log2_eq_iff positive.ne']
    exact and_iff_left short
  rcases pack_finite .positive exponent positive with ⟨-, same⟩ | ⟨field, finite, same, parts⟩
  · rw [same]
    exact .inr rfl
  · left
    rw [same]
    have reads := reads_packComponents .positive field (.ofNat 52 mantissa)
    generalize unpack .binary64 _ = number at reads ⊢
    have stored : (BitVec.ofNat 52 mantissa).toNat = mantissa % 2 ^ 52 := BitVec.toNat_ofNat ..
    rw [size] at parts
    cases reads with
    | infinite last | undefined last => omega
    | zero first nothing =>
        have none : (BitVec.ofNat 52 mantissa).toNat = 0 := congrArg BitVec.toNat nothing
        omega
    | small _ first =>
        rw [UnpackedFloat.finite.injEq]
        exact ⟨rfl, by omega, by omega⟩
    | large _ first last whole place =>
        rw [UnpackedFloat.finite.injEq]
        exact ⟨rfl, by omega, by omega⟩

theorem Canonical.stored_not_lt (canonical : Canonical mantissa exponent)
    (most : AtMost count start mantissa exponent) (positive : 0 < mantissa) (above : 0 < count) :
    (unpack .binary64 (pack .binary64 (.finite .positive mantissa exponent positive))).lt
      (.finite .positive count start above) = false := by
  rcases canonical.unpack_pack positive with same | endless
  · rw [same]
    exact most.not_lt positive above
  · rw [endless]
    exact infinite_not_lt

theorem AtMost.refl : AtMost mantissa exponent mantissa exponent :=
  .inr ⟨rfl, le_rfl⟩

theorem Stands.pos {kept : ℕ} {place : ℤ} (stands : Stands mantissa exponent kept place)
    (own : Canonical count start) (above : 0 < count)
    (below : (count : ℚ) * 2 ^ start ≤ mantissa * 2 ^ exponent) : 0 < kept := by
  have least := own.least
  have full := stands.canonical.full
  rcases stands.above count start own below with lower | ⟨-, fewer⟩ <;> omega

theorem stored_infinite_not_lt (sum : number = .infinity .positive) :
    (unpack .binary64 (pack .binary64 number)).lt other = false := by
  rw [sum]
  exact infinite_not_lt

/-- A sum of numbers that can be stored is not less than either of them. -/
theorem Reads.add_not_lt {sign sign' : Sign} {field field' : BitVec 11} {stored stored' : BitVec 52}
    (reads : Reads sign field stored number) (also : Reads sign' field' stored' other)
    (unsigned : Unsigned number) (unsignedAlso : Unsigned other) :
    (unpack .binary64 (pack .binary64 (UnpackedFloat.add .binary64 number other))).lt number =
        false ∧
      (unpack .binary64 (pack .binary64 (UnpackedFloat.add .binary64 number other))).lt other =
        false := by
  have sum := (unsigned.add unsignedAlso).unpack_pack
  cases unsigned with
  | infinite =>
      have endless : UnpackedFloat.add .binary64 (.infinity .positive) other =
          .infinity .positive := by
        cases unsignedAlso <;> rfl
      exact ⟨stored_infinite_not_lt endless, stored_infinite_not_lt endless⟩
  | zero sign =>
      refine ⟨sum.not_lt_zero sign, ?_⟩
      cases unsignedAlso with
      | infinite => exact stored_infinite_not_lt rfl
      | zero sign' => exact sum.not_lt_zero sign'
      | finite above => exact also.canonical.stored_not_lt .refl above above
  | @finite mantissa exponent positive =>
      cases unsignedAlso with
      | infinite => exact ⟨stored_infinite_not_lt rfl, stored_infinite_not_lt rfl⟩
      | zero sign' =>
          exact ⟨reads.canonical.stored_not_lt .refl positive positive, sum.not_lt_zero sign'⟩
      | @finite count start above =>
          obtain ⟨whole, place, some, same, exact⟩ :=
            exists_add_finite exponent start positive above
          obtain ⟨kept, target, stands, rounded⟩ := round_stands some place
          have first : (mantissa : ℚ) * 2 ^ exponent ≤ whole * 2 ^ place := by
            rw [exact]
            exact le_add_of_nonneg_right (by positivity)
          have second : (count : ℚ) * 2 ^ start ≤ whole * 2 ^ place := by
            rw [exact]
            exact le_add_of_nonneg_left (by positivity)
          have left := stands.pos reads.canonical positive first
          rw [same, rounded, dif_neg left.ne']
          exact ⟨stands.canonical.stored_not_lt (stands.above _ _ reads.canonical first) left positive,
            stands.canonical.stored_not_lt (stands.above _ _ also.canonical second) left above⟩

end

namespace Amount

variable {first second third : Amount} {x y : Float}

theorem less_eq_lt : less (.known x) (.known y) = x.toModel.unpack.lt y.toModel.unpack :=
  Bool.eq_iff_iff.2 (less_known.trans (lt_iff_placeOf ..).symm)

theorem add_not_less (nonnegative : first.isNonnegative = true)
    (also : second.isNonnegative = true) :
    less (add first second) first = false ∧ less (add first second) second = false := by
  obtain ⟨x, rfl, unsigned⟩ := exists_known nonnegative
  obtain ⟨y, rfl, unsignedAlso⟩ := exists_known also
  rw [(add_known unsigned unsignedAlso).1, less_eq_lt, less_eq_lt]
  exact (reads_unpack _).add_not_lt (reads_unpack _) unsigned unsignedAlso

theorem less_or_less (nonnegative : second.isNonnegative = true) (less : less first third = true) :
    first.less second = true ∨ second.less third = true := by
  obtain ⟨y, rfl, unsigned⟩ := exists_known nonnegative
  cases first with
  | undefined => cases less
  | known x =>
      cases third with
      | undefined => cases less
      | known z =>
          obtain ⟨low, high, found, foundAlso, before⟩ := less_known.1 less
          obtain ⟨middle, between⟩ := unsigned.exists_place
          rw [less_known, less_known]
          rcases lt_or_ge low middle with below | above
          · exact .inl ⟨low, middle, found, between, below⟩
          · exact .inr ⟨middle, high, between, foundAlso, above.trans_lt before⟩

theorem foldl_not_less {costs : List Amount} {start : Amount}
    (nonnegative : start.isNonnegative = true)
    (all : ∀ cost ∈ costs, cost.isNonnegative = true) :
    less (costs.foldl add start) start = false ∧
      ∀ cost ∈ costs, less (costs.foldl add start) cost = false := by
  induction costs generalizing start with
  | nil => exact ⟨less_irrefl start, by simp⟩
  | cons cost rest ih =>
      obtain ⟨own, others⟩ := List.forall_mem_cons.1 all
      have sum := isNonnegative_add nonnegative own
      obtain ⟨whole, parts⟩ := ih sum others
      obtain ⟨left, right⟩ := add_not_less nonnegative own
      have through : ∀ part : Amount, less (add start cost) part = false →
          less (rest.foldl add (add start cost)) part = false := by
        intro part notLess
        refine Bool.eq_false_iff.2 fun less => ?_
        rcases less_or_less sum less with before | after
        · rw [whole] at before
          cases before
        · rw [notLess] at after
          cases after
      exact ⟨through start left, List.forall_mem_cons.2 ⟨through cost right, parts⟩⟩

end Amount

instance : Cost.Growing Amount where
  less_irrefl := Amount.less_irrefl
  less_trans := Amount.less_trans
  less_or_less _ also _ less := Amount.less_or_less also less
  add_not_less nonnegative also := (Amount.add_not_less nonnegative also).2
  total_not_less nonnegative := (Amount.foldl_not_less Amount.isNonnegative_negativeZero nonnegative).2

end QueryGrammar
