import QueryGrammar.Proofs.Amounts
import QueryGrammar.Proofs.Amounts.Rounding
import QueryGrammar.Proofs.Costs

namespace QueryGrammar

/-! Sums of amounts.

Main statement: sums of amounts that are not negative are not negative, and a sum of two amounts is
within the power of two after the one that both are within.
-/

open Float.Model hiding pack unpack
open UnpackedFloat

namespace Amount

/-- What a finite amount is worth, exactly. -/
def value? : Amount → Option ℚ
  | .known x => worth? x.toModel.unpack
  | .undefined _ => none

/-- An amount from zero to a power of two. -/
def Within (power : ℕ) (amount : Amount) : Prop :=
  ∃ value, amount.value? = some value ∧ 0 ≤ value ∧ value ≤ 2 ^ power

instance {power : ℕ} {amount : Amount} : Decidable (amount.Within power) :=
  decidable_of_iff (amount.value?.any fun value => decide (0 ≤ value ∧ value ≤ 2 ^ power)) (by
    simp [Within, Option.any_eq_true])

variable {amount first second : Amount} {x y : Float} {power more : ℕ}

theorem isNonnegative_known : isNonnegative (.known x) = true ↔ Unsigned x.toModel.unpack := by
  have zero : (0.0 : Float).toModel.unpack = .zero .positive := rfl
  rw [isNonnegative, decide_eq_true_iff]
  show Float.le 0.0 x = true ↔ _
  rw [Float.le, decide_eq_true_iff]
  show (Float.toModel 0.0).unpack.le x.toModel.unpack = true ↔ _
  rw [zero, unsigned_iff]

theorem exists_known (nonnegative : amount.isNonnegative = true) :
    ∃ x, amount = .known x ∧ Unsigned x.toModel.unpack := by
  cases amount with
  | known x => exact ⟨x, rfl, isNonnegative_known.1 nonnegative⟩
  | undefined => cases nonnegative

/-- Amounts that are not negative have a sum. -/
theorem add_known (unsigned : Unsigned x.toModel.unpack) (also : Unsigned y.toModel.unpack) :
    add (.known x) (.known y) = .known (x + y) ∧ Unsigned (x + y).toModel.unpack := by
  have sum : Unsigned (x + y).toModel.unpack := (unsigned.add also).unpack_pack
  exact ⟨if_neg (Bool.eq_false_iff.1 sum.isNaN), sum⟩

theorem isNonnegative_add (nonnegative : first.isNonnegative = true)
    (also : second.isNonnegative = true) : (add first second).isNonnegative = true := by
  obtain ⟨x, rfl, unsigned⟩ := exists_known nonnegative
  obtain ⟨y, rfl, unsignedAlso⟩ := exists_known also
  obtain ⟨known, sum⟩ := add_known unsigned unsignedAlso
  rw [known]
  exact isNonnegative_known.2 sum

theorem isNonnegative_negativeZero : isNonnegative (.known (-0.0)) = true :=
  isNonnegative_known.2 (.zero .negative)

namespace Within

theorem fits (within : Within power (.known x)) : Fits power x.toModel.unpack := by
  obtain ⟨value, worth, nonnegative, below⟩ := within
  exact (reads_unpack _).fits worth nonnegative (by rwa [zpow_natCast])

theorem exists_known (within : Within power amount) :
    ∃ x, amount = .known x ∧ Fits power x.toModel.unpack := by
  cases amount with
  | known x => exact ⟨x, rfl, within.fits⟩
  | undefined =>
      obtain ⟨value, worth, -⟩ := within
      cases worth

theorem of_fits (fits : Fits power x.toModel.unpack) : Within power (.known x) := by
  obtain ⟨value, worth, nonnegative, below⟩ := fits.exists_worth
  exact ⟨value, worth, nonnegative, by rwa [zpow_natCast] at below⟩

theorem isNonnegative (within : Within power amount) : amount.isNonnegative = true := by
  obtain ⟨x, rfl, fits⟩ := within.exists_known
  exact isNonnegative_known.2 fits.unsigned

theorem isFinite (within : Within power amount) : amount.isFinite = true := by
  obtain ⟨x, rfl, fits⟩ := within.exists_known
  exact fits.isFinite

theorem mono (within : Within power amount) (below : power ≤ more) : Within more amount := by
  obtain ⟨value, worth, nonnegative, most⟩ := within
  exact ⟨value, worth, nonnegative, most.trans (pow_le_pow_right₀ one_le_two below)⟩

/-- A sum is within a power of two where the exact sum is. -/
theorem add_of_le {one two : ℚ} (last : power ≤ 1023) (worth : first.value? = some one)
    (worthAlso : second.value? = some two) (nonnegative : 0 ≤ one) (nonnegativeAlso : 0 ≤ two)
    (below : one + two ≤ 2 ^ power) : Within power (add first second) := by
  have within : Within power first := ⟨one, worth, nonnegative, by linarith⟩
  have also : Within power second := ⟨two, worthAlso, nonnegativeAlso, by linarith⟩
  obtain ⟨x, rfl, fits⟩ := within.exists_known
  obtain ⟨y, rfl, fitsAlso⟩ := also.exists_known
  rw [(add_known (isNonnegative_known.1 within.isNonnegative)
    (isNonnegative_known.1 also.isNonnegative)).1]
  exact of_fits (fits.add (by omega) (by omega) fitsAlso worth worthAlso
    (by rwa [zpow_natCast])).unpack_pack

theorem add (last : power < 1023) (within : Within power first) (also : Within power second) :
    Within (power + 1) (add first second) := by
  obtain ⟨one, worth, nonnegative, below⟩ := within
  obtain ⟨two, worthAlso, nonnegativeAlso, belowAlso⟩ := also
  refine add_of_le (by omega) worth worthAlso nonnegative nonnegativeAlso ?_
  rw [pow_succ]
  linarith

/-- What is less than another amount is within the same power of two. -/
theorem of_less (nonnegative : first.isNonnegative = true) (less : less first second = true)
    (within : Within power second) : Within power first := by
  obtain ⟨x, rfl, unsigned⟩ := Amount.exists_known nonnegative
  obtain ⟨y, rfl, fits⟩ := within.exists_known
  obtain ⟨place, other, found, foundAlso, before⟩ := less_known.1 less
  exact of_fits
    ((reads_unpack _).fits_of_place (reads_unpack _) unsigned fits found foundAlso before)

theorem negativeZero_within : Within power (.known (-0.0)) :=
  of_fits (.zero .negative)

theorem foldl {costs : List Amount} (last : power + costs.length ≤ 1023)
    (within : Within power amount) (all : ∀ cost ∈ costs, Within power cost) :
    Within (power + costs.length) (costs.foldl Amount.add amount) := by
  induction costs generalizing power amount with
  | nil => exact within
  | cons cost rest ih =>
      obtain ⟨own, others⟩ := List.forall_mem_cons.1 all
      rw [List.length_cons] at last ⊢
      rw [add_comm rest.length, ← add_assoc] at last ⊢
      exact ih last (within.add (by omega) own)
        fun other member => (others other member).mono (Nat.le_succ _)

/-- Each summand after the first may take up another power of two. -/
theorem total {costs : List Amount} (last : power + (costs.length - 1) ≤ 1023)
    (all : ∀ cost ∈ costs, Within power cost) :
    Within (power + (costs.length - 1)) (Cost.total costs) := by
  cases costs with
  | nil => exact negativeZero_within
  | cons cost rest =>
      obtain ⟨⟨value, worth, nonnegative, below⟩, others⟩ := List.forall_mem_cons.1 all
      have first : Within power (Amount.add (.known (-0.0)) cost) :=
        add_of_le (by omega) rfl worth le_rfl nonnegative (by rwa [zero_add])
      exact foldl last first others

end Within

end Amount

instance : Cost.Additive Amount where
  isNonnegative_add := Amount.isNonnegative_add
  isNonnegative_total {costs} nonnegative := by
    have sums : ∀ start : Amount, start.isNonnegative = true →
        (costs.foldl Amount.add start).isNonnegative = true := by
      induction costs with
      | nil => exact fun start positive => positive
      | cons cost rest ih =>
          obtain ⟨own, others⟩ := List.forall_mem_cons.1 nonnegative
          exact fun start positive => ih others _ (Amount.isNonnegative_add positive own)
    exact sums _ Amount.isNonnegative_negativeZero

end QueryGrammar
