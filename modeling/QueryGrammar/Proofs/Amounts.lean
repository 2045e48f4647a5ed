import Mathlib.Data.Prod.Lex
import QueryGrammar.Amount

namespace QueryGrammar

/-! Comparing amounts.

Main statement: to be less than another amount is a strict order, with undefined amounts aside.
-/

open Float.Model

/-- Where a number lies: whether it is infinite and which sign it has, then its exponent, then its
mantissa, both turned round for negative ones. -/
def placeOf : UnpackedFloat → Option (ℤ ×ₗ ℤ ×ₗ ℤ)
  | .notANumber => none
  | .infinity .negative => some (toLex (-2, toLex (0, 0)))
  | .finite .negative mantissa exponent _ => some (toLex (-1, toLex (-exponent, -mantissa)))
  | .zero _ => some (toLex (0, toLex (0, 0)))
  | .finite .positive mantissa exponent _ => some (toLex (1, toLex (exponent, mantissa)))
  | .infinity .positive => some (toLex (2, toLex (0, 0)))

theorem lt_iff_placeOf (first second : UnpackedFloat) : first.lt second = true ↔
    ∃ place other, placeOf first = some place ∧ placeOf second = some other ∧ place < other := by
  have signs : compare UnpackedFloat.Sign.negative .positive = .lt := rfl
  rcases first with (- | -) | - | (- | -) | ⟨- | -, mantissa, exponent, positive⟩ <;>
    rcases second with (- | -) | - | (- | -) | ⟨- | -, mantissa', exponent', positive'⟩ <;>
    dsimp only [placeOf, UnpackedFloat.lt, UnpackedFloat.compare] <;>
    simp [Prod.Lex.toLex_lt_toLex, signs, Ordering.then_eq_lt, Ordering.then_eq_gt,
      compare_lt_iff_lt, compare_gt_iff_gt]

namespace Amount

theorem less_known {first second : Float} : less (.known first) (.known second) = true ↔
    ∃ place other, placeOf first.toModel.unpack = some place ∧
      placeOf second.toModel.unpack = some other ∧ place < other := by
  rw [← lt_iff_placeOf, less, decide_eq_true_iff]
  show Float.lt first second = true ↔ _
  rw [Float.lt, decide_eq_true_iff]
  rfl

theorem less_irrefl (amount : Amount) : less amount amount = false := by
  cases amount with
  | undefined negative => rfl
  | known value =>
      rw [← Bool.not_eq_true, less_known]
      rintro ⟨place, other, found, foundAlso, before⟩
      rw [found, Option.some.injEq] at foundAlso
      exact lt_irrefl place (foundAlso ▸ before)

theorem less_trans {first second third : Amount} (before : less first second = true)
    (after : less second third = true) : less first third = true := by
  cases first with
  | undefined negative => cases before
  | known first =>
      cases second with
      | undefined negative => cases before
      | known second =>
          cases third with
          | undefined negative => cases after
          | known third =>
              rw [less_known] at before after ⊢
              obtain ⟨place, middle, found, foundMiddle, below⟩ := before
              obtain ⟨middleAlso, last, foundAlso, foundLast, above⟩ := after
              rw [foundMiddle, Option.some.injEq] at foundAlso
              exact ⟨place, last, found, foundLast, below.trans (foundAlso ▸ above)⟩

end Amount

end QueryGrammar
