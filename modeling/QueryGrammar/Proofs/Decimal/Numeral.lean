import QueryGrammar.Decimal.Shortest
import QueryGrammar.Json.Reader

namespace QueryGrammar.Decimal

/-! Numerals in proper form.

Main statement: the numerals of counts and of finite numbers are proper, and a proper numeral is
read as it was written.
-/

def Digits (text : List Char) : Prop :=
  text ≠ [] ∧ ∀ c ∈ text, isDigit c = true

theorem Digits.append {text more : List Char} (digits : Digits text)
    (others : ∀ c ∈ more, isDigit c = true) : Digits (text ++ more) :=
  ⟨List.append_ne_nil_of_left_ne_nil digits.1 more, List.forall_mem_append.2 ⟨digits.2, others⟩⟩

/-- A numeral has digits wherever it may have some, and no zero before others. -/
structure Numeral.Proper (n : Numeral) : Prop where
  whole : Digits n.whole
  leading : n.whole.head? = some '0' → n.whole = ['0']
  fraction : ∀ digits, n.fraction = some digits → Digits digits
  power : ∀ negative digits, n.power = some (negative, digits) → Digits digits

theorem isDigit_eq (c : Char) : isDigit c = c.isDigit := by
  simp only [isDigit, Char.isDigit, Char.le_def, ge_iff_le]

theorem digits_digitsOf (n : Nat) : Digits (digitsOf n) := by
  refine ⟨Nat.toDigits_ne_nil, fun c member => ?_⟩
  rw [isDigit_eq]
  exact Nat.isDigit_of_mem_toDigits (by decide) (by decide) member

theorem head?_digitsOf {n : Nat} (positive : 0 < n) : (digitsOf n).head? ≠ some '0' := by
  induction n using Nat.strongRecOn with
  | ind n ih =>
      rw [digitsOf, Nat.toDigits_eq_if (by decide)]
      split
      · rename_i small
        have nonzero : ∀ d < 10, 0 < d → Nat.digitChar d ≠ '0' := by decide
        simpa using nonzero n small positive
      · have before := ih (n / 10) (by omega) (by omega)
        cases digits : Nat.toDigits 10 (n / 10) with
        | nil => exact absurd digits Nat.toDigits_ne_nil
        | cons first rest =>
            rw [digitsOf, digits] at before
            exact before

theorem valueOfDigits_digitsOf (n : Nat) : valueOfDigits (digitsOf n) = n :=
  Nat.ofDigitChars_ten_toDigits

theorem Numeral.proper_ofNat (n : Nat) : (Numeral.ofNat n).Proper where
  whole := digits_digitsOf n
  leading zero := by
    rcases Nat.eq_zero_or_pos n with rfl | positive
    · rfl
    · exact absurd zero (head?_digitsOf positive)
  fraction := nofun
  power := nofun

theorem Numeral.toNat?_ofNat (n : Nat) : (Numeral.ofNat n).toNat? = some n :=
  congrArg some (valueOfDigits_digitsOf n)

/-! The digits of finite numbers. -/

theorem Fraction.scale_num_pos {f : Fraction} (positive : 0 < f.num) {base : Nat}
    (inside : 0 < base) (power : Int) : 0 < (f.scale base power).num := by
  unfold scale
  split
  · exact positive
  · exact Nat.mul_pos positive (Nat.pow_pos inside)

theorem Fraction.scale_den_pos {f : Fraction} (positive : 0 < f.den) {base : Nat}
    (inside : 0 < base) (power : Int) : 0 < (f.scale base power).den := by
  unfold scale
  split
  · exact Nat.mul_pos positive (Nat.pow_pos inside)
  · exact positive

theorem Scaled.fraction_zero (power : Int) : (Scaled.fraction ⟨0, power⟩).num = 0 := by
  unfold fraction Fraction.scale
  split <;> simp

/-- Nothing but zero reads as zero. -/
theorem Span.contains_zero {span : Span} (low : 0 < span.low.num) (power : Int) :
    span.contains (Scaled.fraction ⟨0, power⟩) = false := by
  have above : (Scaled.fraction ⟨0, power⟩).less span.low = true := by
    have den : 0 < (Scaled.fraction ⟨0, power⟩).den :=
      Fraction.scale_den_pos Nat.one_pos (by decide) power
    simp only [Fraction.less, Scaled.fraction_zero, Nat.zero_mul, decide_eq_true_eq]
    exact Nat.mul_pos low den
  have below : span.low.less (Scaled.fraction ⟨0, power⟩) = false := by
    simp [Fraction.less, Scaled.fraction_zero]
  unfold contains
  split <;> simp [above, below]

theorem Span.onGrid_pos {span : Span} (low : 0 < span.low.num) {power : Int} {found : Scaled}
    (given : span.onGrid power = some found) : 0 < found.digits := by
  have nonzero : ∀ digits, span.contains (Scaled.fraction ⟨digits, power⟩) = true → 0 < digits := by
    intro digits inside
    rcases Nat.eq_zero_or_pos digits with rfl | positive
    · rw [contains_zero low] at inside
      cases inside
    · exact positive
  unfold onGrid at given
  simp only at given
  split at given
  · rename_i inside _
    cases given
    have whole := nonzero _ inside
    unfold Fraction.round
    simp only
    split
    · exact Nat.succ_pos _
    · exact whole
  · rename_i inside _
    cases given
    exact nonzero _ inside
  · cases given
    exact Nat.succ_pos _
  · cases given

theorem Span.search_pos {span : Span} (low : 0 < span.low.num) {fuel : Nat} {power : Int}
    {found : Scaled} (given : span.search fuel power = some found) : 0 < found.digits := by
  induction fuel generalizing power with
  | zero => cases given
  | succ fuel ih =>
      rw [search] at given
      split at given
      · rename_i here
        cases given
        exact onGrid_pos low here
      · exact ih given

theorem Binary.shortest_pos {b : Binary} (nonzero : b.mantissa ≠ 0) : 0 < b.shortest.digits := by
  have low : 0 < b.span.low.num := by
    refine Fraction.scale_num_pos ?_ (by decide) _
    simp only
    split <;> omega
  unfold shortest
  cases found : b.span.search 40 b.span.coarsest with
  | none => exact Nat.pos_of_ne_zero nonzero
  | some scaled => exact Span.search_pos low found

theorem Binary.proper_numeral (b : Binary) : b.numeral.Proper := by
  have zero : Digits ['0'] := by
    refine ⟨by simp, fun c member => ?_⟩
    rw [List.mem_singleton.1 member]
    rfl
  unfold numeral
  split
  · refine ⟨zero, fun _ => rfl, fun digits same => ?_, nofun⟩
    cases same
    exact zero
  · rename_i nonzero
    have all := digits_digitsOf b.shortest.digits
    have leading := head?_digitsOf (shortest_pos nonzero)
    simp only
    generalize digitsOf b.shortest.digits = digits at all leading
    generalize (digits.length - 1 + b.shortest.power : Int) = lead
    have zeros : ∀ count, ∀ c ∈ List.replicate count '0', isDigit c = true := by
      intro count c member
      rw [List.eq_of_mem_replicate member]
      exact zero.2 '0' (by simp)
    obtain ⟨first, rest, rfl⟩ := List.exists_cons_of_ne_nil all.1
    have nonzeroFirst : ∀ others : List Char, (first :: others).head? = some '0' →
        first :: others = ['0'] := fun others same => absurd same leading
    split
    · refine ⟨⟨by simp, fun c member => all.2 c ?_⟩, nonzeroFirst _, fun digits same => ?_,
        fun negative digits same => ?_⟩
      · rw [List.mem_singleton.1 member]
        exact List.mem_cons_self ..
      · simp only [List.drop_one, List.tail_cons] at same
        split at same
        · cases same
        · rename_i several
          cases same
          refine ⟨?_, fun c member => all.2 c (List.mem_cons_of_mem _ member)⟩
          rintro rfl
          exact several (Nat.le_refl _)
      · cases same
        exact digits_digitsOf _
    · split
      · refine ⟨zero, fun _ => rfl, fun digits same => ?_, nofun⟩
        cases same
        exact ⟨by simp, List.forall_mem_append.2 ⟨zeros _, all.2⟩⟩
      · split
        · refine ⟨all.append (zeros _), nonzeroFirst _, fun digits same => ?_, nofun⟩
          cases same
          exact zero
        · rename_i beyond
          refine ⟨⟨by simp, fun c member => all.2 c (List.mem_of_mem_take member)⟩,
            nonzeroFirst _, fun digits same => ?_, nofun⟩
          cases same
          refine ⟨fun none => beyond ?_, fun c member => all.2 c (List.mem_of_mem_drop member)⟩
          exact List.drop_eq_nil_iff.1 none

open Float.Model in
/-- The field of the exponent in the bits of a number. -/
theorem toNat_unpackExponent (x : Float) :
    (@UnpackedFloat.unpackExponent .binary64 x.toBits.toBitVec).toNat =
      x.toBits.toNat / Nat.pow 2 52 % Nat.pow 2 11 := by
  rw [UnpackedFloat.unpackExponent, BitVec.toNat_cast]
  rw [BitVec.extractLsb_toNat, Nat.shiftRight_eq_div_pow]
  rfl

open Float.Model in
theorem exists_numeralOf? {x : Float} (finite : x.isFinite = true) :
    ∃ b : Binary, numeralOf? x = some b.numeral := by
  have inside : @UnpackedFloat.unpackExponent .binary64 x.toBits.toBitVec ≠ -1#11 := by
    intro full
    have unpacked : x.isFinite = (UnpackedFloat.unpack .binary64 x.toBits.toBitVec).isFinite := rfl
    have special : UnpackedFloat.unpack .binary64 x.toBits.toBitVec =
        if @UnpackedFloat.unpackMantissa .binary64 x.toBits.toBitVec = 0#52 then
          .infinity (.ofBitVec (@UnpackedFloat.unpackSign .binary64 x.toBits.toBitVec))
        else .notANumber := if_pos full
    rw [unpacked, special] at finite
    split at finite <;> cases finite
  have small : x.toBits.toNat / Nat.pow 2 52 % Nat.pow 2 11 ≠ 2047 := by
    intro full
    exact inside (BitVec.eq_of_toNat_eq ((toNat_unpackExponent x).trans full))
  have known : ∃ b, parts x = .finite b := by
    unfold parts
    simp only [small, if_false]
    split <;> exact ⟨_, rfl⟩
  obtain ⟨b, same⟩ := known
  exact ⟨b, by rw [numeralOf?, same]⟩

/-! Reading them back. -/

/-- Text that does not go on with a numeral before it. -/
def Ends (rest : List Char) : Prop :=
  ∀ c, rest.head? = some c → isDigit c = false ∧ c ≠ '.' ∧ c ≠ 'e' ∧ c ≠ 'E'

def fractionText : Option (List Char) → List Char
  | none => []
  | some digits => '.' :: digits

def powerText : Option (Bool × List Char) → List Char
  | none => []
  | some (negative, digits) => 'e' :: (if negative then '-' else '+') :: digits

theorem Numeral.render_eq (n : Numeral) : n.render =
    (if n.negative then ['-'] else []) ++
      (n.whole ++ (fractionText n.fraction ++ powerText n.power)) := by
  obtain ⟨negative, whole, fraction, power⟩ := n
  simp only [render, List.append_assoc]
  rfl

theorem spanDigits_append {digits rest : List Char} (all : ∀ c ∈ digits, isDigit c = true)
    (ends : ∀ c, rest.head? = some c → isDigit c = false) :
    spanDigits (digits ++ rest) = (digits, rest) := by
  have stop : rest.takeWhile isDigit = [] ∧ rest.dropWhile isDigit = rest := by
    cases rest with
    | nil => exact ⟨rfl, rfl⟩
    | cons c more =>
        have other := ends c rfl
        simp [other]
  rw [spanDigits, List.takeWhile_append_of_pos all, List.dropWhile_append_of_pos all, stop.1,
    stop.2, List.append_nil]

theorem readPower?_powerText {power : Option (Bool × List Char)} {rest : List Char}
    (proper : ∀ negative digits, power = some (negative, digits) → Digits digits)
    (ends : Ends rest) : readPower? (powerText power ++ rest) = some (power, rest) := by
  cases power with
  | none =>
      cases rest with
      | nil => rfl
      | cons c more =>
          obtain ⟨-, -, small, capital⟩ := ends c rfl
          simp [powerText, readPower?, small, capital]
  | some power =>
      obtain ⟨negative, digits⟩ := power
      obtain ⟨present, all⟩ := proper negative digits rfl
      obtain ⟨first, others, rfl⟩ := List.exists_cons_of_ne_nil present
      have spanned := spanDigits_append all fun c head => (ends c head).1
      have taken : readPower ((if negative then '-' else '+') :: (first :: others) ++ rest) =
          some ((negative, first :: others), rest) := by
        cases negative <;>
          simp only [readPower, List.cons_append, Bool.false_eq_true, if_false, if_true] <;>
          rw [← List.cons_append, spanned]
      show (readPower ((if negative then '-' else '+') :: (first :: others) ++ rest)).map _ = _
      rw [taken]
      rfl

theorem readFraction_fractionText {fraction : Option (List Char)} {rest : List Char}
    (proper : ∀ digits, fraction = some digits → Digits digits)
    (ends : ∀ c, rest.head? = some c → isDigit c = false ∧ c ≠ '.') :
    Json.readFraction (fractionText fraction ++ rest) = some (fraction, rest) := by
  cases fraction with
  | none =>
      unfold Json.readFraction
      split
      · rename_i same
        exact absurd rfl (ends '.' (congrArg List.head? same)).2
      · rfl
  | some digits =>
      obtain ⟨present, all⟩ := proper digits rfl
      obtain ⟨first, others, rfl⟩ := List.exists_cons_of_ne_nil present
      show Json.readFraction ('.' :: ((first :: others) ++ rest)) = _
      rw [Json.readFraction, spanDigits_append all fun c head => (ends c head).1]

theorem readWhole_append {whole rest : List Char} (digits : Digits whole)
    (leading : whole.head? = some '0' → whole = ['0'])
    (ends : ∀ c, rest.head? = some c → isDigit c = false) :
    Json.readWhole (whole ++ rest) = some (whole, rest) := by
  obtain ⟨present, all⟩ := digits
  obtain ⟨first, others, rfl⟩ := List.exists_cons_of_ne_nil present
  have spanned := spanDigits_append all ends
  unfold Json.readWhole
  split
  · rename_i same
    obtain ⟨rfl, rfl⟩ := List.cons.inj same
    obtain ⟨-, rfl⟩ := List.cons.inj (leading rfl)
    rfl
  · rw [spanned]

theorem head?_powerText (power : Option (Bool × List Char)) {rest : List Char} (ends : Ends rest) :
    ∀ c, (powerText power ++ rest).head? = some c → isDigit c = false ∧ c ≠ '.' := by
  intro c head
  cases power with
  | none => exact ⟨(ends c head).1, (ends c head).2.1⟩
  | some power =>
      cases head
      decide

theorem head?_fractionText (fraction : Option (List Char)) {rest : List Char}
    (ends : ∀ c, rest.head? = some c → isDigit c = false ∧ c ≠ '.') :
    ∀ c, (fractionText fraction ++ rest).head? = some c → isDigit c = false := by
  intro c head
  cases fraction with
  | none => exact (ends c head).1
  | some digits =>
      cases head
      decide

theorem Numeral.Proper.render_head {n : Numeral} (proper : n.Proper) :
    ∃ c more, n.render = c :: more ∧ (c = '-' ∨ isDigit c = true) := by
  obtain ⟨first, others, same⟩ := List.exists_cons_of_ne_nil proper.whole.1
  rw [render_eq, same]
  cases n.negative with
  | true => exact ⟨'-', _, rfl, .inl rfl⟩
  | false => exact ⟨first, _, rfl, .inr (proper.whole.2 first (same ▸ List.mem_cons_self ..))⟩

/-- A proper numeral is read as it was written. -/
theorem Numeral.Proper.readNumeral {n : Numeral} (proper : n.Proper) {rest : List Char}
    (ends : Ends rest) : Json.readNumeral (n.render ++ rest) = some (n, rest) := by
  have power := readPower?_powerText proper.power ends
  have afterFraction := head?_powerText n.power ends
  have fraction := readFraction_fractionText proper.fraction afterFraction
  have whole := readWhole_append proper.whole proper.leading
    (head?_fractionText n.fraction afterFraction)
  rw [Numeral.render_eq]
  simp only [List.append_assoc]
  unfold Json.readNumeral
  cases sign : n.negative with
  | true =>
      simp only [if_true, List.cons_append, List.nil_append, whole, fraction, power]
      rw [← sign]
  | false =>
      have unsigned : ∀ more,
          n.whole ++ (fractionText n.fraction ++ (powerText n.power ++ rest)) ≠ '-' :: more := by
        intro more same
        obtain ⟨first, others, digits⟩ := List.exists_cons_of_ne_nil proper.whole.1
        rw [digits] at same
        obtain ⟨rfl, -⟩ := List.cons.inj same
        have digit := proper.whole.2 '-' (digits ▸ List.mem_cons_self ..)
        cases digit
      -- `unsigned` decides that there is no sign to read.
      simp only [Bool.false_eq_true, if_false, List.nil_append, whole, fraction, power]
      rw [← sign]

end QueryGrammar.Decimal
