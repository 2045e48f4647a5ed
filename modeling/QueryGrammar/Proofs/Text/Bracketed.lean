import Mathlib.Data.List.TakeWhile
import QueryGrammar.Proofs.Text.Words

namespace QueryGrammar.Text

/-! Texts between brackets.

Main statement: brackets become part of the words that they touch, so it makes a difference whether
a text is normalized with its brackets or without them just where a blank is next to a bracket.
-/

variable {text : String} {letters before : List Char} {c opening closing : Char}

/-- A character that is part of words and leaves the case of its neighbours alone. -/
structure Neutral (c : Char) : Prop where
  solid : isBlank c = false
  uncased : casedRanges.contains c = false
  lowered : lowerChar c = [c]
  noSigma : c ≠ 'Σ'

theorem neutral_opening : Neutral '\x7b' := by
  constructor <;> decide +kernel

theorem neutral_closing : Neutral '\x7d' := by
  constructor <;> decide +kernel

/-! Lower case next to a neutral character. -/

theorem meetsCased_append (neutral : Neutral c) : meetsCased (letters ++ [c]) = meetsCased letters := by
  unfold meetsCased
  rw [List.dropWhile_append]
  cases rest : letters.dropWhile caseIgnorableRanges.contains with
  | cons first others => rfl
  | nil =>
      simp only [List.isEmpty_nil, if_true]
      cases ignorable : caseIgnorableRanges.contains c with
      | true => simp [ignorable]
      | false => simpa [ignorable] using neutral.uncased

theorem lowerAfter_append_before (neutral : Neutral c) :
    lowerAfter (before ++ [c]) letters = lowerAfter before letters := by
  induction letters generalizing before with
  | nil => rfl
  | cons first rest ih =>
      rw [lowerAfter, lowerAfter, meetsCased_append neutral, ← List.cons_append, ih]

theorem lowerAfter_append (neutral : Neutral c) :
    lowerAfter before (letters ++ [c]) = lowerAfter before letters ++ [c] := by
  induction letters generalizing before with
  | nil => simp [lowerAfter, neutral.noSigma, neutral.lowered]
  | cons first rest ih =>
      rw [List.cons_append, lowerAfter, lowerAfter, ih, meetsCased_append neutral,
        List.append_assoc]

theorem lower_prepend (neutral : Neutral c) :
    lower (String.singleton c ++ text) = String.singleton c ++ lower text := by
  have behind : lowerAfter ([] ++ [c]) text.toList = lowerAfter [] text.toList :=
    lowerAfter_append_before neutral
  rw [List.nil_append] at behind
  apply String.toList_injective
  simp [lower, lowerAfter, neutral.noSigma, neutral.lowered, behind]

theorem lower_append (neutral : Neutral c) :
    lower (text ++ String.singleton c) = lower text ++ String.singleton c := by
  apply String.toList_injective
  simp [lower, lowerAfter_append neutral]

/-! Words next to a character that is not blank. -/

theorem spaced_prepend {front word : String} {rest : List String} :
    spaced ((front ++ word) :: rest) = front ++ spaced (word :: rest) := by
  cases rest with
  | nil => simp [spaced]
  | cons second others => simp only [spaced_cons_cons, String.append_assoc]

theorem spaced_extend {back word : String} {front : List String} :
    spaced (front ++ [word ++ back]) = spaced (front ++ [word]) ++ back := by
  cases front with
  | nil => simp [spaced]
  | cons first rest =>
      rw [spaced_append (List.cons_ne_nil _ _) (List.cons_ne_nil _ _),
        spaced_append (List.cons_ne_nil _ _) (List.cons_ne_nil _ _)]
      simp [spaced, String.append_assoc]

theorem startsBlank_append {more : List Char} (nonempty : letters ≠ []) :
    startsBlank (letters ++ more) = startsBlank letters := by
  obtain ⟨first, rest, rfl⟩ := List.exists_cons_of_ne_nil nonempty
  rfl

/-- Behind a word that is not ended, a character that is not blank belongs to that word. -/
theorem exists_words_append (solid : isBlank c = false)
    (ends : startsBlank letters.reverse = false) : ∃ front last,
      words letters = front ++ [last] ∧ words (letters ++ [c]) = front ++ [last ++ [c]] := by
  induction letters with
  | nil => cases ends
  | cons first rest ih =>
      cases rest with
      | nil =>
          have own : isBlank first = false := ends
          exact ⟨[], [first], words_of_solid (by simp) (by simp [own]),
            words_of_solid (by simp) (by simp [own, solid])⟩
      | cons second others =>
          have same : startsBlank (first :: second :: others).reverse =
              startsBlank (second :: others).reverse := by
            rw [List.reverse_cons]
            exact startsBlank_append (List.reverse_ne_nil_iff.2 (List.cons_ne_nil second others))
          obtain ⟨front, last, own, extended⟩ := ih (same ▸ ends)
          rw [List.cons_append]
          by_cases blank : isBlank first = true
          · exact ⟨front, last, (words_blank blank).trans own, (words_blank blank).trans extended⟩
          · have firstSolid : isBlank first = false := by simpa using blank
            have joined : startsBlank (second :: others ++ [c]) = startsBlank (second :: others) := rfl
            by_cases gap : startsBlank (second :: others) = true
            · refine ⟨[first] :: front, last, ?_, ?_⟩
              · rw [words_last firstSolid gap, own, List.cons_append]
              · rw [words_last firstSolid (joined.trans gap), extended, List.cons_append]
            · have more : startsBlank (second :: others) = false := by simpa using gap
              rw [words_more firstSolid more, own, words_more firstSolid (joined.trans more), extended]
              cases front with
              | nil => exact ⟨[], first :: last, rfl, rfl⟩
              | cons word between => exact ⟨(first :: word) :: between, last, rfl, rfl⟩

theorem normalize_prepend (neutral : Neutral c) (starts : startsBlank text.toList = false) :
    normalize (String.singleton c ++ text) = String.singleton c ++ normalize text := by
  obtain ⟨first, rest, found⟩ := List.exists_cons_of_ne_nil (words_ne_nil starts)
  have words : wordsOf (String.singleton c ++ text) =
      (String.singleton c ++ String.ofList first) :: rest.map String.ofList := by
    simp [wordsOf, words_more neutral.solid starts, found, extendWord, String.ofList_cons]
  rw [normalize_eq, normalize_eq, words, wordsOf, found, List.map_cons, List.map_cons, List.map_cons,
    lower_prepend neutral, spaced_prepend]

theorem normalize_append (neutral : Neutral c) (ends : startsBlank text.toList.reverse = false) :
    normalize (text ++ String.singleton c) = normalize text ++ String.singleton c := by
  obtain ⟨front, last, own, extended⟩ := exists_words_append neutral.solid ends
  have words : wordsOf (text ++ String.singleton c) =
      front.map String.ofList ++ [String.ofList last ++ String.singleton c] := by
    simp [wordsOf, extended, String.ofList_append]
  rw [normalize_eq, normalize_eq, words, wordsOf, own, List.map_append, List.map_append,
    List.map_append, List.map_singleton, List.map_singleton, List.map_singleton,
    lower_append neutral, spaced_extend]

/-! Blanks next to a bracket. -/

/-- Neither the first character is blank nor the last one. -/
structure Flush (letters : List Char) : Prop where
  starts : startsBlank letters = false
  ends : startsBlank letters.reverse = false

theorem Flush.ne_nil (flush : Flush letters) : letters ≠ [] := by
  rintro rfl
  cases flush.starts

theorem Flush.append_ends (flush : Flush letters) (more : List Char) :
    startsBlank (letters.reverse ++ more) = false :=
  (startsBlank_append (List.reverse_ne_nil_iff.2 flush.ne_nil)).trans flush.ends

theorem lower_singleton (neutral : Neutral c) : lower (String.singleton c) = String.singleton c := by
  have prepended : lower (String.singleton c ++ "") = String.singleton c ++ lower "" :=
    lower_prepend neutral
  simpa [lower, lowerAfter] using prepended

theorem normalize_prepend_blank (neutral : Neutral c) (starts : startsBlank text.toList = true)
    (nonblank : wordsOf text ≠ []) :
    normalize (String.singleton c ++ text) = String.singleton c ++ (" " ++ normalize text) := by
  obtain ⟨first, rest, found⟩ := List.exists_cons_of_ne_nil nonblank
  have words : wordsOf (String.singleton c ++ text) = String.singleton c :: wordsOf text := by
    simp [wordsOf, words_last neutral.solid starts]
  rw [normalize_eq, normalize_eq, words, found, List.map_cons, List.map_cons, lower_singleton neutral,
    spaced_cons_cons, String.append_assoc]

theorem normalize_append_blank (neutral : Neutral c) (ends : startsBlank text.toList.reverse = true)
    (nonblank : wordsOf text ≠ []) :
    normalize (text ++ String.singleton c) = normalize text ++ (" " ++ String.singleton c) := by
  have words : wordsOf (text ++ String.singleton c) = wordsOf text ++ [String.singleton c] := by
    have solid : words [c] = [[c]] := words_of_solid (by simp) (by simp [neutral.solid])
    cases reversed : text.toList.reverse with
    | nil => simp [wordsOf, List.reverse_eq_nil_iff.1 reversed, solid, words_nil]
    | cons blank before =>
        have letters : text.toList = before.reverse ++ [blank] := by
          simpa using congrArg List.reverse reversed
        rw [reversed] at ends
        have gap : isBlank blank = true := ends
        simp [wordsOf, letters, words_append_blank gap, solid, words_nil]
  rw [normalize_eq, normalize_eq, words, List.map_append, List.map_singleton, lower_singleton neutral,
    spaced_append (by simpa using nonblank) (List.cons_ne_nil _ _), String.append_assoc]
  rfl

/-- Normalized texts have no blank at either end. -/
theorem flush_normalize (nonblank : wordsOf text ≠ []) : Flush (normalize text).toList := by
  have solid : ∀ word ∈ (wordsOf text).map lower, word.toList ≠ [] ∧
      ∀ c ∈ word.toList, isBlank c = false := by
    rw [List.forall_mem_map]
    intro word member
    have itself : lower word ∈ wordsOf (lower word) := by
      rw [wordsOf_lower member]
      exact List.mem_singleton_self _
    obtain ⟨letters, found, same⟩ := List.mem_map.1 itself
    rw [← same, String.toList_ofList]
    exact words_solid found
  have starts : ∀ {letters more : List Char}, letters ≠ [] → (∀ c ∈ letters, isBlank c = false) →
      startsBlank (letters ++ more) = false := by
    intro letters more nonempty solid
    obtain ⟨first, rest, rfl⟩ := List.exists_cons_of_ne_nil nonempty
    exact solid first (List.mem_cons_self ..)
  rw [normalize_eq]
  constructor
  · obtain ⟨first, rest, found⟩ := List.exists_cons_of_ne_nil nonblank
    rw [found, List.map_cons] at solid ⊢
    obtain ⟨nonempty, own⟩ := solid _ (List.mem_cons_self ..)
    rw [← String.append_empty (s := lower first), spaced_prepend]
    simpa using starts nonempty own
  · obtain ⟨front, last, found⟩ := List.eq_nil_or_concat _ |>.resolve_left nonblank
    rw [found, List.concat_eq_append, List.map_append, List.map_singleton] at solid ⊢
    obtain ⟨nonempty, own⟩ := solid _ (List.mem_append_right _ (List.mem_singleton_self _))
    rw [← String.empty_append (s := lower last), spaced_extend]
    simpa using starts (List.reverse_ne_nil_iff.2 nonempty)
      fun c member => own c (List.mem_reverse.1 member)

/-- A text in brackets is normalized like another one, and this put in brackets, if and only if the
two are normalized alike and no blank of the first is next to a bracket. -/
theorem normalize_bracketed_iff {other : String} (neutral : Neutral opening)
    (also : Neutral closing) (nonblank : wordsOf text ≠ []) (nonblankOther : wordsOf other ≠ []) :
    normalize (String.singleton opening ++ text ++ String.singleton closing) =
        String.singleton opening ++ normalize other ++ String.singleton closing ↔
      Flush text.toList ∧ normalize text = normalize other := by
  have flush := flush_normalize nonblankOther
  have space : isBlank ' ' = true := by decide +kernel
  have some : wordsOf (String.singleton opening ++ text) ≠ [] := by
    have starts : startsBlank (opening :: text.toList) = false := neutral.solid
    simpa [wordsOf] using words_ne_nil starts
  have letters : text.toList.reverse ≠ [] := fun none =>
    nonblank (by simp [wordsOf, List.reverse_eq_nil_iff.1 none, words_nil])
  have behind : startsBlank (String.singleton opening ++ text).toList.reverse =
      startsBlank text.toList.reverse := by
    simpa using startsBlank_append letters
  constructor
  · intro same
    have ends : startsBlank text.toList.reverse = false := by
      refine Bool.eq_false_iff.2 fun blank => ?_
      rw [normalize_append_blank also (behind.trans blank) some] at same
      have last : ' ' :: (normalize (String.singleton opening ++ text)).toList.reverse =
          (normalize other).toList.reverse ++ [opening] := by
        simpa using congrArg (fun text => text.toList.reverse) same
      have closes := flush.append_ends [opening]
      rw [← last, startsBlank_cons, space] at closes
      cases closes
    rw [normalize_append also (behind.trans ends)] at same
    have inner : normalize (String.singleton opening ++ text) =
        String.singleton opening ++ normalize other := by
      apply String.toList_injective
      refine (List.append_left_inj [closing]).1 ?_
      simpa using congrArg String.toList same
    have starts : startsBlank text.toList = false := by
      refine Bool.eq_false_iff.2 fun blank => ?_
      rw [normalize_prepend_blank neutral blank nonblank] at inner
      have first : ' ' :: (normalize text).toList = (normalize other).toList := by
        simpa using congrArg String.toList inner
      have opens := flush.starts
      rw [← first, startsBlank_cons, space] at opens
      cases opens
    rw [normalize_prepend neutral starts] at inner
    refine ⟨⟨starts, ends⟩, String.toList_injective ?_⟩
    simpa using congrArg String.toList inner
  · rintro ⟨⟨starts, ends⟩, same⟩
    rw [normalize_append also (behind.trans ends), normalize_prepend neutral starts, same]

theorem dropWhile_isBlank_eq_self_iff (nonempty : letters ≠ []) :
    letters.dropWhile isBlank = letters ↔ startsBlank letters = false := by
  obtain ⟨first, rest, rfl⟩ := List.exists_cons_of_ne_nil nonempty
  simp [List.dropWhile_eq_self_iff, startsBlank]

/-- Trimming leaves a text alone if no blank is at either end. -/
theorem trim_eq_self_iff (nonempty : letters ≠ []) : trim letters = letters ↔ Flush letters := by
  have reversed := dropWhile_isBlank_eq_self_iff (List.reverse_ne_nil_iff.2 nonempty)
  constructor
  · intro same
    have suffix := List.dropWhile_suffix isBlank (l := letters)
    have shorter : (trim letters).length ≤ (letters.dropWhile isBlank).length := by
      have rest := (List.dropWhile_suffix isBlank (l := (letters.dropWhile isBlank).reverse)).length_le
      rwa [List.length_reverse, ← List.length_reverse] at rest
    rw [same] at shorter
    have whole := suffix.eq_of_length (Nat.le_antisymm suffix.length_le shorter)
    refine ⟨(dropWhile_isBlank_eq_self_iff nonempty).1 whole, reversed.1 ?_⟩
    rw [trim, whole] at same
    exact List.reverse_eq_iff.1 same
  · intro flush
    rw [trim, (dropWhile_isBlank_eq_self_iff nonempty).2 flush.starts, reversed.2 flush.ends,
      List.reverse_reverse]

end QueryGrammar.Text
