import Mathlib.Data.List.Basic
import QueryGrammar.Text.Case

namespace QueryGrammar.Text

/-! The words of texts that are put together from words.

Main statement: texts joined by spaces have the words of all of them, in order.
-/

variable {text word : String} {front back letters : List Char} {c : Char}

theorem words_ne_nil (starts : startsBlank letters = false) : words letters ≠ [] := by
  cases letters with
  | nil => cases starts
  | cons c rest =>
      rw [startsBlank_cons] at starts
      by_cases ends : startsBlank rest = true
      · simp [words_last starts ends]
      · rw [words_more starts (by simpa using ends)]
        cases words rest <;> simp [extendWord]

theorem words_nil : words [] = [] :=
  rfl

theorem words_eq_nil_iff : words letters = [] ↔ letters.all isBlank = true := by
  induction letters with
  | nil => simp [words_nil]
  | cons c rest ih =>
      by_cases blank : isBlank c = true
      · simp [words_blank blank, ih, blank]
      · have solid : startsBlank (c :: rest) = false := by simpa [startsBlank] using blank
        simp [words_ne_nil solid, blank]

theorem wordsOf_ne_nil (nonblank : isBlankText text = false) : wordsOf text ≠ [] := by
  intro none
  rw [isBlankText, words_eq_nil_iff.1 (List.map_eq_nil_iff.1 none)] at nonblank
  cases nonblank

theorem extendWord_append {first second : List (List Char)} (nonempty : first ≠ []) :
    extendWord c (first ++ second) = extendWord c first ++ second := by
  cases first with
  | nil => exact absurd rfl nonempty
  | cons word rest => rfl

/-- A blank ends a word, if there is one, and is part of none. -/
theorem words_append_blank (blank : isBlank c = true) :
    words (front ++ c :: back) = words front ++ words back := by
  induction front with
  | nil => simp [words_blank blank, words]
  | cons first rest ih =>
      rw [List.cons_append]
      by_cases firstBlank : isBlank first = true
      · rw [words_blank firstBlank, words_blank firstBlank, ih]
      · have solid : isBlank first = false := by simpa using firstBlank
        have same : startsBlank (rest ++ c :: back) = startsBlank rest := by
          cases rest with
          | nil => exact blank
          | cons second others => rfl
        by_cases ends : startsBlank rest = true
        · rw [words_last solid ends, words_last solid (same.trans ends), ih, List.cons_append]
        · have more : startsBlank rest = false := by simpa using ends
          rw [words_more solid more, words_more solid (same.trans more), ih,
            extendWord_append (words_ne_nil more)]

theorem words_of_solid (nonempty : letters ≠ []) (solid : ∀ c ∈ letters, isBlank c = false) :
    words letters = [letters] := by
  induction letters with
  | nil => exact absurd rfl nonempty
  | cons first rest ih =>
      obtain ⟨own, others⟩ := List.forall_mem_cons.1 solid
      cases rest with
      | nil => rw [words_last own rfl, words]
      | cons second more =>
          have joined : startsBlank (second :: more) = false := others second (List.mem_cons_self ..)
          rw [words_more own joined, ih (by simp) others, extendWord]

theorem wordsOf_word (member : word ∈ wordsOf text) : wordsOf word = [word] := by
  obtain ⟨letters, found, rfl⟩ := List.mem_map.1 member
  obtain ⟨nonempty, solid⟩ := words_solid found
  simp [wordsOf, words_of_solid nonempty solid]

theorem word_ne_empty (member : word ∈ wordsOf text) : word ≠ "" := by
  rintro rfl
  have none := wordsOf_word member
  simp [wordsOf, words] at none

theorem spaced_cons_cons {first second : String} {rest : List String} :
    spaced (first :: second :: rest) = first ++ " " ++ spaced (second :: rest) := by
  simp [spaced, String.intercalate_cons_cons]

theorem spaced_append {left right : List String} (leftNonempty : left ≠ [])
    (rightNonempty : right ≠ []) :
    spaced (left ++ right) = spaced left ++ " " ++ spaced right := by
  induction left with
  | nil => exact absurd rfl leftNonempty
  | cons first rest ih =>
      cases rest with
      | nil =>
          obtain ⟨second, others, rfl⟩ := List.exists_cons_of_ne_nil rightNonempty
          rw [List.singleton_append, spaced_cons_cons]
          simp [spaced]
      | cons second others =>
          rw [List.cons_append, List.cons_append, spaced_cons_cons, spaced_cons_cons,
            ← List.cons_append, ih (by simp)]
          simp only [String.append_assoc]

/-- Joining by spaces neither splits nor joins words. -/
theorem wordsOf_spaced (texts : List String) : wordsOf (spaced texts) = texts.flatMap wordsOf := by
  induction texts with
  | nil => simp [spaced, wordsOf, words]
  | cons first rest ih =>
      cases rest with
      | nil => simp [spaced]
      | cons second others =>
          have space : isBlank ' ' = true := by decide +kernel
          rw [List.flatMap_cons, ← ih, spaced_cons_cons]
          simp [wordsOf, words_append_blank space]

theorem normalize_eq (text : String) : normalize text = spaced ((wordsOf text).map lower) := by
  simp [normalize, spaced, wordsOf, lower, Function.comp_def]

theorem normalize_spaced {words : List String} (solid : ∀ word ∈ words, wordsOf word = [word]) :
    normalize (spaced words) = spaced (words.map lower) := by
  rw [normalize_eq, wordsOf_spaced, List.flatMap_congr solid, List.flatMap_singleton']

theorem lowerChar_ne_nil (c : Char) : lowerChar c ≠ [] := by
  unfold lowerChar
  split
  · simp
  · split
    · simp
    · split <;> simp

theorem lower_ne_empty (nonempty : text ≠ "") : lower text ≠ "" := by
  rw [lower, Ne, String.ofList_eq_empty_iff]
  cases letters : text.toList with
  | nil => exact absurd (String.toList_eq_nil_iff.1 letters) nonempty
  | cons c rest =>
      rw [lowerAfter]
      intro empty
      obtain ⟨none, -⟩ := List.append_eq_nil_iff.1 empty
      split at none
      · split at none <;> cases none
      · exact lowerChar_ne_nil c none

/-! Lower case neither divides a word nor loses it. -/

theorem isBlank_ofNat {code : Nat}
    (apart : ∀ range ∈ blankRanges.toList, code < range.1 ∨ range.2 < code) :
    isBlank (Char.ofNat code) = false := by
  by_cases valid : code.isValidChar
  · have same : (Char.ofNat code).toNat = code := by
      rw [Char.ofNat, dif_pos valid]
      rfl
    rw [isBlank, Ranges.contains, ← Array.any_toList, List.any_eq_false]
    intro range member
    have outside := apart range member
    rw [same, Bool.and_eq_true, decide_eq_true_eq, decide_eq_true_eq]
    omega
  · have zero : Char.ofNat code = Char.ofNat 0 := by
      rw [Char.ofNat, dif_neg valid]
      rfl
    rw [zero]
    decide +kernel

theorem isBlank_toLower {c : Char} (ascii : c.toNat < 0x80) (solid : isBlank c = false) :
    isBlank c.toLower = false := by
  have all : ∀ code : Fin 0x80, isBlank (Char.ofNat code) = false →
      isBlank (Char.ofNat code).toLower = false := by
    decide +kernel
  have own := all ⟨c.toNat, ascii⟩
  rw [Char.ofNat_toNat] at own
  exact own solid

theorem isBlank_target {run : CaseRun} (member : run ∈ lowerRuns) {distance : Nat}
    (inside : distance ≤ run.high - run.low) :
    isBlank (Char.ofNat (run.target + distance)) = false := by
  have apart : ∀ run ∈ lowerRuns.toList, ∀ range ∈ blankRanges.toList,
      run.target + (run.high - run.low) < range.1 ∨ range.2 < run.target := by
    decide +kernel
  refine isBlank_ofNat fun range isRange => ?_
  have own := apart run member.val range isRange
  omega

theorem isBlank_lowerChar {c lowered : Char} (solid : isBlank c = false)
    (member : lowered ∈ lowerChar c) : isBlank lowered = false := by
  unfold lowerChar at member
  split at member
  · rename_i ascii
    rw [List.mem_singleton.1 member]
    exact isBlank_toLower ascii solid
  · split at member
    · have both : isBlank 'i' = false ∧ isBlank '\u0307' = false := by decide +kernel
      simp only [List.mem_cons, List.not_mem_nil, or_false] at member
      rcases member with rfl | rfl
      · exact both.1
      · exact both.2
    · split at member
      · rename_i run found
        rw [List.mem_singleton.1 member]
        have holds := Array.find?_some found
        simp only [Bool.and_eq_true, decide_eq_true_eq] at holds
        exact isBlank_target (Array.mem_of_find?_eq_some found) (by omega)
      · rw [List.mem_singleton.1 member]
        exact solid

theorem isBlank_lowerAfter {before : List Char} (solid : ∀ c ∈ letters, isBlank c = false) :
    ∀ lowered ∈ lowerAfter before letters, isBlank lowered = false := by
  induction letters generalizing before with
  | nil => simp [lowerAfter]
  | cons c rest ih =>
      obtain ⟨own, others⟩ := List.forall_mem_cons.1 solid
      rw [lowerAfter, List.forall_mem_append]
      refine ⟨fun lowered member => ?_, ih others⟩
      split at member
      · have sigmas : isBlank 'ς' = false ∧ isBlank 'σ' = false := by decide +kernel
        split at member
        · rw [List.mem_singleton.1 member]
          exact sigmas.1
        · rw [List.mem_singleton.1 member]
          exact sigmas.2
      · exact isBlank_lowerChar own member

/-- A word in lower case is one word. -/
theorem wordsOf_lower (member : word ∈ wordsOf text) : wordsOf (lower word) = [lower word] := by
  obtain ⟨letters, found, rfl⟩ := List.mem_map.1 member
  have nonempty := lower_ne_empty (word_ne_empty member)
  obtain ⟨-, solid⟩ := words_solid found
  rw [lower, String.toList_ofList] at nonempty ⊢
  rw [wordsOf, String.toList_ofList, words_of_solid (fun none => nonempty (by rw [none]))
    (isBlank_lowerAfter solid), List.map_singleton]

end QueryGrammar.Text
