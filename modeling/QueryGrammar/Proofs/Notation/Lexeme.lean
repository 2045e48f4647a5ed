import Mathlib.Data.List.TakeWhile
import QueryGrammar.Grammar.Notation.Lexeme
import QueryGrammar.Proofs.Grammar.Rules

namespace QueryGrammar.Notation

/-! The smallest parts of the grammar notation as they are written.

What is written is a relation between a text and what is left of it.

Main statement: names and words are read just if they are written, and what is skipped is the gap.
-/

/-- Blanks and comments up to something else.  A comment runs from two slashes to the end of its
line. -/
inductive Gap : List Char → List Char → Prop
  | stop {rest : List Char} (solid : ∀ c ∈ rest.head?, Text.isBlank c = false)
      (plain : ¬ ['/', '/'] <+: rest) : Gap rest rest
  | blank {c : Char} {text rest : List Char} (blank : Text.isBlank c = true) (more : Gap text rest) :
      Gap (c :: text) rest
  | comment {line text rest : List Char} (within : '\n' ∉ line) (ends : ∀ c ∈ text.head?, c = '\n')
      (more : Gap text rest) : Gap ('/' :: '/' :: (line ++ text)) rest

/-- A gap, and one comma behind it if there is one. -/
inductive Separator (text rest : List Char) : Prop
  | comma (gap : Gap text (',' :: rest))
  | none (gap : Gap text rest) (absent : rest.head? ≠ some ',')

/-- A longest run of characters in a class. -/
structure Run (inClass : Char → Bool) (read : String) (text rest : List Char) : Prop where
  whole : text = read.toList ++ rest
  nonempty : read.toList ≠ []
  inside : ∀ c ∈ read.toList, inClass c = true
  ends : ∀ c ∈ rest.head?, inClass c = false

abbrev Name : String → List Char → List Char → Prop :=
  Run isNameChar

/-- A bare word, or whatever stands between two quotes. -/
inductive Word (word : String) (text rest : List Char) : Prop
  | bare (run : Run isBareChar word text rest)
  | quoted (within : '"' ∉ word.toList) (whole : text = '"' :: (word.toList ++ '"' :: rest))

variable {text more rest line : List Char} {c : Char} {inClass : Char → Bool}
  {what read word name : String}

/-! Gaps. -/

/-- Two slashes have no meaning within a comment. -/
theorem skipFrom_true_cons (c : Char) (text : List Char) :
    skipFrom true (c :: text) = skipFrom (c != '\n') text := by
  induction text generalizing c with
  | nil => simp [skipFrom]
  | cons next text ih =>
      by_cases slashes : c = '/' ∧ next = '/'
      · obtain ⟨rfl, rfl⟩ := slashes
        rw [skipFrom]
        exact (ih '/').symm
      · rw [skipFrom]
        · rfl
        · rintro other rfl same
          exact slashes ⟨rfl, (List.cons.inj same).1⟩

theorem skip_blank (blank : Text.isBlank c = true) : skip (c :: text) = skip text := by
  rw [skip, skipFrom, if_neg Bool.false_ne_true, if_pos blank, skip]
  rintro other rfl
  exact absurd blank (by decide +kernel)

theorem skip_solid (solid : ∀ c ∈ rest.head?, Text.isBlank c = false)
    (plain : ¬ ['/', '/'] <+: rest) : skip rest = rest := by
  cases rest with
  | nil => rfl
  | cons c rest =>
      rw [skip, skipFrom, if_neg Bool.false_ne_true, if_neg]
      · simpa using solid
      · rintro other rfl rfl
        exact plain ⟨other, rfl⟩

/-- A comment is skipped to the end of its line. -/
theorem skipFrom_comment (within : '\n' ∉ line) (ends : ∀ c ∈ text.head?, c = '\n') :
    skipFrom true (line ++ text) = skip text := by
  induction line with
  | nil =>
      cases text with
      | nil => rfl
      | cons c text =>
          obtain rfl : c = '\n' := by simpa using ends
          rw [List.nil_append, skipFrom_true_cons, skip_blank (by decide +kernel)]
          rfl
  | cons c line ih =>
      obtain ⟨other, later⟩ := List.ne_and_not_mem_of_not_mem_cons within
      rw [List.cons_append, skipFrom_true_cons, bne_iff_ne.2 (Ne.symm other), ih later]

theorem Gap.skip_eq (gap : Gap text rest) : skip text = rest := by
  induction gap with
  | stop solid plain => exact skip_solid solid plain
  | blank blank _ ih => rw [skip_blank blank, ih]
  | comment within ends _ ih => rw [skip, skipFrom, skipFrom_comment within ends, ih]

theorem ends_dropWhile (inClass : Char → Bool) (text : List Char) :
    ∀ c ∈ (text.dropWhile inClass).head?, inClass c = false := by
  intro c member
  have ends := List.head?_dropWhile_not inClass text
  rw [Option.mem_def.1 member] at ends
  exact ends

theorem gap_skip (text : List Char) : Gap text (skip text) := by
  -- On the length, as a comment drops a whole line at once.
  induction length : text.length using Nat.strongRecOn generalizing text with
  | ind n ih =>
    subst length
    by_cases comment : ['/', '/'] <+: text
    · obtain ⟨after, rfl⟩ := comment
      have within : '\n' ∉ after.takeWhile (· != '\n') := fun member =>
        absurd (List.mem_takeWhile_imp member) (by decide)
      have ends : ∀ c ∈ (after.dropWhile (· != '\n')).head?, c = '\n' := fun c member => by
        simpa using ends_dropWhile _ after c member
      have shorter : (after.dropWhile (· != '\n')).length < after.length + 2 :=
        Nat.lt_add_right 1 (Nat.lt_succ_of_le (List.dropWhile_suffix _).length_le)
      have gap := Gap.comment within ends (ih _ shorter _ rfl)
      rwa [← skipFrom_comment within ends, List.takeWhile_append_dropWhile] at gap
    · cases text with
      | nil => exact .stop (by simp) comment
      | cons c text =>
          cases blank : Text.isBlank c with
          | true => rw [skip_blank blank]; exact .blank blank (ih _ (Nat.lt_succ_self _) _ rfl)
          | false =>
              have solid : ∀ first ∈ (c :: text).head?, Text.isBlank first = false := by simpa
              rw [skip_solid solid comment]
              exact .stop solid comment

/-- What is skipped is the gap, and nothing else. -/
theorem gap_iff : Gap text rest ↔ skip text = rest :=
  ⟨Gap.skip_eq, fun same => same ▸ gap_skip text⟩

theorem length_of_skip_eq (begun : skip text = c :: more) : more.length < text.length := by
  have shrinks := skip_length_le text
  rwa [begun] at shrinks

theorem separator_iff : Separator text rest ↔ skipComma (skip text) = rest := by
  constructor
  · rintro (gap | ⟨gap, absent⟩)
    · rw [gap.skip_eq, skipComma]
    · rw [gap.skip_eq, skipComma]
      rintro more rfl
      exact absent rfl
  · rintro rfl
    have gap := gap_skip text
    unfold skipComma
    split
    · rename_i more behind
      exact .comma (behind ▸ gap)
    · rename_i absent
      refine .none gap fun comma => ?_
      obtain ⟨more, behind⟩ := List.head?_eq_some_iff.1 comma
      exact absent more behind

theorem close?_iff : (∃ left, close? c text = some left ∧ left.chars = rest) ↔
    Gap text (c :: rest) := by
  rw [gap_iff]
  unfold close?
  split
  · rename_i behind
    simp [behind]
  · rename_i first more behind
    split
    · rename_i same
      simp [behind, same]
    · rename_i other
      simp [behind, other]

theorem close?_eq_none (close : Char) (gap : Gap text rest) (other : rest.head? ≠ some close) :
    close? close text = none := by
  cases found : close? close text with
  | none => rfl
  | some left =>
      have closed := close?_iff.1 ⟨left, found, rfl⟩
      rw [← gap.skip_eq, closed.skip_eq] at other
      exact absurd rfl other

/-! Readers and what they accept. -/

/-- A reader returns values just where they are written, and leaves what is behind them. -/
def Exact (read : (text : List Char) → Reading α text)
    (written : α → List Char → List Char → Prop) : Prop :=
  ∀ text value rest, (∃ left, read text = .ok (value, left) ∧ left.chars = rest) ↔
    written value text rest

namespace Exact

variable {α : Type} {read : (text : List Char) → Reading α text}
  {written : α → List Char → List Char → Prop} {value : α}

theorem of_sound_complete
    (sound : ∀ text, Ensures (fun found => written found.1 text found.2.chars) (read text))
    (complete : ∀ value text rest, written value text rest →
      ∃ left, read text = .ok (value, left) ∧ left.chars = rest) : Exact read written := by
  refine fun text value rest => ⟨?_, complete value text rest⟩
  rintro ⟨left, found, rfl⟩
  exact sound text _ found

theorem sound (exact : Exact read written) (text : List Char) :
    Ensures (fun found => written found.1 text found.2.chars) (read text) :=
  fun found ok => (exact text found.1 found.2.chars).1 ⟨found.2, ok, rfl⟩

theorem complete (exact : Exact read written) (given : written value text rest) :
    ∃ left, read text = .ok (value, left) ∧ left.chars = rest :=
  (exact text value rest).2 given

end Exact

/-- What a reader leaves is an end of the text, and not all of it. -/
def Shortens (read : (text : List Char) → Reading α text) : Prop :=
  ∀ text, Ensures (fun found => found.2.chars <:+ text ∧ found.2.chars.length < text.length)
    (read text)

theorem shortens (read : (text : List Char) → Reading α text) : Shortens read :=
  fun _ found _ => ⟨found.2.suffix, found.2.shorter⟩

theorem span_append {front : List Char} (inside : ∀ c ∈ front, inClass c = true)
    (ends : ∀ c ∈ rest.head?, inClass c = false) :
    (front ++ rest).takeWhile inClass = front ∧ (front ++ rest).dropWhile inClass = rest := by
  rw [List.takeWhile_append_of_pos inside, List.dropWhile_append_of_pos inside]
  cases rest with
  | nil => simp
  | cons c rest =>
      have outside : inClass c = false := by simpa using ends
      simp [outside]

theorem readSpan_exact (what : String) (inClass : Char → Bool) :
    Exact (readSpan what inClass) (Run inClass) := by
  refine .of_sound_complete (fun text => ?_) fun read text rest run => ?_
  · unfold readSpan
    split
    · exact .error
    · split
      · rename_i first rest own
        refine .ok ⟨?_, ?_, ?_, ends_dropWhile _ _⟩
        · rw [String.toList_ofList, List.cons_append, List.takeWhile_append_dropWhile]
        · simp
        · rw [String.toList_ofList]
          exact List.forall_mem_cons.2 ⟨own, fun c member => List.mem_takeWhile_imp member⟩
      · exact .error
  · obtain ⟨rfl, nonempty, inside, ends⟩ := run
    obtain ⟨first, others, start⟩ := List.exists_cons_of_ne_nil nonempty
    rw [start] at inside ⊢
    obtain ⟨own, inside⟩ := List.forall_mem_cons.1 inside
    obtain ⟨taken, dropped⟩ := span_append inside ends
    rw [List.cons_append, readSpan, if_pos own, taken, ← start, String.ofList_toList]
    exact ⟨_, rfl, dropped⟩

theorem Run.head?_ne (run : Run inClass read text rest) (outside : inClass c = false) :
    text.head? ≠ some c := by
  obtain ⟨rfl, nonempty, inside, -⟩ := run
  obtain ⟨first, others, start⟩ := List.exists_cons_of_ne_nil nonempty
  have own : inClass first = true := inside first (start ▸ List.mem_cons_self)
  rw [start]
  rintro ⟨⟩
  exact absurd own (ne_true_of_eq_false outside)

theorem readName_exact : Exact readName Name :=
  readSpan_exact "name" isNameChar

theorem readChar_exact (c : Char) :
    Exact (readChar c) fun _ text rest => text = c :: rest := by
  refine .of_sound_complete (fun text => ?_) fun read text rest same => ?_
  · unfold readChar
    split
    · exact .error
    · split
      · rename_i same
        exact .ok (by rw [same])
      · exact .error
  · subst same
    exact ⟨_, by rw [readChar, if_pos rfl], rfl⟩

theorem afterQuote?_iff : (∃ left, afterQuote? text = some left ∧ left.chars = rest) ↔
    text.dropWhile (· != '"') = '"' :: rest := by
  induction text with
  | nil => simp [afterQuote?]
  | cons c text ih =>
      by_cases quote : c = '"'
      · simp [afterQuote?, quote]
      · rw [List.dropWhile_cons, if_pos (bne_iff_ne.2 quote), ← ih, afterQuote?, if_neg quote]
        constructor
        · rintro ⟨left, found, rfl⟩
          split at found
          · rename_i inner after
            cases found
            exact ⟨inner, after, rfl⟩
          · cases found
        · rintro ⟨left, found, rfl⟩
          rw [found]
          exact ⟨_, rfl, rfl⟩

/-- A word between quotes ends at the next quote. -/
theorem readWord_quoted (inside : List Char) :
    (∃ left, readWord ('"' :: inside) = .ok (word, left) ∧ left.chars = rest) ↔
      '"' ∉ word.toList ∧ inside = word.toList ++ '"' :: rest := by
  rw [readWord]
  constructor
  · rintro ⟨left, found, rfl⟩
    split at found
    · rename_i inner after
      cases found
      have behind := afterQuote?_iff.1 ⟨inner, after, rfl⟩
      rw [String.toList_ofList]
      refine ⟨fun member => absurd (List.mem_takeWhile_imp member) (by decide), ?_⟩
      exact (List.takeWhile_append_dropWhile ..).symm.trans (congrArg _ behind)
    · cases found
  · rintro ⟨without, rfl⟩
    have plain : ∀ c ∈ word.toList, (c != '"') = true := fun c member =>
      bne_iff_ne.2 fun same => without (same ▸ member)
    have quote : ∀ c ∈ ('"' :: rest).head?, (c != '"') = false := by simp
    obtain ⟨taken, dropped⟩ := span_append plain quote
    obtain ⟨left, found, behind⟩ := afterQuote?_iff.2 dropped
    rw [found, taken, String.ofList_toList]
    exact ⟨_, rfl, behind⟩

theorem Word.head?_ne (written : Word word text rest) (outside : isBareChar c = false)
    (plain : c ≠ '"') : text.head? ≠ some c := by
  rcases written with run | ⟨-, rfl⟩
  · exact run.head?_ne outside
  · rintro ⟨⟩
    exact plain rfl

theorem readWord_exact : Exact readWord Word := by
  intro text word rest
  by_cases quote : ∃ inside, text = '"' :: inside
  · obtain ⟨inside, rfl⟩ := quote
    rw [readWord_quoted]
    constructor
    · rintro ⟨without, rfl⟩
      exact .quoted without rfl
    · rintro (run | ⟨without, whole⟩)
      · exact absurd rfl (run.head?_ne (by decide +kernel))
      · exact ⟨without, (List.cons.inj whole).2⟩
  · have bare : readWord text = readSpan "value" isBareChar text := by
      unfold readWord
      split
      · exact absurd ⟨_, rfl⟩ quote
      · rfl
    rw [bare, readSpan_exact]
    constructor
    · exact .bare
    · rintro (run | ⟨-, rfl⟩)
      · exact run
      · exact absurd ⟨_, rfl⟩ quote

end QueryGrammar.Notation
