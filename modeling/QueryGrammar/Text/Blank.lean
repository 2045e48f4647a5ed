import QueryGrammar.Text.Ranges

namespace QueryGrammar.Text

/-! Blank characters, and what words and lines are in their terms.

A word is a longest run of characters that are not blank, so `words` of a text is the list of its
words in order and no word is empty.  Lines end at a line feed, and a carriage return before that
line feed belongs to the ending.
-/

/-- The characters with the White_Space property. -/
def blankRanges : Ranges := #[
    (0x9, 0xd), (0x20, 0x20), (0x85, 0x85), (0xa0, 0xa0), (0x1680, 0x1680), (0x2000, 0x200a),
    (0x2028, 0x2029), (0x202f, 0x202f), (0x205f, 0x205f), (0x3000, 0x3000)]

def isBlank (c : Char) : Bool :=
  blankRanges.contains c

def startsBlank : List Char → Bool
  | [] => true
  | c :: _ => isBlank c

/-- Puts a character in front of the first word. -/
def extendWord (c : Char) : List (List Char) → List (List Char)
  | [] => [[c]]
  | word :: rest => (c :: word) :: rest

def words : List Char → List (List Char)
  | [] => []
  | c :: rest =>
      if isBlank c then words rest
      else if startsBlank rest then [c] :: words rest
      else extendWord c (words rest)

/-- The words of a text, in order. -/
def wordsOf (text : String) : List String :=
  (words text.toList).map String.ofList

/-- The words, with one space between neighbours. -/
def spaced (ws : List String) : String :=
  String.intercalate " " ws

def trim (text : List Char) : List Char :=
  ((text.dropWhile isBlank).reverse.dropWhile isBlank).reverse

def trimmed (text : String) : String :=
  String.ofList (trim text.toList)

def isBlankText (text : String) : Bool :=
  text.toList.all isBlank

/-- Reads one line after its characters so far, which come last first. -/
def linesAfter (line : List Char) : List Char → List (List Char)
  | [] => if line.isEmpty then [] else [line.reverse]
  | '\n' :: rest =>
      let ended := match line with
        | '\r' :: before => before
        | whole => whole
      ended.reverse :: linesAfter [] rest
  | c :: rest => linesAfter (c :: line) rest

def lines (text : List Char) : List (List Char) :=
  linesAfter [] text

def linesOf (text : String) : List String :=
  (lines text.toList).map String.ofList

theorem startsBlank_cons {c : Char} {rest : List Char} :
    startsBlank (c :: rest) = isBlank c := rfl

theorem words_blank {c : Char} {rest : List Char} (blank : isBlank c = true) :
    words (c :: rest) = words rest := by
  simp [words, blank]

theorem words_last {c : Char} {rest : List Char} (solid : isBlank c = false)
    (ends : startsBlank rest = true) : words (c :: rest) = [c] :: words rest := by
  simp [words, solid, ends]

theorem words_more {c : Char} {rest : List Char} (solid : isBlank c = false)
    (more : startsBlank rest = false) : words (c :: rest) = extendWord c (words rest) := by
  simp [words, solid, more]

/-- Every word is nonempty and holds no blank. -/
theorem words_solid {text word : List Char} (found : word ∈ words text) :
    word ≠ [] ∧ ∀ c ∈ word, isBlank c = false := by
  induction text generalizing word with
  | nil => simp [words] at found
  | cons c rest step =>
      by_cases blank : isBlank c = true
      · rw [words_blank blank] at found
        exact step found
      · have solid : isBlank c = false := by simpa using blank
        by_cases ends : startsBlank rest = true
        · rw [words_last solid ends] at found
          rcases List.mem_cons.1 found with same | later
          · subst same
            simp [solid]
          · exact step later
        · have more : startsBlank rest = false := by simpa using ends
          rw [words_more solid more] at found
          cases split : words rest with
          | nil =>
              rw [split] at found
              simp only [extendWord, List.mem_singleton] at found
              subst found
              simp [solid]
          | cons first others =>
              rw [split] at found
              rcases List.mem_cons.1 found with same | later
              · subst same
                have inner := @step first (by simp [split])
                simpa [solid] using inner.2
              · exact step (by simp [split, later])

end QueryGrammar.Text
