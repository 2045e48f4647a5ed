import QueryGrammar.Grammar.Error
import QueryGrammar.Text.Blank

namespace QueryGrammar.Notation

/-! The smallest parts of the grammar notation.

A reader that succeeds returns what it read and what is left of the text.  What is left is always
an end of the text, and a proper one wherever something has to be read.
-/

/-- What is left of a text after reading at least one character of it. -/
structure Rest (text : List Char) where
  chars : List Char
  suffix : chars <:+ text
  shorter : chars.length < text.length

abbrev Reading (α : Type) (text : List Char) := Except GrammarError (α × Rest text)

namespace Rest

variable {text : List Char}

/-- What is left of an end of a text is left of the text. -/
def within {inner : List Char} (rest : Rest inner) (ends : inner <:+ text) : Rest text :=
  ⟨rest.chars, rest.suffix.trans ends, Nat.lt_of_lt_of_le rest.shorter ends.length_le⟩

/-- What is left of a text behind a character. -/
def behind (c : Char) (rest : Rest text) : Rest (c :: text) :=
  rest.within (List.suffix_cons c text)

/-- Reads on, perhaps nothing. -/
def advance (rest : Rest text) {further : List Char} (ends : further <:+ rest.chars) :
    Rest text :=
  ⟨further, ends.trans rest.suffix, Nat.lt_of_le_of_lt ends.length_le rest.shorter⟩

/-- Reads on. -/
def further (rest : Rest text) (next : Rest rest.chars) : Rest text :=
  rest.advance next.suffix

end Rest

def fail (error : NotationError) : Except GrammarError α :=
  .error (.badNotation error)

/-- The beginning of a text, as messages quote it. -/
def context (text : List Char) : String :=
  String.ofList (text.take 40)

def expected (what : String) (text : List Char) : Except GrammarError α :=
  fail (.expected what (context text))

/-- Skips blanks and comments; a comment runs from two slashes to the end of its line. -/
def skipFrom (inComment : Bool) : List Char → List Char
  | [] => []
  | '/' :: '/' :: rest => skipFrom true rest
  | c :: rest =>
      if inComment then skipFrom (c != '\n') rest
      else if Text.isBlank c then skipFrom false rest
      else c :: rest

def skip (text : List Char) : List Char :=
  skipFrom false text

theorem skipFrom_suffix (inComment : Bool) (text : List Char) :
    skipFrom inComment text <:+ text := by
  fun_induction skipFrom inComment text with
  | case1 => exact List.suffix_refl _
  | case2 _ rest step => exact step.trans ⟨['/', '/'], rfl⟩
  | case3 c rest _ step => exact step.trans (List.suffix_cons _ _)
  | case4 _ c rest _ _ _ step => exact step.trans (List.suffix_cons _ _)
  | case5 => exact List.suffix_refl _

theorem skip_suffix (text : List Char) : skip text <:+ text :=
  skipFrom_suffix false text

theorem skip_length_le (text : List Char) : (skip text).length ≤ text.length :=
  (skip_suffix text).length_le

/-- Skips one comma, if there is one. -/
def skipComma : List Char → List Char
  | ',' :: rest => rest
  | text => text

theorem skipComma_suffix (text : List Char) : skipComma text <:+ text := by
  unfold skipComma
  split
  · exact List.suffix_cons _ _
  · exact List.suffix_refl _

theorem skipComma_skip_suffix (text : List Char) : skipComma (skip text) <:+ text :=
  (skipComma_suffix _).trans (skip_suffix _)

/-- Skips to a closing character and reads it, if it comes next. -/
def close? (close : Char) (text : List Char) : Option (Rest text) :=
  match closed : skip text with
  | [] => none
  | c :: rest =>
      if c = close then
        some ⟨rest, (List.suffix_cons c rest).trans (closed ▸ skip_suffix text), by
          have shrinks := skip_length_le text
          rw [closed] at shrinks
          exact shrinks⟩
      else none

def readChar (c : Char) (text : List Char) : Reading Unit text :=
  match text with
  | [] => expected (String.ofList ['\'', c, '\'']) []
  | first :: rest =>
      if first = c then
        .ok ((), ⟨rest, List.suffix_cons _ _, Nat.lt_succ_self _⟩)
      else expected (String.ofList ['\'', c, '\'']) (first :: rest)

/-- Reads the longest nonempty beginning of characters in a class. -/
def readSpan (what : String) (inClass : Char → Bool) (text : List Char) :
    Reading String text :=
  match text with
  | [] => expected what []
  | first :: rest =>
      if inClass first then
        .ok (String.ofList (first :: rest.takeWhile inClass),
          ⟨rest.dropWhile inClass,
            (List.dropWhile_suffix inClass).trans (List.suffix_cons _ _),
            Nat.lt_succ_of_le (List.dropWhile_suffix inClass).length_le⟩)
      else expected what (first :: rest)

def isKeyChar (c : Char) : Bool :=
  c.isAlphanum || c == '-' || c == '_'

def isNameChar (c : Char) : Bool :=
  isKeyChar c || c == '+'

def readName (text : List Char) : Reading String text :=
  readSpan "name" isNameChar text

def isBareChar (c : Char) : Bool :=
  !(Text.isBlank c || c == ',' || c == ';' || c == ':' || c == '|' || c == '[' || c == ']' ||
    c == '(' || c == ')' || c == '\x7b' || c == '\x7d' || c == '"')

/-- What follows the first quote, if there is one. -/
def afterQuote? : (text : List Char) → Option (Rest text)
  | [] => none
  | c :: rest =>
      if c = '"' then some ⟨rest, List.suffix_cons _ _, Nat.lt_succ_self _⟩
      else match afterQuote? rest with
        | some found => some (found.behind c)
        | none => none

/-- Reads a word, bare or between quotes. -/
def readWord (text : List Char) : Reading String text :=
  match text with
  | '"' :: inside =>
      match afterQuote? inside with
      | some rest =>
          .ok (String.ofList (inside.takeWhile (· != '"')), rest.behind '"')
      | none => expected "value" ('"' :: inside)
  | other => readSpan "value" isBareChar other

end QueryGrammar.Notation
