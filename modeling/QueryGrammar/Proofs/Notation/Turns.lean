import QueryGrammar.Proofs.Data.Halts
import QueryGrammar.Proofs.Grammar.Steps
import QueryGrammar.Proofs.Notation.Statement

namespace QueryGrammar.Notation

/-! Reading turn by turn.

Main statement: every loop of the readers ends, after no more turns than there are characters and one
to see the end.
-/

/-! Loops that collect what they read. -/

/-- What one turn of a collecting loop reads. -/
inductive Turn (α : Type) where
  | ended (last : List α) (rest : List Char)
  | onward (item : α) (next : List Char)

/-- A turn that leaves less of the text if it is not the last. -/
def Turn.Shrinks {α : Type} (text : List Char) : Turn α → Prop
  | .ended _ _ => True
  | .onward _ next => next.length < text.length

/-- What has been collected, and the text that is left. -/
abbrev Progress (α : Type) :=
  List α × List Char

def collecting {α : Type} (turn : List Char → Except GrammarError (Turn α))
    (progress : Progress α) : Progress α ⊕ Except GrammarError (Progress α) :=
  match turn progress.2 with
  | .error cause => .inr (.error cause)
  | .ok (.ended last rest) => .inr (.ok (progress.1 ++ last, rest))
  | .ok (.onward item next) => .inl (progress.1 ++ [item], next)

/-- What a reader adds to what has been collected. -/
def added {α : Type} {text : List Char} (items : List α) (reading : Reading (List α) text) :
    Except GrammarError (Progress α) :=
  reading.map fun read => (items ++ read.1, read.2.chars)

/-- A reader is a loop with such turns. -/
structure Loops {α : Type} (read : (text : List Char) → Reading (List α) text)
    (turn : List Char → Except GrammarError (Turn α)) : Prop where
  unrolls : ∀ items text, added items (read text) = match turn text with
    | .error cause => .error cause
    | .ok (.ended last rest) => .ok (items ++ last, rest)
    | .ok (.onward item next) => added (items ++ [item]) (read next)
  shrinks : ∀ text, Ensures (Turn.Shrinks text) (turn text)

/-- A reader that is a loop ends, with what it reads added to what has been collected. -/
def Finishes {α : Type} (read : (text : List Char) → Reading (List α) text)
    (turn : List Char → Except GrammarError (Turn α)) : Prop :=
  ∀ items text, ∃ turns ≤ text.length + 1,
    Halts (collecting turn) turns (items, text) (added items (read text))

theorem Loops.finishes {α : Type} {read : (text : List Char) → Reading (List α) text}
    {turn : List Char → Except GrammarError (Turn α)} (loops : Loops read turn) :
    Finishes read turn := by
  intro items text
  -- What has been collected and what is still read stay together, while the text gets shorter.
  refine exists_halts (fun progress : Progress α => progress.2.length)
    (fun progress => added progress.1 (read progress.2)) ?_ ?_ (items, text)
  · intro progress final ended
    have whole := loops.unrolls progress.1 progress.2
    unfold collecting at ended
    split at ended
    · rename_i failed
      cases ended
      rw [whole, failed]
    · rename_i stops
      cases ended
      rw [whole, stops]
    · cases ended
  · intro progress later goes
    have whole := loops.unrolls progress.1 progress.2
    unfold collecting at goes
    split at goes
    · cases goes
    · cases goes
    · rename_i item next onward
      cases goes
      rw [whole, onward]
      exact ⟨loops.shrinks _ _ onward, rfl⟩

/-- An item that is read first comes behind those that have been collected. -/
theorem added_cons {α : Type} {text next : List Char} {items others : List α} {item : α}
    {left : Rest text} {right : Rest next} (same : left.chars = right.chars) :
    added items (.ok (item :: others, left)) = added (items ++ [item]) (.ok (others, right)) := by
  simp [added, Except.map, same]

def argsTurn (text : List Char) : Except GrammarError (Turn MeaningExpr) :=
  match close? ')' text with
  | some rest => .ok (.ended [] rest.chars)
  | none => do
      let (arg, rest) ← readMeaning (skip text)
      .ok (.onward arg (skipComma (skip rest.chars)))

theorem readArgs_loops : Loops readArgs argsTurn where
  unrolls items text := by
    rw [readArgs, argsTurn]
    cases close? ')' text with
    | some rest => rfl
    | none =>
        cases readMeaning (skip text) with
        | error cause => rfl
        | ok read =>
            simp only [bind, Except.bind]
            cases readArgs (skipComma (skip read.2.chars)) with
            | error cause => rfl
            | ok others => exact added_cons rfl
  shrinks text := by
    unfold argsTurn
    split
    · exact .ok trivial
    · refine .afterPair fun arg rest => .ok ?_
      calc
        _ ≤ rest.chars.length := (skipComma_skip_suffix _).length_le
        _ < (skip text).length := rest.shorter
        _ ≤ text.length := skip_length_le text

def pairsTurn {α : Type} (close : Char) (readOne : String → (text : List Char) → Reading α text)
    (text : List Char) : Except GrammarError (Turn (String × α)) :=
  match close? close text with
  | some rest => .ok (.ended [] rest.chars)
  | none => do
      let (key, keyed) ← readName (skip text)
      let (_, parted) ← readChar ':' (skip keyed.chars)
      let (value, valued) ← readOne key (skip parted.chars)
      .ok (.onward (key, value) (skipComma (skip valued.chars)))

theorem readPairs_loops {α : Type} (close : Char)
    (readOne : String → (text : List Char) → Reading α text) :
    Loops (readPairs close readOne) (pairsTurn close readOne) where
  unrolls items text := by
    rw [readPairs, pairsTurn]
    cases close? close text with
    | some rest => rfl
    | none =>
        cases readName (skip text) with
        | error cause => rfl
        | ok keyed =>
            simp only [bind, Except.bind]
            cases readChar ':' (skip keyed.2.chars) with
            | error cause => rfl
            | ok parted =>
                simp only
                cases readOne keyed.1 (skip parted.2.chars) with
                | error cause => rfl
                | ok valued =>
                    simp only
                    cases readPairs close readOne (skipComma (skip valued.2.chars)) with
                    | error cause => rfl
                    | ok others => exact added_cons rfl
  shrinks text := by
    unfold pairsTurn
    split
    · exact .ok trivial
    · refine .afterPair fun key keyed => .afterPair fun _ parted => .afterPair fun value valued => ?_
      exact .ok (length_behind_pair keyed parted valued)

def wordsTurn (text : List Char) : Except GrammarError (Turn String) := do
  let (word, rest) ← readWord text
  match skip rest.chars with
  | '|' :: more => .ok (.onward word (skip more))
  | other => .ok (.ended [word] other)

theorem readWords_loops : Loops readWords wordsTurn where
  unrolls items text := by
    cases found : readWord text with
    | error cause =>
        rw [readWords, wordsTurn, found]
        rfl
    | ok read =>
        rw [readWords, found]
        simp only [bind, Except.bind]
        split
        · rename_i more barred
          have turn : wordsTurn text = .ok (.onward read.1 (skip more)) := by
            simp only [wordsTurn, found, bind, Except.bind, barred]
          rw [turn]
          simp only
          cases readWords (skip more) with
          | error cause => rfl
          | ok others => exact added_cons rfl
        · rename_i alone
          have turn : wordsTurn text = .ok (.ended [read.1] (skip read.2.chars)) := by
            simp only [wordsTurn, found, bind, Except.bind]
          rw [turn]
          rfl
  shrinks text := by
    refine .afterPair fun word rest => ?_
    dsimp only
    split
    · rename_i more barred
      exact .ok ((skip_length_le more).trans_lt ((length_of_skip_eq barred).trans rest.shorter))
    · exact .ok trivial

def partsTurn (text : List Char) : Except GrammarError (Turn Part) :=
  match close? ';' text with
  | some rest => .ok (.ended [] rest.chars)
  | none => do
      let (part, rest) ← readPart (skip text)
      .ok (.onward part rest.chars)

theorem readParts_loops : Loops readParts partsTurn where
  unrolls items text := by
    rw [readParts, partsTurn]
    cases close? ';' text with
    | some rest => rfl
    | none =>
        cases readPart (skip text) with
        | error cause => rfl
        | ok read =>
            simp only [bind, Except.bind]
            cases readParts read.2.chars with
            | error cause => rfl
            | ok others => exact added_cons rfl
  shrinks text := by
    unfold partsTurn
    split
    · exact .ok trivial
    · exact .afterPair fun part rest => .ok (rest.shorter.trans_le (skip_length_le text))

/-! The statements of a text. -/

/-- One turn of carrying out a text: a gap, and behind it a statement or the end. -/
def statementsTurn (state : List Char × Builder Amount) :
    (List Char × Builder Amount) ⊕ (Except GrammarError Unit × Builder Amount) :=
  match skip state.1 with
  | [] => .inr (.ok (), state.2)
  | start =>
      match readStatement start with
      | .error cause => .inr (.error cause, state.2)
      | .ok (statement, rest) =>
          match statement.carryOut state.2 with
          | (.error cause, after) => .inr (.error cause, after)
          | (.ok (), after) => .inl (rest.chars, after)

section

variable {text more : List Char} {c : Char}

theorem carryOutAll_of_end (nothing : skip text = []) : carryOutAll text = pure () := by
  rw [carryOutAll]
  split
  · rfl
  · rename_i skipped
    cases nothing.symm.trans skipped

theorem carryOutAll_of_start (skipped : skip text = c :: more) :
    carryOutAll text = (do
      let (statement, rest) ← Build.consult fun _ => readStatement (c :: more)
      statement.carryOut
      carryOutAll rest.chars) := by
  rw [carryOutAll]
  split
  · rename_i nothing
    cases nothing.symm.trans skipped
  · rename_i same
    cases skipped.symm.trans same
    rfl

end

theorem carryOutAll_eq (text : List Char) (builder : Builder Amount) :
    carryOutAll text builder = match statementsTurn (text, builder) with
      | .inr final => final
      | .inl later => carryOutAll later.1 later.2 := by
  cases skipped : skip text with
  | nil =>
      simp only [carryOutAll_of_end skipped, statementsTurn, skipped]
      rfl
  | cons c more =>
      simp only [carryOutAll_of_start skipped, statementsTurn, skipped, Build.bind_eq, Build.consult]
      cases readStatement (c :: more) with
      | error cause => rfl
      | ok read =>
          simp only
          rcases read.1.carryOut builder with ⟨cause | done, after⟩ <;> rfl

theorem statementsTurn_shrinks {text rest : List Char} {builder after : Builder Amount}
    (goes : statementsTurn (text, builder) = .inl (rest, after)) : rest.length < text.length := by
  unfold statementsTurn at goes
  split at goes
  · cases goes
  · split at goes
    · cases goes
    · rename_i statement left read
      split at goes
      · cases goes
      · cases goes
        exact left.shorter.trans_le (skip_length_le text)

/-- Carrying out a text ends, after as many statements as it has characters at the most. -/
theorem carryOutAll_halts (text : List Char) (builder : Builder Amount) :
    ∃ turns ≤ text.length + 1,
      Halts statementsTurn turns (text, builder) (carryOutAll text builder) := by
  refine exists_halts (fun state => state.1.length) (fun state => carryOutAll state.1 state.2) ?_ ?_
    (text, builder)
  · intro state final ended
    rw [carryOutAll_eq, ended]
  · intro state later goes
    refine ⟨statementsTurn_shrinks goes, ?_⟩
    rw [carryOutAll_eq state.1, goes]

end QueryGrammar.Notation
