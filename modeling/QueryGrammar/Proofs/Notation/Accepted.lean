import QueryGrammar.Proofs.Notation.Taken
import QueryGrammar.Proofs.Notation.Turns

namespace QueryGrammar

namespace Notation

/-! Texts that are accepted.

Main statement: carrying out a text ends, and it succeeds just if the whole text is sentences that can
be carried out, of which every option has a key that is known there and no other has.
-/

/-- Carries out sentences one after the other, with all that they say. -/
def carryOutEach : List Sentence → Build Amount Unit
  | [] => pure ()
  | sentence :: sentences => do
      let statement ← Build.consult fun _ => sentence.statement
      statement.carryOut
      carryOutEach sentences

def Term.OfKeys : Term → Prop
  | .literal _ => True
  | .symbol _ options => Notation.OfKeys slotKeys options

/-- Every option of a sentence and of its entries is known where it stands, and given once. -/
def Sentence.OfKeys : Sentence → Prop
  | .rule _ options terms => Notation.OfKeys ruleKeys options ∧ ∀ term ∈ terms, term.OfKeys
  | .directive kind _ options => Notation.OfKeys kind.keys options

variable {text : List Char} {sentences : List Sentence} {builder built : Builder Amount}

/-- Nothing but what is written is carried out. -/
theorem Written.carryOutAll_eq (written : Written sentences text) :
    carryOutAll text = carryOutEach sentences := by
  induction written with
  | done gap => exact carryOutAll_of_end gap.skip_eq
  | @next sentence sentences text start rest gap first later ih =>
      obtain ⟨left, read, rfl⟩ := first.read
      obtain ⟨c, more, rfl⟩ := List.exists_cons_of_length_pos (Nat.zero_lt_of_lt left.shorter)
      rw [carryOutAll_of_start gap.skip_eq, read, carryOutEach, ← ih]
      cases sentence.statement <;> rfl

/-- A text that is accepted is written, to its end. -/
theorem exists_written (accepted : carryOutAll text builder = (.ok (), built)) :
    ∃ sentences, Written sentences text := by
  -- What is behind a statement is accepted by the builder as the statement left it.
  induction length : text.length using Nat.strongRecOn generalizing text builder with
  | ind n ih =>
    subst length
    cases skipped : skip text with
    | nil => exact ⟨[], .done (gap_iff.2 skipped)⟩
    | cons c more =>
        rw [carryOutAll_of_start skipped] at accepted
        obtain ⟨⟨statement, rest⟩, _, read, accepted⟩ := of_bind_ok accepted
        obtain ⟨_, _, _, accepted⟩ := of_bind_ok accepted
        obtain ⟨sentence, first, -⟩ := readStatement_sound _ _ (congrArg Prod.fst read)
        have smaller : rest.chars.length < text.length :=
          rest.shorter.trans_le (skipped ▸ skip_length_le text)
        obtain ⟨sentences, later⟩ := ih _ smaller accepted rfl
        exact ⟨sentence :: sentences, .next (gap_iff.2 skipped) first later⟩

theorem carryOutAll_ok_iff : carryOutAll text builder = (.ok (), built) ↔
    ∃ sentences, Written sentences text ∧ carryOutEach sentences builder = (.ok (), built) := by
  constructor
  · intro accepted
    obtain ⟨sentences, written⟩ := exists_written accepted
    exact ⟨sentences, written, written.carryOutAll_eq ▸ accepted⟩
  · rintro ⟨sentences, written, accepted⟩
    exact written.carryOutAll_eq ▸ accepted

theorem Term.part_ensures (term : Term) : Ensures (fun _ => term.OfKeys) term.part := by
  cases term with
  | literal text => exact .ok trivial
  | symbol name options =>
      exact (slotOf_ensures name options).bind fun _ known => .ok known

/-- A sentence whose statement is carried out has no other options than those that are taken. -/
theorem Sentence.ofKeys_of_carryOut {sentence : Sentence} {statement : Statement}
    (means : sentence.statement = .ok statement)
    (ran : statement.carryOut builder = (.ok (), built)) : sentence.OfKeys := by
  cases sentence with
  | directive kind subject options =>
      cases means
      exact Statement.ofKeys_of_carryOut ran
  | rule symbol options terms =>
      rw [Sentence.statement] at means
      cases mapped : mapAll Term.part terms with
      | error cause =>
          rw [mapped] at means
          cases means
      | ok parts =>
          rw [mapped] at means
          cases means
          refine ⟨Statement.ofKeys_of_carryOut ran, fun term member => ?_⟩
          obtain ⟨part, meant⟩ := exists_ok_of_mapAll mapped term member
          exact term.part_ensures part meant

theorem ofKeys_of_carryOutEach (ran : carryOutEach sentences builder = (.ok (), built)) :
    ∀ sentence ∈ sentences, sentence.OfKeys := by
  induction sentences generalizing builder with
  | nil => nofun
  | cons sentence sentences ih =>
      rw [carryOutEach] at ran
      obtain ⟨statement, _, means, ran⟩ := of_bind_ok ran
      obtain ⟨done, _, own, ran⟩ := of_bind_ok ran
      exact List.forall_mem_cons.2
        ⟨Sentence.ofKeys_of_carryOut (congrArg Prod.fst means) own, ih ran⟩

/-- A reader returns what is written, wherever it is written, and leaves less of the text. -/
structure Consumes {α : Type} (read : (text : List Char) → Reading α text)
    (written : α → List Char → List Char → Prop) : Prop where
  exact : Exact read written
  shortens : Shortens read

theorem Exact.consumes {α : Type} {read : (text : List Char) → Reading α text}
    {written : α → List Char → List Char → Prop} (exact : Exact read written) :
    Consumes read written :=
  ⟨exact, shortens read⟩

/-- Every reader leaves an end of the text.  Only gaps, separators and options may be empty. -/
structure ReadersConsume : Prop where
  gap : ∀ text, Gap text (skip text) ∧ skip text <:+ text
  separator : ∀ text, Separator text (skipComma (skip text)) ∧ skipComma (skip text) <:+ text
  options : ∀ text, Ensures
    (fun found => OptionsWritten found.1 text found.2.val ∧ found.2.val <:+ text) (readOptions text)
  char : ∀ c, Consumes (readChar c) fun _ text rest => text = c :: rest
  name : Consumes readName Name
  word : Consumes readWord Word
  meaning : Consumes readMeaning MeaningExpr.Written
  table : Consumes readTable (PairsWritten '\x7d' fun _ => Word)
  value : ∀ key, Consumes (readValue key) (ValueWritten key)
  part : Consumes readPart Part.Written
  rule : Shortens readRule
  directive : Shortens readDirective
  statement : Consumes readStatement Statement.Written

theorem readersConsume : ReadersConsume where
  gap text := ⟨gap_skip text, skip_suffix text⟩
  separator text := ⟨separator_iff.2 rfl, skipComma_skip_suffix text⟩
  options text := fun found read => ⟨readOptions_sound text found read, found.2.property⟩
  char c := (readChar_exact c).consumes
  name := readName_exact.consumes
  word := readWord_exact.consumes
  meaning := readMeaning_exact.consumes
  table := readTable_exact.consumes
  value key := (readValue_exact key).consumes
  part := readPart_exact.consumes
  rule := shortens readRule
  directive := shortens readDirective
  statement := readStatement_exact.consumes

/-- Every loop of the readers ends. -/
structure ReadersFinish : Prop where
  args : Finishes readArgs argsTurn
  pairs : ∀ {α : Type} (close : Char) (readOne : String → (text : List Char) → Reading α text),
    Finishes (readPairs close readOne) (pairsTurn close readOne)
  words : Finishes readWords wordsTurn
  parts : Finishes readParts partsTurn

theorem readersFinish : ReadersFinish where
  args := readArgs_loops.finishes
  pairs close readOne := (readPairs_loops close readOne).finishes
  words := readWords_loops.finishes
  parts := readParts_loops.finishes

/-- Adding a text ends, as every loop in it does.  It succeeds just if the whole text is sentences that
can be carried out; an option that is not known where it stands, or that is given twice, is always
refused. -/
theorem addText_exhaustive (text : String) (builder : Builder Amount) :
    ReadersConsume ∧ ReadersFinish ∧
    (∃ turns ≤ text.toList.length + 1,
      Halts statementsTurn turns (text.toList, builder) (Build.addText text builder)) ∧
    (∀ built, Build.addText text builder = (.ok (), built) ↔ ∃ sentences,
      Written sentences text.toList ∧ (∀ sentence ∈ sentences, sentence.OfKeys) ∧
        carryOutEach sentences builder = (.ok (), built)) ∧
    ∀ sentences, Written sentences text.toList → (∃ sentence ∈ sentences, ¬ sentence.OfKeys) →
      ∃ cause after, Build.addText text builder = (.error cause, after) := by
  refine ⟨readersConsume, readersFinish, carryOutAll_halts _ builder, fun built => ?_, ?_⟩
  · refine carryOutAll_ok_iff.trans (exists_congr fun sentences => and_congr_right fun _ => ?_)
    exact ⟨fun ran => ⟨ofKeys_of_carryOutEach ran, ran⟩, And.right⟩
  · intro sentences written unknown
    obtain ⟨sentence, member, other⟩ := unknown
    rcases ran : Build.addText text builder with ⟨cause | done, after⟩
    · exact ⟨cause, after, rfl⟩
    · rw [Build.addText, written.carryOutAll_eq] at ran
      exact absurd (ofKeys_of_carryOutEach ran sentence member) other

/-- Options stand behind a directive, a rule and an entry. -/
def inflected : String :=
  "@argument here[cost: 1];\nS[sem: here] -> W[form: past]; // one more\nW -> was;"

def repeated : String :=
  "@argument here[cost: 1, cost: 2];"

set_option maxRecDepth 100000 in
theorem addText_exhaustive_inflected_repeated :
    (∃ built sentences, Build.addText inflected Builder.empty = (.ok (), built) ∧
      Written sentences inflected.toList ∧ sentences ≠ [] ∧
      ∀ sentence ∈ sentences, sentence.OfKeys) ∧
    ∃ cause after, Build.addText repeated Builder.empty = (.error cause, after) := by
  constructor
  · have succeeds : (Build.addText inflected Builder.empty).1.isOk = true := by decide +kernel
    obtain ⟨built, accepted⟩ := Build.exists_ok succeeds
    obtain ⟨-, -, -, whole, -⟩ := addText_exhaustive inflected Builder.empty
    obtain ⟨sentences, written, known, -⟩ := (whole built).1 accepted
    refine ⟨built, sentences, accepted, written, ?_, known⟩
    rintro rfl
    cases written with
    | done gap => exact absurd gap.skip_eq (by decide +kernel)
  · obtain ⟨left, read, nothing⟩ : ∃ left : Rest repeated.toList, readStatement repeated.toList = .ok
        (.directive .argument "here" [("cost", .words ["1"]), ("cost", .words ["2"])], left) ∧
        skip left.chars = [] :=
      ⟨⟨[], by decide, by decide⟩, by with_unfolding_all rfl, rfl⟩
    obtain ⟨sentence, first, means⟩ := readStatement_sound _ _ read
    have begins : skip repeated.toList = repeated.toList := by decide +kernel
    have written : Written [sentence] repeated.toList :=
      .next (gap_iff.2 begins) first (.done (gap_iff.2 nothing))
    obtain ⟨-, -, -, -, refuses⟩ := addText_exhaustive repeated Builder.empty
    refine refuses [sentence] written ⟨sentence, List.mem_singleton_self _, fun known => ?_⟩
    cases sentence with
    | rule symbol options terms =>
        rw [Sentence.statement] at means
        cases mapped : mapAll Term.part terms <;> rw [mapped] at means <;> cases means
    | directive kind subject options =>
        cases means
        exact absurd (known _ List.mem_cons_self).2 (by decide)

end Notation

end QueryGrammar
