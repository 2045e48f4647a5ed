import QueryGrammar.Grammar.Notation.Options
import QueryGrammar.Proofs.Notation.Lexeme

namespace QueryGrammar.Notation

/-! Options as they are written.

Main statement: meanings, values and options are read just if they are written.
-/

mutual

/-- A name, perhaps with arguments in brackets, and the gap behind a name alone. -/
inductive MeaningExpr.Written : MeaningExpr → List Char → List Char → Prop
  | name {name : String} {text more rest : List Char} (word : Word name text more)
      (gap : Gap more rest) (alone : rest.head? ≠ some '(') :
      MeaningExpr.Written (.apply name []) text rest
  | applied {name : String} {args : List MeaningExpr} {text more inside rest : List Char}
      (word : Word name text more) (gap : Gap more ('(' :: inside))
      (written : ArgsWritten args inside rest) : MeaningExpr.Written (.apply name args) text rest

/-- Arguments and the closing bracket. -/
inductive ArgsWritten : List MeaningExpr → List Char → List Char → Prop
  | closed {text rest : List Char} (gap : Gap text (')' :: rest)) : ArgsWritten [] text rest
  | more {arg : MeaningExpr} {args : List MeaningExpr} {text start next others rest : List Char}
      (gap : Gap text start) (first : arg.Written start next) (separator : Separator next others)
      (written : ArgsWritten args others rest) : ArgsWritten (arg :: args) text rest

end

/-- Pairs of keys and values, and the closing character. -/
inductive PairsWritten (close : Char) (written : String → α → List Char → List Char → Prop) :
    List (String × α) → List Char → List Char → Prop
  | closed {text rest : List Char} (gap : Gap text (close :: rest)) :
      PairsWritten close written [] text rest
  | more {key : String} {value : α} {pairs : List (String × α)}
      {text start keyed parted begun valued others rest : List Char} (gap : Gap text start)
      (name : Name key start keyed) (colon : Gap keyed (':' :: parted)) (behind : Gap parted begun)
      (first : written key value begun valued) (separator : Separator valued others)
      (later : PairsWritten close written pairs others rest) :
      PairsWritten close written ((key, value) :: pairs) text rest

/-- Words with bars between them, and the gap behind the last. -/
inductive WordsWritten : List String → List Char → List Char → Prop
  | last {word : String} {text more rest : List Char} (first : Word word text more)
      (gap : Gap more rest) (alone : rest.head? ≠ some '|') : WordsWritten [word] text rest
  | more {word : String} {words : List String} {text more barred next rest : List Char}
      (first : Word word text more) (gap : Gap more ('|' :: barred)) (behind : Gap barred next)
      (later : WordsWritten words next rest) : WordsWritten (word :: words) text rest

/-- What a key is set to. Only the key `sem` is set to a meaning. -/
inductive ValueWritten (key : String) : Value → List Char → List Char → Prop
  | meaning {expr : MeaningExpr} {text rest : List Char} (sem : key = "sem")
      (written : expr.Written text rest) : ValueWritten key (.meaning expr) text rest
  | table {pairs : List (String × String)} {inside rest : List Char} (plain : key ≠ "sem")
      (written : PairsWritten '\x7d' (fun _ => Word) pairs inside rest) :
      ValueWritten key (.table pairs) ('\x7b' :: inside) rest
  | words {words : List String} {text rest : List Char} (plain : key ≠ "sem")
      (written : WordsWritten words text rest) : ValueWritten key (.words words) text rest

/-- Options in square brackets, or nothing. -/
inductive OptionsWritten : Options → List Char → List Char → Prop
  | bracketed {options : Options} {inside rest : List Char}
      (written : PairsWritten ']' ValueWritten options inside rest) :
      OptionsWritten options ('[' :: inside) rest
  | none {text : List Char} (absent : text.head? ≠ some '[') : OptionsWritten [] text text

mutual

theorem readMeaning_sound (text : List Char) :
    Ensures (fun found => found.1.Written text found.2.chars) (readMeaning text) := by
  rw [readMeaning]
  refine (readWord_exact.sound text).bindPair fun name rest word => ?_
  dsimp only
  split
  · rename_i inside opened
    have smaller := (length_of_skip_eq opened).trans rest.shorter
    refine (readArgs_sound inside).bindPair fun args closed written => .ok ?_
    exact .applied word (gap_iff.2 opened) written
  · rename_i alone
    refine .ok (.name word (gap_skip _) fun bracket => ?_)
    obtain ⟨inside, opened⟩ := List.head?_eq_some_iff.1 bracket
    exact alone inside opened
termination_by 2 * text.length
decreasing_by omega

theorem readArgs_sound (text : List Char) :
    Ensures (fun found => ArgsWritten found.1 text found.2.chars) (readArgs text) := by
  rw [readArgs]
  split
  · rename_i rest closed
    exact .ok (.closed (close?_iff.1 ⟨rest, closed, rfl⟩))
  · refine (readMeaning_sound (skip text)).bindPair fun arg rest first => ?_
    refine (readArgs_sound (skipComma (skip rest.chars))).bindPair fun args finished written => ?_
    exact .ok (.more (gap_skip text) first (separator_iff.2 rfl) written)
termination_by 2 * text.length + 1
decreasing_by
  · have shrinks := skip_length_le text
    omega
  · have shrinks := skip_length_le text
    have shorter := rest.shorter
    have before := (skipComma_skip_suffix rest.chars).length_le
    omega

end

theorem MeaningExpr.Written.head?_ne {expr : MeaningExpr} {text rest : List Char} {c : Char}
    (written : expr.Written text rest) (outside : isBareChar c = false) (plain : c ≠ '"') :
    text.head? ≠ some c := by
  cases written with
  | name word => exact word.head?_ne outside plain
  | applied word => exact word.head?_ne outside plain

mutual

theorem MeaningExpr.Written.complete {expr : MeaningExpr} {text rest : List Char} :
    expr.Written text rest → ∃ left, readMeaning text = .ok (expr, left) ∧ left.chars = rest
  | .name word gap alone => by
      obtain ⟨more, found, rfl⟩ := readWord_exact.complete word
      rw [readMeaning, found]
      simp only [bind, Except.bind]
      split
      · rename_i inside opened
        rw [← gap.skip_eq, opened] at alone
        exact absurd rfl alone
      · exact ⟨_, rfl, gap.skip_eq⟩
  | .applied word gap written => by
      obtain ⟨more, found, rfl⟩ := readWord_exact.complete word
      obtain ⟨left, inner, ends⟩ := written.complete
      rw [readMeaning, found]
      simp only [bind, Except.bind]
      split
      · rename_i inside opened
        obtain ⟨-, rfl⟩ := List.cons.inj (gap.skip_eq.symm.trans opened)
        rw [inner]
        exact ⟨_, rfl, ends⟩
      · rename_i alone
        exact absurd gap.skip_eq (alone _)

theorem ArgsWritten.complete {args : List MeaningExpr} {text rest : List Char} :
    ArgsWritten args text rest → ∃ left, readArgs text = .ok (args, left) ∧ left.chars = rest
  | .closed gap => by
      obtain ⟨left, closed, ends⟩ := close?_iff.2 gap
      rw [readArgs, closed]
      exact ⟨left, rfl, ends⟩
  | .more gap first separator written => by
      obtain ⟨next, found, rfl⟩ := first.complete
      obtain ⟨left, others, ends⟩ := written.complete
      obtain rfl := gap.skip_eq
      obtain rfl := separator_iff.1 separator
      have goesOn := close?_eq_none ')' gap (first.head?_ne (by decide +kernel) (by decide))
      rw [readArgs, goesOn]
      simp only [bind, Except.bind, found, others]
      exact ⟨_, rfl, ends⟩

end

theorem readMeaning_exact : Exact readMeaning MeaningExpr.Written :=
  .of_sound_complete readMeaning_sound fun _ _ _ => MeaningExpr.Written.complete

section

variable {α : Type} {close : Char} {readOne : String → (text : List Char) → Reading α text}
  {written : String → α → List Char → List Char → Prop}

theorem length_behind_pair {text : List Char} (keyed : Rest (skip text))
    (parted : Rest (skip keyed.chars)) (valued : Rest (skip parted.chars)) :
    (skipComma (skip valued.chars)).length < text.length :=
  calc
    _ ≤ valued.chars.length := (skipComma_skip_suffix _).length_le
    _ ≤ (skip parted.chars).length := valued.suffix.length_le
    _ ≤ parted.chars.length := skip_length_le _
    _ ≤ (skip keyed.chars).length := parted.suffix.length_le
    _ ≤ keyed.chars.length := skip_length_le _
    _ < (skip text).length := keyed.shorter
    _ ≤ text.length := skip_length_le _

theorem readPairs_sound (exact : ∀ key, Exact (readOne key) (written key)) (text : List Char) :
    Ensures (fun found => PairsWritten close written found.1 text found.2.chars)
      (readPairs close readOne text) := by
  rw [readPairs]
  split
  · rename_i rest closed
    exact .ok (.closed (close?_iff.1 ⟨rest, closed, rfl⟩))
  · refine (readName_exact.sound _).bindPair fun key keyed name => ?_
    refine ((readChar_exact ':').sound _).bindPair fun _ parted colon => ?_
    refine ((exact key).sound _).bindPair fun value valued first => ?_
    have shorter := length_behind_pair keyed parted valued
    refine (readPairs_sound exact _).bindPair fun pairs finished later => .ok ?_
    exact .more (gap_skip text) name (gap_iff.2 colon) (gap_skip _) first (separator_iff.2 rfl) later
termination_by text.length

theorem PairsWritten.complete (exact : ∀ key, Exact (readOne key) (written key))
    (outside : isNameChar close = false) {pairs : List (String × α)} {text rest : List Char}
    (given : PairsWritten close written pairs text rest) :
    ∃ left, readPairs close readOne text = .ok (pairs, left) ∧ left.chars = rest := by
  induction given with
  | closed gap =>
      obtain ⟨left, closed, ends⟩ := close?_iff.2 gap
      rw [readPairs, closed]
      exact ⟨left, rfl, ends⟩
  | more gap name colon behind first separator later ih =>
      have goesOn := close?_eq_none close gap (name.head?_ne outside)
      obtain rfl := gap.skip_eq
      obtain ⟨keyed, named, rfl⟩ := readName_exact.complete name
      obtain ⟨parted, marked, rfl⟩ := (readChar_exact ':' _ () _).2 colon.skip_eq
      obtain rfl := behind.skip_eq
      obtain ⟨valued, found, rfl⟩ := (exact _).complete first
      obtain rfl := separator_iff.1 separator
      obtain ⟨left, others, ends⟩ := ih
      rw [readPairs, goesOn]
      simp only [bind, Except.bind, named, marked, found, others]
      exact ⟨_, rfl, ends⟩

theorem readPairs_exact (exact : ∀ key, Exact (readOne key) (written key))
    (outside : isNameChar close = false) :
    Exact (readPairs close readOne) (PairsWritten close written) :=
  .of_sound_complete (readPairs_sound exact) fun _ _ _ => PairsWritten.complete exact outside

end

theorem readWords_sound (text : List Char) :
    Ensures (fun found => WordsWritten found.1 text found.2.chars) (readWords text) := by
  rw [readWords]
  refine (readWord_exact.sound text).bindPair fun word rest first => ?_
  dsimp only
  split
  · rename_i more barred
    have smaller := (skip_length_le more).trans_lt ((length_of_skip_eq barred).trans rest.shorter)
    refine (readWords_sound (skip more)).bindPair fun others finished later => .ok ?_
    exact .more first (gap_iff.2 barred) (gap_skip more) later
  · rename_i alone
    refine .ok (.last first (gap_skip _) fun bar => ?_)
    obtain ⟨more, barred⟩ := List.head?_eq_some_iff.1 bar
    exact alone more barred
termination_by text.length

theorem WordsWritten.complete {words : List String} {text rest : List Char}
    (given : WordsWritten words text rest) :
    ∃ left, readWords text = .ok (words, left) ∧ left.chars = rest := by
  induction given with
  | last first gap alone =>
      obtain ⟨more, found, rfl⟩ := readWord_exact.complete first
      rw [readWords, found]
      simp only [bind, Except.bind]
      split
      · rename_i next barred
        rw [← gap.skip_eq, barred] at alone
        exact absurd rfl alone
      · exact ⟨_, rfl, gap.skip_eq⟩
  | more first gap behind later ih =>
      obtain ⟨more, found, rfl⟩ := readWord_exact.complete first
      obtain rfl := behind.skip_eq
      obtain ⟨left, others, ends⟩ := ih
      rw [readWords, found]
      simp only [bind, Except.bind]
      split
      · rename_i next barred
        obtain ⟨-, rfl⟩ := List.cons.inj (gap.skip_eq.symm.trans barred)
        rw [others]
        exact ⟨_, rfl, ends⟩
      · rename_i alone
        exact absurd gap.skip_eq (alone _)

theorem readWords_exact : Exact readWords WordsWritten :=
  .of_sound_complete readWords_sound fun _ _ _ => WordsWritten.complete

theorem WordsWritten.head?_ne {words : List String} {text rest : List Char} {c : Char}
    (written : WordsWritten words text rest) (outside : isBareChar c = false) (plain : c ≠ '"') :
    text.head? ≠ some c := by
  cases written with
  | last first => exact first.head?_ne outside plain
  | more first => exact first.head?_ne outside plain

theorem readTable_exact : Exact readTable (PairsWritten '\x7d' fun _ => Word) :=
  readPairs_exact (fun _ => readWord_exact) (by decide +kernel)

theorem readValue_exact (key : String) : Exact (readValue key) (ValueWritten key) := by
  refine .of_sound_complete (fun text => ?_) fun value text rest given => ?_
  · unfold readValue
    split
    · rename_i sem
      exact (readMeaning_exact.sound text).bind fun found written => .ok (.meaning sem written)
    · rename_i plain
      split
      · exact (readTable_exact.sound _).bind fun found written => .ok (.table plain written)
      · exact (readWords_exact.sound _).bind fun found written => .ok (.words plain written)
  · unfold readValue
    cases given with
    | meaning sem written =>
        obtain ⟨left, found, ends⟩ := readMeaning_exact.complete written
        rw [if_pos sem, found]
        exact ⟨left, rfl, ends⟩
    | @table pairs inside rest plain written =>
        obtain ⟨left, found, ends⟩ := readTable_exact.complete written
        rw [if_neg plain]
        change ∃ behind, (readTable inside >>= fun read =>
          Except.ok (Value.table read.1, read.2.behind '\x7b')) = _ ∧ _
        rw [found]
        exact ⟨_, rfl, ends⟩
    | words plain written =>
        obtain ⟨left, found, ends⟩ := readWords_exact.complete written
        rw [if_neg plain]
        split
        · exact absurd rfl (written.head?_ne (by decide +kernel) (by decide))
        · rw [found]
          exact ⟨_, rfl, ends⟩

/-- Options may be missing, and then nothing is read. -/
theorem readOptions_sound (text : List Char) :
    Ensures (fun found => OptionsWritten found.1 text found.2.val) (readOptions text) := by
  unfold readOptions
  split
  · rename_i inside
    exact ((readPairs_exact readValue_exact (by decide +kernel)).sound inside).bind
      fun found written => .ok (.bracketed written)
  · rename_i absent
    refine .ok (.none fun bracket => ?_)
    obtain ⟨inside, opened⟩ := List.head?_eq_some_iff.1 bracket
    exact absent inside opened

theorem OptionsWritten.complete {options : Options} {text rest : List Char}
    (given : OptionsWritten options text rest) :
    ∃ tail, readOptions text = .ok (options, tail) ∧ tail.val = rest := by
  cases given with
  | bracketed written =>
      obtain ⟨left, found, ends⟩ :=
        (readPairs_exact readValue_exact (by decide +kernel)).complete written
      rw [readOptions, found]
      exact ⟨_, rfl, ends⟩
  | none absent =>
      unfold readOptions
      split
      · exact absurd rfl absent
      · exact ⟨_, rfl, rfl⟩

end QueryGrammar.Notation
