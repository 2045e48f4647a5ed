import QueryGrammar.Grammar.Notation.Statement
import QueryGrammar.Proofs.Notation.Options

namespace QueryGrammar.Notation

/-! Statements as they are written, with all of their options.

Main statement: what is read of a rule or a directive is what is written, or the first complaint
about it.
-/

/-- An entry on the right of a rule, with the options that it is given. -/
inductive Term where
  | literal (text : String)
  | symbol (name : String) (options : Options)

/-- A statement, with the options that it and its entries are given. -/
inductive Sentence where
  | rule (symbol : String) (options : Options) (terms : List Term)
  | directive (directive : Directive) (subject : String) (options : Options)

/-- The entry that is meant, if the symbol takes its options. -/
def Term.part : Term → Except GrammarError Part
  | .literal text => .ok (.literal text)
  | .symbol name options => (slotOf name options).map .slot

def Sentence.statement : Sentence → Except GrammarError Statement
  | .rule symbol options terms => (mapAll Term.part terms).map (.rule symbol options)
  | .directive kind subject options => .ok (.directive kind subject options)

/-- Literals stand between quotes or braces, or are names that begin with a small letter or a digit.
Other names are symbols. -/
inductive Term.Written : Term → List Char → List Char → Prop
  | quoted {word : String} {text rest : List Char} (within : '"' ∉ word.toList)
      (whole : text = '"' :: (word.toList ++ '"' :: rest)) : Term.Written (.literal word) text rest
  | empty {text rest : List Char} (whole : text = emptyLiteral.toList ++ rest) :
      Term.Written (.literal emptyLiteral) text rest
  | placeholder {category : String} {inside rest : List Char}
      (run : Run isKeyChar category inside ('\x7d' :: rest)) :
      Term.Written (.literal ("\x7b" ++ category ++ "\x7d")) ('\x7b' :: inside) rest
  | word {word : String} {text rest : List Char} (name : Name word text rest)
      (small : isLiteralName word = true) : Term.Written (.literal word) text rest
  | symbol {symbol : String} {options : Options} {text named start rest : List Char}
      (name : Name symbol text named) (large : isLiteralName symbol = false)
      (gap : Gap named start) (written : OptionsWritten options start rest) :
      Term.Written (.symbol symbol options) text rest

/-- The right side of a rule and the semicolon. -/
inductive TermsWritten : List Term → List Char → List Char → Prop
  | closed {text rest : List Char} (gap : Gap text (';' :: rest)) : TermsWritten [] text rest
  | more {term : Term} {terms : List Term} {text start next rest : List Char}
      (gap : Gap text start) (first : term.Written start next)
      (later : TermsWritten terms next rest) : TermsWritten (term :: terms) text rest

inductive Sentence.Written : Sentence → List Char → List Char → Prop
  | rule {symbol : String} {options : Options} {terms : List Term}
      {text named start tail arrow rest : List Char} (name : Name symbol text named)
      (gap : Gap named start) (written : OptionsWritten options start tail)
      (behind : Gap tail ('-' :: '>' :: arrow)) (right : TermsWritten terms arrow rest) :
      Sentence.Written (.rule symbol options terms) text rest
  | directive {directive : Directive} {word subject : String} {options : Options}
      {text marked named start subjected begun tail rest : List Char}
      (mark : text = '@' :: marked) (name : Name word marked named)
      (known : Directive.ofName? word = some directive) (gap : Gap named start)
      (about : Name subject start subjected) (between : Gap subjected begun)
      (written : OptionsWritten options begun tail) (behind : Gap tail (';' :: rest)) :
      Sentence.Written (.directive directive subject options) text rest

/-- What an entry that is written there means. -/
def Part.Written (part : Part) (text rest : List Char) : Prop :=
  ∃ term : Term, term.Written text rest ∧ term.part = .ok part

/-- What a rule or a directive that is written there means. -/
def Statement.Written (statement : Statement) (text rest : List Char) : Prop :=
  ∃ sentence : Sentence, sentence.Written text rest ∧ sentence.statement = .ok statement

/-- Statements up to the end of a text, with gaps around them. -/
inductive Written : List Sentence → List Char → Prop
  | done {text : List Char} (gap : Gap text []) : Written [] text
  | next {sentence : Sentence} {sentences : List Sentence} {text start rest : List Char}
      (gap : Gap text start) (first : sentence.Written start rest)
      (later : Written sentences rest) : Written (sentence :: sentences) text

variable {text more rest : List Char} {c : Char} {literal : String}

theorem dropBeginning?_self (beginning rest : List Char) :
    dropBeginning? beginning (beginning ++ rest) = some rest := by
  induction beginning with
  | nil => rfl
  | cons c beginning ih => rw [List.cons_append, dropBeginning?, if_pos rfl, ih]

theorem fixed?_iff : (∃ left, fixed? c more text = some left ∧ left.chars = rest) ↔
    text = c :: (more ++ rest) := by
  unfold fixed?
  constructor
  · rintro ⟨left, found, rfl⟩
    split at found
    · rename_i rest dropped
      cases found
      exact dropBeginning?_append dropped
    · cases found
  · rintro rfl
    have dropped : dropBeginning? (c :: more) (c :: (more ++ rest)) = some rest :=
      dropBeginning?_self (c :: more) rest
    split
    · rename_i found
      cases dropped.symm.trans found
      exact ⟨_, rfl, rfl⟩
    · rename_i absent
      cases dropped.symm.trans absent

theorem fixed?_eq_none (other : text.head? ≠ some c) : fixed? c more text = none := by
  cases found : fixed? c more text with
  | none => rfl
  | some left =>
      have same := fixed?_iff.1 ⟨left, found, rfl⟩
      rw [same] at other
      exact absurd rfl other

theorem placeholder?_iff : (∃ left, placeholder? text = some (literal, left) ∧ left.chars = rest) ↔
    ∃ category inside, text = '\x7b' :: inside ∧ Run isKeyChar category inside ('\x7d' :: rest) ∧
      literal = "\x7b" ++ category ++ "\x7d" := by
  unfold placeholder?
  constructor
  · rintro ⟨left, found, rfl⟩
    split at found
    · rename_i inside
      split at found
      · rename_i category behind read
        split at found
        · rename_i closed marked
          cases found
          have run := (readSpan_exact "" isKeyChar).sound inside _ read
          have brace := (readChar_exact '\x7d').sound _ _ marked
          exact ⟨category, inside, rfl, brace ▸ run, rfl⟩
        · cases found
      · cases found
    · cases found
  · rintro ⟨category, inside, rfl, run, rfl⟩
    obtain ⟨behind, read, brace⟩ := (readSpan_exact "" isKeyChar).complete run
    obtain ⟨closed, marked, ends⟩ := (readChar_exact '\x7d' behind.chars () rest).2 brace
    simp only [read, marked]
    exact ⟨_, rfl, ends⟩

theorem placeholder?_eq_none (other : text.head? ≠ some '\x7b') : placeholder? text = none := by
  unfold placeholder?
  split
  · exact absurd rfl other
  · rfl

theorem Term.Written.head?_ne {term : Term} (written : term.Written text rest)
    (outside : isNameChar c = false) (other : c ∉ ['"', '<', '\x7b']) : text.head? ≠ some c := by
  simp only [List.mem_cons, List.not_mem_nil, or_false, not_or] at other
  cases written with
  | quoted within whole => exact whole ▸ fun same => other.1 (Option.some.inj same).symm
  | empty whole => exact whole ▸ fun same => other.2.1 (Option.some.inj same).symm
  | placeholder => exact fun same => other.2.2 (Option.some.inj same).symm
  | word name => exact name.head?_ne outside
  | symbol name => exact name.head?_ne outside

theorem readPart_sound (text : List Char) :
    Ensures (fun found => found.1.Written text found.2.chars) (readPart text) := by
  unfold readPart
  split
  · rename_i quote
    refine (readWord_exact.sound text).bindPair fun word rest written => .ok ?_
    rcases written with run | ⟨within, whole⟩
    · exact absurd quote (run.head?_ne (by decide +kernel))
    · exact ⟨.literal word, .quoted within whole, rfl⟩
  · split
    · rename_i rest fixed
      exact .ok ⟨.literal emptyLiteral, .empty (fixed?_iff.1 ⟨rest, fixed, rfl⟩), rfl⟩
    · split
      · rename_i literal rest found
        obtain ⟨category, inside, rfl, run, rfl⟩ := placeholder?_iff.1 ⟨rest, found, rfl⟩
        exact .ok ⟨.literal _, .placeholder run, rfl⟩
      · refine (readName_exact.sound text).bindPair fun name rest written => ?_
        dsimp only
        split
        · rename_i small
          exact .ok ⟨.literal name, .word written small, rfl⟩
        · rename_i large
          refine (readOptions_sound _).bindPair fun options tail given => ?_
          have entry := Term.Written.symbol written (eq_false_of_ne_true large) (gap_skip _) given
          have means : Ensures (fun slot => (Term.symbol name options).part = .ok (.slot slot))
              (slotOf name options) := fun slot taken => by rw [Term.part, taken]; rfl
          exact means.bind fun slot same => .ok ⟨_, entry, same⟩

/-- What is written as an entry is read, up to a complaint about its options. -/
theorem Term.Written.read {term : Term} (written : term.Written text rest) :
    ∃ left : Rest text, readPart text = term.part.map (·, left) ∧ left.chars = rest := by
  unfold readPart
  -- Every reader that is tried before the one that fits fails on the first character.
  cases written with
  | quoted within whole =>
      obtain ⟨left, found, ends⟩ := readWord_exact.complete (.quoted within whole)
      rw [if_pos (by rw [whole]; rfl), found]
      exact ⟨left, rfl, ends⟩
  | empty whole =>
      obtain ⟨left, found, ends⟩ :=
        fixed?_iff.2 (show text = '<' :: (['e', 'm', 'p', 't', 'y', '>'] ++ rest) from whole)
      rw [if_neg (by rw [whole]; exact nofun), found]
      exact ⟨left, rfl, ends⟩
  | placeholder run =>
      obtain ⟨left, found, ends⟩ := placeholder?_iff.2 ⟨_, _, rfl, run, rfl⟩
      rw [if_neg (by simp), fixed?_eq_none (by simp), found]
      exact ⟨left, rfl, ends⟩
  | word name small =>
      obtain ⟨left, found, ends⟩ := readName_exact.complete name
      rw [if_neg (name.head?_ne (by decide)), fixed?_eq_none (name.head?_ne (by decide)),
        placeholder?_eq_none (name.head?_ne (by decide)), found]
      simp only [bind, Except.bind]
      rw [if_pos small]
      exact ⟨left, rfl, ends⟩
  | symbol name large gap written =>
      obtain ⟨named, found, rfl⟩ := readName_exact.complete name
      obtain rfl := gap.skip_eq
      obtain ⟨tail, given, ends⟩ := written.complete
      rw [if_neg (name.head?_ne (by decide)), fixed?_eq_none (name.head?_ne (by decide)),
        placeholder?_eq_none (name.head?_ne (by decide)), found]
      simp only [bind, Except.bind]
      rw [if_neg (ne_true_of_eq_false large), given, Term.part]
      refine ⟨named.advance (tail.property.trans (skip_suffix _)), ?_, ends⟩
      dsimp only
      cases slotOf _ _ <;> rfl

theorem readPart_exact : Exact readPart Part.Written := by
  refine .of_sound_complete readPart_sound fun part text rest given => ?_
  obtain ⟨term, written, means⟩ := given
  obtain ⟨left, read, ends⟩ := written.read
  exact ⟨left, by rw [read, means]; rfl, ends⟩

theorem readParts_sound (text : List Char) :
    Ensures (fun found => ∃ terms, TermsWritten terms text found.2.chars ∧
      mapAll Term.part terms = .ok found.1) (readParts text) := by
  rw [readParts]
  split
  · rename_i rest closed
    exact .ok ⟨[], .closed (close?_iff.1 ⟨rest, closed, rfl⟩), rfl⟩
  · refine (readPart_sound (skip text)).bindPair fun part rest given => ?_
    have smaller := rest.shorter.trans_le (skip_length_le text)
    refine (readParts_sound rest.chars).bindPair fun parts finished others => ?_
    obtain ⟨term, first, own⟩ := given
    obtain ⟨terms, later, each⟩ := others
    exact .ok ⟨term :: terms, .more (gap_skip text) first later, by simp only [mapAll, own, each]⟩
termination_by text.length

theorem TermsWritten.read {terms : List Term} (written : TermsWritten terms text rest) :
    ∃ left : Rest text, readParts text = (mapAll Term.part terms).map (·, left) ∧
      left.chars = rest := by
  induction written with
  | closed gap =>
      obtain ⟨left, closed, ends⟩ := close?_iff.2 gap
      rw [readParts, closed]
      exact ⟨left, rfl, ends⟩
  | more gap first later ih =>
      have goesOn := close?_eq_none ';' gap (first.head?_ne (by decide) (by decide))
      obtain rfl := gap.skip_eq
      obtain ⟨next, part, rfl⟩ := first.read
      obtain ⟨left, parts, ends⟩ := ih
      rw [readParts, goesOn]
      refine ⟨(next.further left).within (skip_suffix _), ?_, ends⟩
      simp only [part, mapAll]
      cases Term.part _ with
      | error cause => rfl
      | ok value =>
          simp only [Except.map, bind, Except.bind, parts]
          cases mapAll Term.part _ <;> rfl

theorem readRule_sound (text : List Char) :
    Ensures (fun found => found.1.Written text found.2.chars) (readRule text) := by
  unfold readRule
  refine (readName_exact.sound text).bindPair fun symbol named name => ?_
  refine (readOptions_sound _).bindPair fun options tail written => ?_
  dsimp only
  split
  · exact .error
  · rename_i arrow fixed
    have behind := gap_iff.2 (fixed?_iff.1 ⟨arrow, fixed, rfl⟩)
    refine (readParts_sound arrow.chars).bindPair fun parts rest given => ?_
    obtain ⟨terms, right, each⟩ := given
    exact .ok ⟨.rule symbol options terms, .rule name (gap_skip _) written behind right, by
      rw [Sentence.statement, each]; rfl⟩

theorem readDirective_sound (text : List Char) :
    Ensures (fun found => found.1.Written text found.2.chars) (readDirective text) := by
  unfold readDirective
  refine ((readChar_exact '@').sound text).bindPair fun _ marked mark => ?_
  refine (readName_exact.sound _).bindPair fun word named name => ?_
  refine (readName_exact.sound _).bindPair fun subject subjected about => ?_
  refine (readOptions_sound _).bindPair fun options tail written => ?_
  refine ((readChar_exact ';').sound _).bindPair fun _ rest closed => ?_
  dsimp only at *
  split
  · exact .error
  · rename_i directive known
    exact .ok ⟨.directive directive subject options, .directive mark name known (gap_skip _) about
      (gap_skip _) written (gap_iff.2 closed), rfl⟩

theorem readStatement_sound (text : List Char) :
    Ensures (fun found => found.1.Written text found.2.chars) (readStatement text) := by
  unfold readStatement
  split
  · exact readDirective_sound text
  · exact readRule_sound text

/-- What is written as a statement is read, up to a complaint about the options of an entry. -/
theorem Sentence.Written.read {sentence : Sentence} (written : sentence.Written text rest) :
    ∃ left : Rest text, readStatement text = sentence.statement.map (·, left) ∧
      left.chars = rest := by
  unfold readStatement
  cases written with
  | rule name gap written behind right =>
      obtain ⟨named, found, rfl⟩ := readName_exact.complete name
      obtain rfl := gap.skip_eq
      obtain ⟨tail, given, rfl⟩ := written.complete
      have marked : skip tail.val = '-' :: (['>'] ++ _) := behind.skip_eq
      obtain ⟨arrow, fixed, rfl⟩ := fixed?_iff.2 marked
      obtain ⟨left, parts, ends⟩ := right.read
      rw [if_neg (name.head?_ne (by decide)), readRule, found]
      simp only [bind, Except.bind, given, fixed, parts]
      refine ⟨((named.advance (tail.property.trans (skip_suffix _))).advance
        (skip_suffix _)).further (arrow.further left), ?_, ends⟩
      rw [Sentence.statement]
      cases mapAll Term.part _ <;> rfl
  | directive mark name known gap about between written behind =>
      obtain ⟨marked, start, rfl⟩ := (readChar_exact '@' _ () _).2 mark
      obtain ⟨named, found, rfl⟩ := readName_exact.complete name
      obtain rfl := gap.skip_eq
      obtain ⟨subjected, subject, rfl⟩ := readName_exact.complete about
      obtain rfl := between.skip_eq
      obtain ⟨tail, given, rfl⟩ := written.complete
      obtain ⟨left, closed, ends⟩ := (readChar_exact ';' _ () _).2 behind.skip_eq
      rw [if_pos (by rw [mark]; rfl), readDirective, start]
      simp only [bind, Except.bind, found, subject, given, closed, known]
      exact ⟨_, rfl, ends⟩

theorem readStatement_exact : Exact readStatement Statement.Written := by
  refine .of_sound_complete readStatement_sound fun statement text rest given => ?_
  obtain ⟨sentence, written, means⟩ := given
  obtain ⟨left, read, ends⟩ := written.read
  exact ⟨left, by rw [read, means]; rfl, ends⟩

end QueryGrammar.Notation
