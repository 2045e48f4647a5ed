import QueryGrammar.Proofs.Edits.Inserted
import QueryGrammar.Tree.Phrasing

namespace QueryGrammar

/-! What is inserted reads as it would if it had been typed.

Main statement: where the parts of a phrase agree on the person that its words follow, a rule that
leaves a symbol out displays what its base displays around a derivation of that symbol without
input.  A recipe has one person for all of its words, where a derivation has one from each rule that
names one.
-/

variable {κ : Type}

namespace Piece

/-- The words of a piece of text. -/
def words (piece : Piece) (form : Option Form) (person : Option Person) : List String :=
  Tree.resolve (some piece.wording) (piece.form <|> form) person

/-- Whether a piece reads the same for every person. -/
def IsSteady (piece : Piece) : Prop :=
  ∀ form person other, piece.words form person = piece.words form other

theorem words_withForm (pieces : List Piece) (own form : Option Form) (person : Option Person) :
    (Recipe.withForm own pieces).flatMap (·.words form person) =
      pieces.flatMap (·.words (own <|> form) person) := by
  rw [Recipe.withForm, List.flatMap_map]
  refine List.flatMap_congr fun piece _ => ?_
  cases inner : piece.form <;> simp [words, inner]

end Piece

/-- What a part of a phrase displays after `before` was named is what it displays where `named` is in
force throughout. -/
def Recipe.Follows (part : Recipe κ) (form : Option Form) (before named : Option Person) : Prop :=
  (∀ piece ∈ Recipe.withForm form part.text, piece.IsSteady) ∨ (part.person <|> before) = named

theorem Recipe.Follows.words_eq {part : Recipe κ} {own : Option Form}
    {before named : Option Person} (follows : part.Follows own before named) (form : Option Form)
    (person : Option Person) :
    part.text.flatMap (·.words (own <|> form) (part.person <|> before <|> person)) =
      (Recipe.withForm own part.text).flatMap (·.words form (named <|> person)) := by
  rw [← Piece.words_withForm]
  rcases follows with steady | same
  · exact List.flatMap_congr fun piece member => steady piece member form _ _
  · have inForce : (part.person <|> before <|> person) = (named <|> person) := by
      rw [← same]
      cases part.person <;> rfl
    rw [inForce]

/-- A rule on symbols is not one on a literal. -/
theorem Rule.isLiteral_of_slots {rule : Rule κ} {slot : Slot} {rest : List Slot}
    (slots : rule.slots = slot :: rest) : rule.isLiteral = false := by
  rw [← Bool.not_eq_true]
  intro isLiteral
  cases slots.symm.trans (Rule.slots_of_isLiteral isLiteral)

namespace Grammar

/-- Wherever a rule is made from what is inserted for its symbols, the person of the whole is the one
that would be in force for every word, and after the last, if the words were displayed in turn. -/
structure KeepsPersons [Cost κ] (grammar : Grammar κ) : Prop where
  single : ∀ symbol, ∀ rule ∈ grammar.rulesOf symbol, ∀ slot, rule.slots = [slot] →
    rule.noInsert = false → ∀ part inner, grammar.Inserts part inner → part.symbol = slot.symbol →
    inner.Follows slot.form rule.person (rule.person <|> inner.person)
  pair : ∀ symbol, ∀ rule ∈ grammar.rulesOf symbol, ∀ first second, rule.slots = [first, second] →
    rule.noInsert = false → ∀ left one right two,
    grammar.Inserts left one → left.symbol = first.symbol →
    grammar.Inserts right two → right.symbol = second.symbol →
    one.Follows first.form rule.person (rule.person <|> one.person <|> two.person) ∧
      two.Follows second.form (one.person <|> rule.person)
        (rule.person <|> one.person <|> two.person) ∧
      (rule.person <|> two.person <|> one.person) = (rule.person <|> one.person <|> two.person)

end Grammar

/-- A rule as derivations display it where it needs no input: the empty literal is not displayed. -/
def Rule.unwritten (rule : Rule κ) : Rule κ :=
  if rule.production.isEmptyLiteral then { rule with role := .stopWord } else rule

/-- A rule has a number in the table. -/
def Table.Numbers (table : Table κ) (id : Nat) (rule : Rule κ) : Prop :=
  ∃ entry, table.rules[id]? = some entry ∧ entry.rule = rule

namespace Tree

/-- A tree by the rules of an expansion, in which the empty literal is not displayed. -/
inductive Shows (table : Table κ) : Tree → Expansion κ → Prop
  | literal {symbol : String} {rule : Rule κ} {node id : Nat} {span : Span} {children : List Tree} :
      table.Numbers id rule.unwritten →
      Shows table (.branch node id span children) (.literal symbol rule)
  | single {symbol : String} {rule : Rule κ} {node id : Nat} {span : Span} {part : Expansion κ}
      {child : Tree} : table.Numbers id rule → Shows table child part →
      Shows table (.branch node id span [child]) (.single symbol rule part)
  | pair {symbol : String} {rule : Rule κ} {node id : Nat} {span : Span} {left right : Expansion κ}
      {first second : Tree} : table.Numbers id rule → Shows table first left →
      Shows table second right → Shows table (.branch node id span [first, second])
        (.pair symbol rule left right)

theorem Shows.mono {table larger : Table κ} {tree : Tree} {put : Expansion κ}
    (shows : tree.Shows table put)
    (numbers : ∀ id rule, table.Numbers id rule → larger.Numbers id rule) :
    tree.Shows larger put := by
  induction shows with
  | literal numbered => exact .literal (numbers _ _ numbered)
  | single numbered _ ih => exact .single (numbers _ _ numbered) ih
  | pair numbered _ _ ihLeft ihRight => exact .pair (numbers _ _ numbered) ihLeft ihRight

/-- Tables can be extended by the rules of an expansion. -/
theorem exists_shows (put : Expansion κ) (table : Table κ) : ∃ (larger : Table κ) (tree : Tree),
    (∀ id rule, table.Numbers id rule → larger.Numbers id rule) ∧ tree.Shows larger put := by
  have extend : ∀ (table : Table κ) (rule : Rule κ), ∃ larger : Table κ,
      (∀ id rule, table.Numbers id rule → larger.Numbers id rule) ∧
        larger.Numbers table.rules.size rule := by
    refine fun table rule => ⟨{ table with rules := table.rules.push ⟨0, [], rule⟩ },
      fun id other numbered => ?_, ⟨_, Array.getElem?_push_size, rfl⟩⟩
    obtain ⟨entry, known, same⟩ := numbered
    have inside := (Array.getElem?_eq_some_iff.1 known).1
    exact ⟨entry, by rw [Array.getElem?_push_lt inside, ← known, Array.getElem?_eq_getElem inside],
      same⟩
  induction put generalizing table with
  | literal symbol rule =>
      obtain ⟨larger, kept, own⟩ := extend table rule.unwritten
      exact ⟨larger, .branch 0 _ ⟨0, 0⟩ [], kept, .literal own⟩
  | single symbol rule part ih =>
      obtain ⟨larger, kept, own⟩ := extend table rule
      obtain ⟨largest, child, keptAlso, shown⟩ := ih larger
      exact ⟨largest, .branch 0 _ ⟨0, 0⟩ [child],
        fun id rule numbered => keptAlso id rule (kept id rule numbered),
        .single (keptAlso _ _ own) shown⟩
  | pair symbol rule left right ihLeft ihRight =>
      obtain ⟨larger, kept, own⟩ := extend table rule
      obtain ⟨further, first, keptFirst, shown⟩ := ihLeft larger
      obtain ⟨largest, second, keptSecond, shownAlso⟩ := ihRight further
      exact ⟨largest, .branch 0 _ ⟨0, 0⟩ [first, second],
        fun id rule numbered => keptSecond id rule (keptFirst id rule (kept id rule numbered)),
        .pair (keptSecond _ _ (keptFirst _ _ own)) (shown.mono keptSecond) shownAlso⟩

variable {table : Table κ} {forest : Forest} {rule : Rule κ} {id node : Nat} {span : Span}
  {children : List Tree} {form : Option Form} {person : Option Person}

/-- A given rule on symbols displays its children in their order. -/
theorem phrase_of_base (numbered : table.Numbers id rule) (onSymbols : rule.isLiteral = false)
    (base : rule.isBase = true) :
    Tree.phrase table forest (.branch node id span children) form person =
      (phraseAll table forest rule form 0 children (rule.person <|> person)).map fun shown =>
        (shown.1, rule.person <|> shown.2) := by
  obtain ⟨entry, known, rfl⟩ := numbered
  obtain ⟨none, -⟩ := Bool.and_eq_true_iff.1 base
  simp only [phrase, Table.ruleAt, Fault.lookUp, known, bind, Except.bind, onSymbols,
    Bool.false_eq_true, if_false, Option.isNone_iff_eq_none.1 none]
  cases phraseAll table forest entry.rule form 0 children (entry.rule.person <|> person) <;> rfl

theorem phraseAll_nil {index : Nat} :
    phraseAll table forest rule form index [] person = .ok ([], person) := by
  rw [phraseAll]

theorem phraseAll_cons {first : Tree} {rest : List Tree} {index : Nat} (base : rule.isBase = true) :
    phraseAll table forest rule form index (first :: rest) person =
      (first.phrase table forest (rule.formAt index <|> form) person).bind fun shown =>
        (phraseAll table forest rule form (index + 1) rest shown.2).map fun later =>
          (shown.1 ++ later.1, later.2) := by
  obtain ⟨-, straight⟩ := Bool.and_eq_true_iff.1 base
  simp only [phraseAll, by simpa using straight, Bool.false_eq_true, if_false, bind]
  cases first.phrase table forest (rule.formAt index <|> form) person with
  | error fault => rfl
  | ok shown =>
      simp only [Except.bind]
      cases phraseAll table forest rule form (index + 1) rest shown.2 <;> rfl

theorem phrase_of_literal (numbered : table.Numbers id rule) (onLiteral : rule.isLiteral = true)
    (role : rule.role ≠ .placeholder) :
    Tree.phrase table forest (.branch node id span children) form person =
      .ok (resolve rule.display form (rule.person <|> person), rule.person <|> person) := by
  obtain ⟨entry, known, rfl⟩ := numbered
  simp only [phrase, Table.ruleAt, Fault.lookUp, known, bind, Except.bind, onLiteral, if_true,
    literalPhrase, role, if_false]

/-- A rule that inserts text next to its only symbol. -/
theorem phrase_of_insertion {insertion : Insertion κ} {part : Tree}
    (numbered : table.Numbers id rule) (onSymbols : rule.isLiteral = false)
    (straight : rule.transposed = false) (inserts : rule.insertion = some insertion) :
    Tree.phrase table forest (.branch node id span [part]) form person =
      if insertion.index = 0 then
        let put := insertionPhrase insertion form (rule.person <|> person)
        (part.phrase table forest (rule.formAt 0 <|> form) put.2).map fun shown =>
          (put.1 ++ shown.1, rule.person <|> shown.2)
      else
        (part.phrase table forest (rule.formAt 0 <|> form) (rule.person <|> person)).map fun shown =>
          let put := insertionPhrase insertion form shown.2
          (shown.1 ++ put.1, rule.person <|> put.2) := by
  obtain ⟨entry, known, rfl⟩ := numbered
  simp only [phrase, Table.ruleAt, Fault.lookUp, known, bind, Except.bind, onSymbols, inserts,
    phraseAll, straight, Bool.false_eq_true, if_false]
  split
  · cases part.phrase table forest (entry.rule.formAt 0 <|> form)
      (insertionPhrase insertion form (entry.rule.person <|> person)).2 <;> simp [Except.map]
  · cases part.phrase table forest (entry.rule.formAt 0 <|> form)
      (entry.rule.person <|> person) <;> simp [Except.map]

/-- A rule that leaves a symbol out displays what its base displays, if what is put in for the symbol
displays what its recipe says. -/
theorem phrase_omitting [Cost κ] {base : Rule κ} {index derived original : Nat}
    {kept omitted : Slot} {recipe : Recipe κ} {tree inserted : Tree}
    (leaves : Edits.Leaves base index kept omitted) (isBase : base.isBase = true)
    (numbered : table.Numbers derived (Edits.omitting base index kept omitted recipe))
    (numberedAlso : table.Numbers original base)
    (shown : ∀ form person, inserted.phrase table forest form person =
      .ok (recipe.text.flatMap (·.words form (recipe.person <|> person)),
        recipe.person <|> person)) :
    Tree.phrase table forest (.branch node derived span [tree]) form person =
      Tree.phrase table forest (.branch node original span
        (if index = 0 then [inserted, tree] else [tree, inserted])) form person := by
  have put : ∀ person, insertionPhrase ⟨index, Recipe.withForm omitted.form recipe.text,
      recipe.meaning, recipe.person⟩ form person =
        (recipe.text.flatMap (·.words (omitted.form <|> form) (recipe.person <|> person)),
          recipe.person <|> person) := by
    intro person
    rw [← Piece.words_withForm]
    rfl
  have ofKept : (Edits.omitting base index kept omitted recipe).formAt 0 = kept.form := rfl
  have named : (Edits.omitting base index kept omitted recipe).person = base.person := rfl
  rw [phrase_of_insertion numbered rfl rfl rfl, ofKept, named]
  cases leaves with
  | first slots =>
      have ofFirst : base.formAt 0 = kept.form := by simp [Rule.formAt, slots]
      have ofSecond : base.formAt 1 = omitted.form := by simp [Rule.formAt, slots]
      rw [phrase_of_base numberedAlso (Rule.isLiteral_of_slots slots) isBase]
      simp only [Nat.one_ne_zero, if_false, put, phraseAll_cons isBase, ofFirst, ofSecond, shown,
        phraseAll_nil]
      cases tree.phrase table forest (kept.form <|> form) (base.person <|> person) <;>
        simp [Except.map, Except.bind]
  | second slots =>
      have ofFirst : base.formAt 0 = omitted.form := by simp [Rule.formAt, slots]
      have ofSecond : base.formAt 1 = kept.form := by simp [Rule.formAt, slots]
      rw [phrase_of_base numberedAlso (Rule.isLiteral_of_slots slots) isBase]
      simp only [if_true, put, phraseAll_cons isBase, ofFirst, ofSecond, shown, phraseAll_nil,
        Except.bind]
      cases tree.phrase table forest (kept.form <|> form)
        (recipe.person <|> base.person <|> person) <;> simp [Except.map]

end Tree

namespace Grammar

variable [Cost κ] {grammar : Grammar κ} {put : Expansion κ} {recipe : Recipe κ} {table : Table κ}
  {forest : Forest} {tree : Tree}

/-- A derivation without input displays what its recipe says. -/
theorem Inserts.phrase_eq (given : ∀ symbol, ∀ rule ∈ grammar.rulesOf symbol, rule.isBase = true)
    (keeps : grammar.KeepsPersons) (inserts : grammar.Inserts put recipe)
    (shows : tree.Shows table put) (form : Option Form) (person : Option Person) :
    tree.phrase table forest form person =
      .ok (recipe.text.flatMap (·.words form (recipe.person <|> person)),
        recipe.person <|> person) := by
  induction inserts generalizing tree form person with
  | @empty symbol rule member allowed production =>
      cases shows with
      | literal numbered =>
          have unwritten : rule.unwritten = { rule with role := .stopWord } := by
            simp [Rule.unwritten, production, Production.isEmptyLiteral]
          rw [unwritten] at numbered
          have onLiteral : Rule.isLiteral { rule with role := .stopWord } = true :=
            Rule.isLiteral_of_production production
          rw [Tree.phrase_of_literal numbered onLiteral (by simp)]
          rfl
  | @literal symbol text rule price member allowed production solid priced role =>
      cases shows with
      | literal numbered =>
          have unwritten : rule.unwritten = rule := by simp [Rule.unwritten, solid]
          rw [unwritten] at numbered
          rw [Tree.phrase_of_literal numbered (Rule.isLiteral_of_production production) role]
          cases rule.display with
          | none => rfl
          | some wording => simp [Piece.words]
  | @single symbol rule slot part inner meaning member allowed slots same inserts combined ih =>
      cases shows with
      | single numbered shown =>
          have base := given symbol rule member
          have own : rule.formAt 0 = slot.form := by simp [Rule.formAt, slots]
          have follows := keeps.single symbol rule member slot slots allowed part inner inserts same
          have left : (rule.person <|> inner.person <|> rule.person <|> person) =
              ((rule.person <|> inner.person) <|> person) := by
            cases rule.person <;> rfl
          rw [Tree.phrase_of_base numbered (Rule.isLiteral_of_slots slots) base,
            Tree.phraseAll_cons base, own, ih shown, ← follows.words_eq form person, ← left]
          simp only [Except.bind, Except.map, Tree.phraseAll_nil, List.append_nil]
  | @pair symbol rule first second left right one two meaning member allowed slots sameLeft
      sameRight insertsLeft insertsRight combined ihLeft ihRight =>
      cases shows with
      | pair numbered shownLeft shownRight =>
          have base := given symbol rule member
          have ofLeft : rule.formAt 0 = first.form := by simp [Rule.formAt, slots]
          have ofRight : rule.formAt 1 = second.form := by simp [Rule.formAt, slots]
          obtain ⟨followsLeft, followsRight, agree⟩ := keeps.pair symbol rule member first second
            slots allowed left one right two insertsLeft sameLeft insertsRight sameRight
          have inForce : (one.person <|> rule.person <|> person) =
              ((one.person <|> rule.person) <|> person) := by
            cases one.person <;> rfl
          have leaves : (rule.person <|> two.person <|> one.person <|> rule.person <|> person) =
              ((rule.person <|> one.person <|> two.person) <|> person) := by
            rw [← agree]
            cases rule.person <;> cases two.person <;> rfl
          rw [Tree.phrase_of_base numbered (Rule.isLiteral_of_slots slots) base,
            Tree.phraseAll_cons base, ofLeft, ihLeft shownLeft, List.flatMap_append,
            ← followsLeft.words_eq form person, ← followsRight.words_eq form person, ← inForce,
            ← leaves]
          simp only [Except.bind, Except.map, Tree.phraseAll_cons base, ofRight, ihRight shownRight,
            Tree.phraseAll_nil, List.append_nil]

/-- Where a rule leaves a symbol out, its base displays the same, and leaves the same person in force,
around a derivation of that symbol that needs no input, for what the recipe of the symbol costs. -/
def ReadsAsTyped (grammar : Grammar ℚ) (symbol : String) (rule : Rule ℚ) (insertion : Insertion ℚ) :
    Prop :=
  ∃ base ∈ grammar.rulesOf symbol, ∃ kept omitted recipe put,
    Edits.Leaves base insertion.index kept omitted ∧
    grammar.recipes.get? omitted.symbol = some recipe ∧
    rule = Edits.omitting base insertion.index kept omitted recipe ∧
    grammar.Admits put ∧ put.symbol = omitted.symbol ∧ put.Silent ∧
    recipe.cost = put.cost + insertionCosts put.literals ∧
    ∀ (table : Table ℚ) (forest : Forest) (derived original : Nat) (tree inserted : Tree),
      table.Numbers derived rule → table.Numbers original base → inserted.Shows table put →
      ∀ node span form person,
        Tree.phrase table forest (.branch node derived span [tree]) form person =
          Tree.phrase table forest (.branch node original span
            (if insertion.index = 0 then [inserted, tree] else [tree, inserted])) form person

section

variable {grammar edited : Grammar ℚ} {symbol : String} {rule : Rule ℚ} {insertion : Insertion ℚ}

/-- What is inserted reads as it would if it had been typed. -/
theorem withEdits_inserts_phrase (valid : grammar.validate = .ok ())
    (given : ∀ symbol, ∀ rule ∈ grammar.rulesOf symbol, rule.isBase = true)
    (keeps : grammar.KeepsPersons) (derived : grammar.withEdits = .ok edited)
    (member : rule ∈ edited.rulesOf symbol) (inserts : rule.insertion = some insertion) :
    grammar.ReadsAsTyped symbol rule insertion := by
  cases origin_of_withEdits derived member with
  | given own =>
      have base := given symbol rule own
      simp [Rule.isBase, inserts] at base
  | swap => cases inserts
  | @omission base index kept omitted recipe own allowed leaves found =>
      obtain rfl := Option.some.inj inserts
      obtain ⟨put, same, made⟩ := exists_inserts_of_recipe valid found
      refine ⟨base, own, kept, omitted, recipe, put, leaves, found, rfl, made.admits, same,
        made.silent, by rw [made.cost_eq, put.insertedCost_eq], ?_⟩
      intro table forest derived original tree inserted numbered numberedAlso shows node span form
        person
      exact Tree.phrase_omitting leaves (given symbol base own) numbered numberedAlso
        fun form person => made.phrase_eq given keeps shows form person

end

/-- A symbol with rules on literals alone has the recipe of one of them. -/
theorem Inserts.of_literals (inserts : grammar.Inserts put recipe)
    (literals : ∀ rule ∈ grammar.rulesOf put.symbol,
      rule.isLiteral = true ∧ rule.production.isEmptyLiteral = false) :
    ∃ rule ∈ grammar.rulesOf put.symbol, rule.insertionCost.isSome = true ∧
      recipe.person = rule.person ∧
      recipe.text = rule.display.toList.map fun wording => { wording } := by
  cases inserts with
  | empty member allowed production =>
      have solid := (literals _ member).2
      rw [production] at solid
      cases solid
  | literal member allowed production solid priced =>
      exact ⟨_, member, by rw [priced]; rfl, rfl, rfl⟩
  | single member allowed slots | pair member allowed slots =>
      simp [Rule.slots_of_isLiteral (literals _ member).1] at slots

/-- A phrase of two words that can be left out. -/
def coupleOf (phrase : Option Person) (first second : Rule ℚ) : Grammar ℚ where
  start := "S"
  rules := .ofList [
    ("D", [{ Rule.symbols ["E", "F"] with person := phrase }]),
    ("E", [{ first with insertionCost := some 1 }]),
    ("F", [{ second with insertionCost := some 1 }]),
    ("K", [.literal "k"]),
    ("S", [.symbols ["K", "D"]])]
  concepts := {}

/-- The phrase is in the plural, which its first word follows. The second word is singular, but reads
the same in any case. -/
def couple : Grammar ℚ :=
  coupleOf (some .plural)
    { Rule.literal "be" with
      wording := some (.inflected { thirdSingular := some "is", plural := some "are" }) }
    { Rule.literal "one" with person := some .thirdSingular }

/-- Whether a grammar is accepted and gains a rule that inserts something as described. -/
def inserting (grammar : Grammar ℚ) (symbol : String) (holds : Insertion ℚ → Bool) : Bool :=
  grammar.validate.toOption.isSome && grammar.allRules.all (·.2.isBase) &&
    grammar.withEdits.toOption.any fun edited => (edited.rulesOf symbol).any fun rule =>
      rule.insertion.any holds

theorem exists_insertion {grammar : Grammar ℚ} {symbol : String} {holds : Insertion ℚ → Bool}
    (decided : grammar.inserting symbol holds = true) : grammar.validate = .ok () ∧
      (∀ symbol, ∀ rule ∈ grammar.rulesOf symbol, rule.isBase = true) ∧
      ∃ edited rule insertion, grammar.withEdits = .ok edited ∧ rule ∈ edited.rulesOf symbol ∧
        rule.insertion = some insertion ∧ holds insertion = true := by
  simp only [inserting, Bool.and_eq_true, List.all_eq_true] at decided
  obtain ⟨⟨accepted, listed⟩, edits⟩ := decided
  obtain ⟨edited, derived, rules⟩ := exists_ok_of_any edits
  simp only [List.any_eq_true, Option.any_eq_true] at rules
  obtain ⟨rule, member, insertion, inserts, holds⟩ := rules
  refine ⟨?_, fun symbol rule member => listed (symbol, rule) (mem_allRules.2 member), edited, rule,
    insertion, derived, member, inserts, holds⟩
  cases valid : grammar.validate with
  | error cause => simp [valid, Except.toOption] at accepted
  | ok _ => rfl

set_option maxRecDepth 100000 in
theorem couple_keepsPersons : couple.KeepsPersons := by
  have words : ∀ name ∈ ["E", "F", "K"], ∀ rule ∈ couple.rulesOf name,
      rule.isLiteral = true ∧ rule.production.isEmptyLiteral = false := by
    decide +kernel
  have slots : ∀ entry ∈ couple.allRules, entry.2.slots = [] ∨
      entry.2.slots = [⟨"E", none⟩, ⟨"F", none⟩] ∧ entry.2.person = some .plural ∨
      entry.2.slots = [⟨"K", none⟩, ⟨"D", none⟩] := by
    decide +kernel
  have firsts : ∀ rule ∈ couple.rulesOf "E", rule.person = none := by decide +kernel
  have seconds : ∀ rule ∈ couple.rulesOf "F", rule.display = some (.fixed "one") := by
    decide +kernel
  have keywords : ∀ rule ∈ couple.rulesOf "K", rule.insertionCost = none := by decide +kernel
  constructor
  · intro symbol rule member slot single
    rcases slots _ (mem_allRules.2 member) with none | ⟨pair, -⟩ | pair <;>
      simp_all
  · intro symbol rule member first second pair _ left one right two insertsLeft sameLeft
      insertsRight sameRight
    rcases slots _ (mem_allRules.2 member) with none | ⟨phrase, plural⟩ | whole
    · cases none.symm.trans pair
    · cases phrase.symm.trans pair
      simp only at sameLeft sameRight plural
      obtain ⟨own, ofFirst, -, personLeft, -⟩ :=
        insertsLeft.of_literals (by rw [sameLeft]; exact words "E" (by simp))
      obtain ⟨other, ofSecond, -, -, text⟩ :=
        insertsRight.of_literals (by rw [sameRight]; exact words "F" (by simp))
      rw [sameLeft] at ofFirst
      rw [sameRight] at ofSecond
      rw [seconds other ofSecond] at text
      rw [firsts own ofFirst] at personLeft
      refine ⟨.inr (by rw [personLeft, plural]; rfl), .inl ?_, by rw [plural]; rfl⟩
      rw [text]
      intro piece among
      rw [List.mem_singleton.1 among]
      exact fun _ _ _ => rfl
    · cases whole.symm.trans pair
      simp only at sameLeft
      obtain ⟨own, ofKeyword, priced, -⟩ :=
        insertsLeft.of_literals (by rw [sameLeft]; exact words "K" (by simp))
      rw [sameLeft] at ofKeyword
      rw [keywords own ofKeyword] at priced
      cases priced

set_option maxRecDepth 100000 in
theorem withEdits_inserts_phrase_couple : couple.validate = .ok () ∧
    (∀ symbol, ∀ rule ∈ couple.rulesOf symbol, rule.isBase = true) ∧ couple.KeepsPersons ∧
    ∃ edited rule insertion, couple.withEdits = .ok edited ∧ rule ∈ edited.rulesOf "S" ∧
      rule.insertion = some insertion ∧ insertion.person = some .plural ∧
      couple.ReadsAsTyped "S" rule insertion ∧
      ∃ base ∈ couple.rulesOf "S", ∃ (table : Table ℚ) (inserted : Tree), ∀ forest tree,
        Tree.phrase table forest (.branch 0 0 ⟨0, 1⟩ [tree]) none none =
          Tree.phrase table forest (.branch 0 1 ⟨0, 1⟩ [tree, inserted]) none none ∧
        table.Numbers 0 rule ∧ table.Numbers 1 base := by
  obtain ⟨valid, given, edited, rule, insertion, derived, member, inserts, holds⟩ :=
    exists_insertion (show couple.inserting "S" (fun insertion =>
      decide (insertion.index = 1 ∧ insertion.person = some .plural)) = true by decide +kernel)
  obtain ⟨index, plural⟩ := of_decide_eq_true holds
  have reads := withEdits_inserts_phrase valid given couple_keepsPersons derived member inserts
  refine ⟨valid, given, couple_keepsPersons, edited, rule, insertion, derived, member, inserts,
    plural, reads, ?_⟩
  obtain ⟨base, own, _, _, _, put, -, -, -, -, -, -, -, same⟩ := reads
  obtain ⟨table, inserted, kept, shown⟩ := Tree.exists_shows put
    ⟨0, #[], #[⟨0, [], rule⟩, ⟨0, [], base⟩], {}, #[], 0⟩
  have ofRule := kept 0 rule ⟨_, rfl, rfl⟩
  have ofBase := kept 1 base ⟨_, rfl, rfl⟩
  refine ⟨base, own, table, inserted, fun forest tree => ⟨?_, ofRule, ofBase⟩⟩
  have displayed := same table forest 0 1 tree inserted ofRule ofBase shown 0 ⟨0, 1⟩ none none
  rwa [index, if_neg Nat.one_ne_zero] at displayed

/-- Both words of the phrase name a person, and not the same one. -/
def rivals : Grammar ℚ :=
  coupleOf none { Rule.literal "e" with person := some .firstSingular }
    { Rule.literal "f" with person := some .plural }

/-- The persons that the words of the phrase name. -/
def rivalPersons : List (String × Person) :=
  [("E", .firstSingular), ("F", .plural)]

set_option maxRecDepth 100000 in
/-- A word leaves its own person in force. -/
theorem rivals_word {name : String} {person : Person} {put : Expansion ℚ} {table : Table ℚ}
    {tree : Tree} (named : (name, person) ∈ rivalPersons)
    (admits : rivals.Admits put) (same : put.symbol = name) (shows : tree.Shows table put)
    (forest : Forest) (form : Option Form) (before : Option Person) :
    ∃ shown, tree.phrase table forest form before = .ok (shown, some person) := by
  have words : ∀ named ∈ rivalPersons, ∀ word ∈ rivals.rulesOf named.1,
      word.isLiteral = true ∧ word.production.isEmptyLiteral = false ∧ word.role = .plain ∧
        word.person = some named.2 := by
    decide +kernel
  subst same
  obtain ⟨word, member, literal⟩ :=
    admits.eq_literal fun word member => (words _ named word member).1
  obtain ⟨isLiteral, solid, role, own⟩ := words _ named word member
  rw [literal] at shows
  cases shows with
  | literal numbered =>
      have written : word.unwritten = word := by simp [Rule.unwritten, solid]
      rw [written] at numbered
      rw [Tree.phrase_of_literal numbered isLiteral (by simp [role]), own]
      exact ⟨_, rfl⟩

set_option maxRecDepth 100000 in
/-- The phrase leaves the person of its last word in force. -/
theorem rivals_phrase {put : Expansion ℚ} {table : Table ℚ} {tree : Tree}
    (admits : rivals.Admits put) (same : put.symbol = "D") (shows : tree.Shows table put)
    (forest : Forest) (form : Option Form) (before : Option Person) :
    ∃ shown, tree.phrase table forest form before = .ok (shown, some .plural) := by
  have phrases : ∀ phrase ∈ rivals.rulesOf "D", phrase.slots = [⟨"E", none⟩, ⟨"F", none⟩] ∧
      phrase.person = none ∧ phrase.isBase = true := by
    decide +kernel
  cases admits with
  | literal inside isLiteral =>
      obtain rfl : _ = "D" := same
      have several := (phrases _ inside).1
      simp [Rule.slots_of_isLiteral isLiteral] at several
  | single inside alone =>
      obtain rfl : _ = "D" := same
      have several := (phrases _ inside).1
      simp [alone] at several
  | @pair _ phrase _ _ left right inside parts sameLeft sameRight admitsLeft admitsRight =>
      obtain rfl : _ = "D" := same
      obtain ⟨several, unnamed, base⟩ := phrases _ inside
      cases parts.symm.trans several
      cases shows with
      | pair numbered shownLeft shownRight =>
          have ofFirst : ("E", Person.firstSingular) ∈ rivalPersons := by simp [rivalPersons]
          have ofSecond : ("F", Person.plural) ∈ rivalPersons := by simp [rivalPersons]
          obtain ⟨early, ofLeft⟩ := rivals_word ofFirst admitsLeft sameLeft
            shownLeft forest (phrase.formAt 0 <|> form) before
          obtain ⟨late, ofRight⟩ := rivals_word ofSecond admitsRight sameRight
            shownRight forest (phrase.formAt 1 <|> form) (some .firstSingular)
          have inForce : (phrase.person <|> before) = before := by
            rw [unnamed]
            rfl
          rw [Tree.phrase_of_base numbered (Rule.isLiteral_of_slots several) base,
            Tree.phraseAll_cons base, inForce, ofLeft]
          simp only [Except.bind, Except.map, Tree.phraseAll_cons base, Tree.phraseAll_nil, ofRight,
            unnamed]
          exact ⟨_, rfl⟩

set_option maxRecDepth 100000 in
/-- What is inserted for the phrase leaves the person of its first word in force instead. -/
theorem withEdits_keeps_first_person : rivals.validate = .ok () ∧
    (∀ symbol, ∀ rule ∈ rivals.rulesOf symbol, rule.isBase = true) ∧
    ∃ edited rule insertion, rivals.withEdits = .ok edited ∧ rule ∈ edited.rulesOf "S" ∧
      rule.insertion = some insertion ∧ ¬ rivals.ReadsAsTyped "S" rule insertion := by
  have starts : ∀ base ∈ rivals.rulesOf "S",
      base.slots = [⟨"K", none⟩, ⟨"D", none⟩] ∧ base.person = none := by
    decide +kernel
  obtain ⟨valid, given, edited, rule, insertion, derived, member, inserts, holds⟩ :=
    exists_insertion (show rivals.inserting "S" (fun insertion =>
      decide (insertion.index = 1 ∧ insertion.person = some .firstSingular)) = true by decide +kernel)
  obtain ⟨index, first⟩ := of_decide_eq_true holds
  refine ⟨valid, given, edited, rule, insertion, derived, member, inserts, ?_⟩
  rintro ⟨base, ofStart, kept, omitted, recipe, put, around, -, made, admits, same, -, -, reads⟩
  obtain ⟨slots, unnamed⟩ := starts base ofStart
  have onSymbols : rule.isLiteral = false := by
    rw [made]
    rfl
  have straight : rule.transposed = false := by
    rw [made]
    rfl
  have unnamedAlso : rule.person = none := by
    rw [made]
    exact unnamed
  rw [index] at around reads
  cases around with
  | first ownSlots =>
      cases slots.symm.trans ownSlots
      obtain ⟨nothing⟩ : Nonempty Forest := ⟨.ofMatches #[]⟩
      obtain ⟨table, inserted, numbers, shown⟩ := Tree.exists_shows put
        ⟨0, #[], #[⟨0, [], rule⟩, ⟨0, [], base⟩], {}, #[], 0⟩
      have ofRule := numbers 0 rule ⟨_, rfl, rfl⟩
      have ofBase := numbers 1 base ⟨_, rfl, rfl⟩
      obtain ⟨typed, ofPhrase⟩ :=
        rivals_phrase admits same shown nothing (base.formAt (0 + 1) <|> none) (none <|> none)
      have equal := reads table nothing 0 1 (.leaf 0 ⟨0, 0⟩) inserted ofRule ofBase shown 0 ⟨0, 0⟩
        none none
      have leaf : ∀ form person,
          Tree.phrase table nothing (.leaf 0 ⟨0, 0⟩) form person = .ok ([], person) :=
        fun _ _ => by rw [Tree.phrase]
      have isBase := given "S" base ofStart
      rw [if_neg Nat.one_ne_zero, Tree.phrase_of_insertion ofRule onSymbols straight inserts, index,
        if_neg Nat.one_ne_zero, Tree.phrase_of_base ofBase (Rule.isLiteral_of_slots slots) isBase]
        at equal
      simp only [Tree.phraseAll_cons isBase, Tree.phraseAll_nil, leaf, Except.bind, Except.map,
        ofPhrase, unnamed, unnamedAlso, Tree.insertionPhrase, first] at equal
      cases (Prod.ext_iff.1 (Except.ok.inj equal)).2

end Grammar

end QueryGrammar
