import QueryGrammar.Proofs.Edits.KnownRecipes
import QueryGrammar.Proofs.Edits.Offers

namespace QueryGrammar

/-! What becomes of phrases when rules on the empty literal are folded away.

Main statements: where rules have no meaning and may all be inserted, no phrase of a symbol is lost
but for those that need a step which the guard against cycles refuses; and none is lost at all where
no symbol stands for itself even when symbols that can be produced from nothing are left out.
-/

open Relation

variable {κ : Type}

/-- The input that a rule on a literal stands for. -/
def Rule.words (rule : Rule κ) : List String :=
  match rule.production with
  | .literal text => if text == emptyLiteral then [] else [text]
  | .symbols _ => []

theorem Rule.words_eq_nil_iff {rule : Rule κ} (isLiteral : rule.isLiteral = true) :
    rule.words = [] ↔ rule.production.isEmptyLiteral = true := by
  obtain ⟨text, production⟩ := isLiteral_iff.1 isLiteral
  simp [words, production, Production.isEmptyLiteral]

namespace Expansion

variable {grammar : Grammar κ} {expansion : Expansion κ}

def root : Expansion κ → Rule κ
  | .literal _ rule => rule
  | .single _ rule _ => rule
  | .pair _ rule _ _ => rule

/-- The input, to which rules on the empty literal contribute nothing. -/
def words (expansion : Expansion κ) : List String :=
  expansion.literals.flatMap Rule.words

@[simp] theorem words_literal {symbol : String} {rule : Rule κ} :
    (literal symbol rule).words = rule.words := by
  simp [words, literals]

@[simp] theorem words_single {symbol : String} {rule : Rule κ} {part : Expansion κ} :
    (single symbol rule part).words = part.words :=
  rfl

@[simp] theorem words_pair {symbol : String} {rule : Rule κ} {left right : Expansion κ} :
    (pair symbol rule left right).words = left.words ++ right.words := by
  simp [words, literals]

/-- The steps from a symbol to the one that is kept, where a part without words is left out.  Where
the two are the same there is nothing to step to. -/
def foldings : Expansion κ → List (String × String)
  | .literal _ _ => []
  | .single _ _ part => part.foldings
  | .pair symbol _ left right =>
      if left.words = [] then
        (if right.symbol = symbol then [] else [(symbol, right.symbol)]) ++ right.foldings
      else if right.words = [] then
        (if left.symbol = symbol then [] else [(symbol, left.symbol)]) ++ left.foldings
      else left.foldings ++ right.foldings

theorem silent_of_words (admits : grammar.Admits expansion)
    (allowed : ∀ symbol, ∀ rule ∈ grammar.rulesOf symbol, rule.noInsert = false)
    (none : expansion.words = []) : expansion.Silent := by
  induction admits with
  | literal member isLiteral =>
      rw [words_literal, Rule.words_eq_nil_iff isLiteral] at none
      exact silent_literal.2 ⟨allowed _ _ member, fun _ => .inl none⟩
  | single member slots _ _ ih =>
      refine silent_single.2 ⟨⟨allowed _ _ member, fun isLiteral => ?_⟩, ih none⟩
      simp [Rule.slots_of_isLiteral isLiteral] at slots
  | pair member slots _ _ _ _ ihLeft ihRight =>
      rw [words_pair, List.append_eq_nil_iff] at none
      refine silent_pair.2 ⟨⟨allowed _ _ member, fun isLiteral => ?_⟩, ihLeft none.1,
        ihRight none.2⟩
      simp [Rule.slots_of_isLiteral isLiteral] at slots

end Expansion

namespace Grammar

variable {grammar edited : Grammar κ} {expansion part : Expansion κ} {symbol : String}
  {rule : Rule κ}

/-- A rule whose symbols all have expansions. -/
def Supports (grammar : Grammar κ) (symbol : String) (rule : Rule κ) : Prop :=
  rule ∈ grammar.rulesOf symbol ∧
    ∀ slot ∈ rule.slots, ∃ expansion, grammar.Admits expansion ∧ expansion.symbol = slot.symbol

theorem Admits.supports (admits : grammar.Admits expansion) :
    grammar.Supports expansion.symbol expansion.root := by
  cases admits with
  | literal member isLiteral =>
      exact ⟨member, by simp [Expansion.root, Rule.slots_of_isLiteral isLiteral]⟩
  | @single symbol rule slot part member slots same below =>
      refine ⟨member, ?_⟩
      simpa [Expansion.root, slots] using ⟨part, below, same⟩
  | @pair symbol rule first second left right member slots one two belowLeft belowRight =>
      refine ⟨member, ?_⟩
      simpa [Expansion.root, slots] using ⟨⟨left, belowLeft, one⟩, right, belowRight, two⟩

/-- Pruning takes no expansion away. -/
theorem Admits.prune (admits : grammar.Admits expansion)
    (pruned : ∀ symbol, edited.rulesOf symbol = (RuleMap.prune grammar.rules).rulesOf symbol) :
    edited.Admits expansion := by
  have kept : ∀ {expansion}, grammar.Admits expansion →
      expansion.root ∈ edited.rulesOf expansion.symbol := by
    intro expansion admits
    rw [pruned]
    refine RuleMap.mem_prune_of_supported (fun _ _ own => own.1)
      (fun symbol rule own slot member => ?_) admits.supports
    obtain ⟨below, admitsBelow, same⟩ := own.2 slot member
    exact same ▸ ⟨below.root, admitsBelow.supports⟩
  induction admits with
  | literal member isLiteral => exact .literal (kept (.literal member isLiteral)) isLiteral
  | single member slots same below ih =>
      exact .single (kept (.single member slots same below)) slots same ih
  | pair member slots one two left right ihLeft ihRight =>
      exact .pair (kept (.pair member slots one two left right)) slots one two ihLeft ihRight

theorem Admits.single_like {slot : Slot} (member : rule ∈ grammar.rulesOf symbol)
    (like : (Production.symbols [slot]).sameAs rule.production = true)
    (same : part.symbol = slot.symbol) (admits : grammar.Admits part) :
    grammar.Admits (.single symbol rule part) := by
  obtain ⟨others, production, spelled⟩ := Production.sameAs_symbols like
  obtain ⟨other, rfl, own⟩ := List.map_eq_singleton_iff.1 spelled
  exact .single member (Rule.slots_of_production production) (same.trans own.symm) admits

theorem Admits.pair_like {first second : Slot} {left right : Expansion κ}
    (member : rule ∈ grammar.rulesOf symbol)
    (like : (Production.symbols [first, second]).sameAs rule.production = true)
    (one : left.symbol = first.symbol) (two : right.symbol = second.symbol)
    (admitsLeft : grammar.Admits left) (admitsRight : grammar.Admits right) :
    grammar.Admits (.pair symbol rule left right) := by
  obtain ⟨others, production, spelled⟩ := Production.sameAs_symbols like
  obtain ⟨other, rest, rfl, own, spelledRest⟩ := List.map_eq_cons_iff.1 spelled
  obtain ⟨last, rfl, ownLast⟩ := List.map_eq_singleton_iff.1 spelledRest
  exact .pair member (Rule.slots_of_production production) (one.trans own.symm)
    (two.trans ownLast.symm) admitsLeft admitsRight

variable [Cost κ]

/-- The grammar with all rules, given and derived, before pruning. -/
def collected (grammar : Grammar κ) : Grammar κ :=
  { grammar with rules := (Edits.collect grammar).rules }

/-- Every rule but those on the empty literal is there, up to what tells rules apart. -/
theorem exists_collected (apart : grammar.SpellsApart) (member : rule ∈ grammar.rulesOf symbol)
    (solid : rule.production.isEmptyLiteral = false) : ∃ other ∈ grammar.collected.rulesOf symbol,
      rule.production.sameAs other.production = true := by
  obtain ⟨⟨other, inside, same⟩, -⟩ := Edits.collect_has member solid
  exact ⟨other, inside, Edits.sameAs_of_key apart (.given member solid)
    (Edits.collect_origin inside) same.symm⟩

/-- What a binary rule keeps expands its symbol where the other one can be produced from nothing,
unless the guard against cycles refuses the step. -/
theorem exists_kept {base : Rule κ} {index : Nat} {kept omitted : Slot} {recipe : Recipe κ}
    (apart : grammar.SpellsApart) (member : base ∈ grammar.rulesOf symbol)
    (allowed : base.noInsert = false) (leaves : Edits.Leaves base index kept omitted)
    (found : grammar.recipes.get? omitted.symbol = some recipe)
    (admits : grammar.collected.Admits part) (same : part.symbol = kept.symbol)
    (away : part.symbol ≠ symbol →
      (Edits.collect grammar).unary.reaches part.symbol symbol = false) :
    ∃ folded, grammar.collected.Admits folded ∧ folded.symbol = symbol ∧
      folded.words = part.words := by
  by_cases here : part.symbol = symbol
  · exact ⟨part, admits, here, rfl⟩
  · have solid : base.production.isEmptyLiteral = false := by
      cases leaves with
      | first slots | second slots => rw [Rule.production_of_slots slots, Production.isEmptyLiteral]
    have omits := (Edits.collect_has member solid).2
    obtain ⟨other, inside, key⟩ := omits index kept omitted recipe allowed leaves found
      (same ▸ here) (same ▸ away here)
    have like := Edits.sameAs_of_key apart (.omission member allowed leaves found)
      (Edits.collect_origin inside) key.symm
    exact ⟨.single symbol other part, .single_like inside like same admits, rfl, rfl⟩

/-- Parts without words can be left out of an expansion, unless a step is refused. -/
theorem exists_folded
    (meaningless : ∀ symbol, ∀ rule ∈ grammar.rulesOf symbol, rule.meaning = none)
    (allowed : ∀ symbol, ∀ rule ∈ grammar.rulesOf symbol, rule.noInsert = false)
    (apart : grammar.SpellsApart) (admits : grammar.Admits expansion)
    (spoken : expansion.words ≠ [])
    (away : ∀ step ∈ expansion.foldings,
      (Edits.collect grammar).unary.reaches step.2 step.1 = false) :
    ∃ folded, grammar.collected.Admits folded ∧ folded.symbol = expansion.symbol ∧
      folded.words = expansion.words := by
  have recipe : ∀ {expansion}, grammar.Admits expansion → expansion.words = [] →
      grammar.recipes.Knows expansion.symbol := fun admits none =>
    knows_of_silent meaningless admits (Expansion.silent_of_words admits allowed none)
  -- A part without words has a recipe, so the rule above it is there with the other part alone.
  induction admits with
  | @literal symbol rule member isLiteral =>
      rw [Expansion.words_literal, ne_eq, Rule.words_eq_nil_iff isLiteral] at spoken
      obtain ⟨other, inside, like⟩ := exists_collected apart member (Bool.eq_false_iff.2 spoken)
      obtain ⟨text, production⟩ := Rule.isLiteral_iff.1 isLiteral
      rw [production] at like
      have same := Production.sameAs_literal like
      refine ⟨.literal symbol other, .literal inside (Rule.isLiteral_of_production same), rfl, ?_⟩
      simp [Rule.words, production, same]
  | @single symbol rule slot part member slots same _ ih =>
      obtain ⟨folded, admits, sameFolded, words⟩ := ih spoken away
      have production := Rule.production_of_slots slots
      obtain ⟨other, inside, like⟩ := exists_collected apart member
        (by rw [production, Production.isEmptyLiteral])
      rw [production] at like
      exact ⟨.single symbol other folded,
        .single_like inside like (sameFolded.trans same) admits, rfl, words⟩
  | @pair symbol rule first second left right member slots one two belowLeft belowRight ihLeft
      ihRight =>
      simp only [Expansion.words_pair] at spoken ⊢
      by_cases silentLeft : left.words = []
      · rw [silentLeft, List.nil_append] at spoken ⊢
        simp only [Expansion.foldings, silentLeft, if_true, List.mem_append] at away
        obtain ⟨found, recipe⟩ := recipe belowLeft silentLeft
        obtain ⟨part, admits, same, words⟩ :=
          ihRight spoken fun step inside => away step (.inr inside)
        obtain ⟨folded, done, own, spelled⟩ := exists_kept apart member (allowed _ _ member)
          (.second slots) (one ▸ recipe) admits (same.trans two) fun differs => by
            rw [same] at differs ⊢
            exact away (symbol, right.symbol) (.inl (by simp [differs]))
        exact ⟨folded, done, own, spelled.trans words⟩
      · by_cases silentRight : right.words = []
        · rw [silentRight, List.append_nil] at spoken ⊢
          simp only [Expansion.foldings, silentLeft, if_false, silentRight, if_true,
            List.mem_append] at away
          obtain ⟨found, recipe⟩ := recipe belowRight silentRight
          obtain ⟨part, admits, same, words⟩ :=
            ihLeft spoken fun step inside => away step (.inr inside)
          obtain ⟨folded, done, own, spelled⟩ := exists_kept apart member (allowed _ _ member)
            (.first slots) (two ▸ recipe) admits (same.trans one) fun differs => by
              rw [same] at differs ⊢
              exact away (symbol, left.symbol) (.inl (by simp [differs]))
          exact ⟨folded, done, own, spelled.trans words⟩
        · simp only [Expansion.foldings, silentLeft, if_false, silentRight, List.mem_append] at away
          obtain ⟨foldedLeft, admitsLeft, sameLeft, wordsLeft⟩ :=
            ihLeft silentLeft fun step inside => away step (.inl inside)
          obtain ⟨foldedRight, admitsRight, sameRight, wordsRight⟩ :=
            ihRight silentRight fun step inside => away step (.inr inside)
          have production := Rule.production_of_slots slots
          obtain ⟨other, inside, like⟩ := exists_collected apart member
            (by rw [production, Production.isEmptyLiteral])
          rw [production] at like
          refine ⟨.pair symbol other foldedLeft foldedRight, .pair_like inside like
            (sameLeft.trans one) (sameRight.trans two) admitsLeft admitsRight, rfl, ?_⟩
          rw [Expansion.words_pair, wordsLeft, wordsRight]

/-- Folding rules on the empty literal away loses no phrase but those that need a step which would
lead back to where it starts from. -/
theorem withEdits_keeps_phrases
    (meaningless : ∀ symbol, ∀ rule ∈ grammar.rulesOf symbol, rule.meaning = none)
    (allowed : ∀ symbol, ∀ rule ∈ grammar.rulesOf symbol, rule.noInsert = false)
    (apart : grammar.SpellsApart) (derived : grammar.withEdits = .ok edited)
    (admits : grammar.Admits expansion) (spoken : expansion.words ≠ [])
    (away : ∀ step ∈ expansion.foldings,
      (Edits.collect grammar).unary.reaches step.2 step.1 = false) :
    ∃ folded, edited.Admits folded ∧ folded.symbol = expansion.symbol ∧
      folded.words = expansion.words := by
  obtain ⟨folded, collected, same, words⟩ :=
    exists_folded meaningless allowed apart admits spoken away
  exact ⟨folded, collected.prune fun _ => rulesOf_withEdits derived, same, words⟩

/-- Words of which the first may be left out. -/
def article : Grammar Amount where
  start := "S"
  rules := .ofList [
    ("S", [.symbols ["Stop", "Noun"]]),
    ("Stop", [.literal "the", .literal emptyLiteral]),
    ("Noun", [.literal "cat"])]
  concepts := {}

set_option maxRecDepth 100000 in
theorem withEdits_keeps_phrases_article :
    ∃ (edited : Grammar Amount) (expansion : Expansion Amount),
    (∀ symbol, ∀ rule ∈ article.rulesOf symbol, rule.meaning = none) ∧
    (∀ symbol, ∀ rule ∈ article.rulesOf symbol, rule.noInsert = false) ∧
    article.SpellsApart ∧ article.withEdits = .ok edited ∧ article.Admits expansion ∧
    expansion.words = ["cat"] ∧ (∀ step ∈ expansion.foldings,
      (Edits.collect article).unary.reaches step.2 step.1 = false) ∧
    ∃ folded, edited.Admits folded ∧ folded.symbol = expansion.symbol ∧
      folded.words = expansion.words := by
  have listed : ∀ entry ∈ article.allRules,
      entry.2.meaning.isNone = true ∧ entry.2.noInsert = false := by
    decide +kernel
  have meaningless : ∀ symbol, ∀ rule ∈ article.rulesOf symbol, rule.meaning = none :=
    fun symbol rule member => Option.isNone_iff_eq_none.1 (listed _ (mem_allRules.2 member)).1
  have allowed : ∀ symbol, ∀ rule ∈ article.rulesOf symbol, rule.noInsert = false :=
    fun symbol rule member => (listed _ (mem_allRules.2 member)).2
  have apart : article.SpellsApart := by decide +kernel
  have succeeds : (article.withEdits.toOption.any fun _ => true) = true := by decide +kernel
  have away : (Edits.collect article).unary.reaches "Noun" "S" = false := by decide +kernel
  have rules :
      ((article.rulesOf "S").any (fun rule => rule.slots == [⟨"Stop", none⟩, ⟨"Noun", none⟩])
      && (article.rulesOf "Stop").any (fun rule => rule.production == .literal emptyLiteral)
      && (article.rulesOf "Noun").any (fun rule => rule.production == .literal "cat")) = true := by
    decide +kernel
  simp only [Bool.and_eq_true, List.any_eq_true, beq_iff_eq] at rules
  obtain ⟨⟨⟨pair, ofS, slots⟩, empty, ofStop, isEmpty⟩, noun, ofNoun, isNoun⟩ := rules
  have admits : article.Admits (.pair "S" pair (.literal "Stop" empty) (.literal "Noun" noun)) :=
    .pair ofS slots rfl rfl (.literal ofStop (Rule.isLiteral_of_production isEmpty))
      (.literal ofNoun (Rule.isLiteral_of_production isNoun))
  have words : (Expansion.pair "S" pair (.literal "Stop" empty) (.literal "Noun" noun)).words =
      ["cat"] := by
    simp [Rule.words, isEmpty, isNoun, emptyLiteral]
  have steps : ∀ step ∈ (Expansion.pair "S" pair (.literal "Stop" empty)
      (.literal "Noun" noun)).foldings,
      (Edits.collect article).unary.reaches step.2 step.1 = false := by
    simpa [Expansion.foldings, Rule.words, isEmpty, Expansion.symbol] using away
  obtain ⟨edited, derived, -⟩ := exists_ok_of_any succeeds
  exact ⟨edited, _, meaningless, allowed, apart, derived, admits, words, steps,
    withEdits_keeps_phrases meaningless allowed apart derived admits (by simp [words]) steps⟩

/-- A symbol that another one stands for alone, which it would itself stand for. -/
def detour : Grammar Amount where
  start := "S"
  rules := .ofList [
    ("S", [.symbols ["A", "B"], .literal "s"]),
    ("A", [.symbols ["S"], .literal "a"]),
    ("B", [.literal emptyLiteral])]
  concepts := {}

set_option maxRecDepth 100000 in
/-- A phrase is lost where the step that it needs is refused. -/
theorem withEdits_detour_loses : detour.validate = .ok () ∧ detour.SpellsApart ∧
    (∀ symbol, ∀ rule ∈ detour.rulesOf symbol,
      rule.meaning = none ∧ rule.noInsert = false ∧ rule.isBase = true) ∧
    ∃ (edited : Grammar Amount) (expansion : Expansion Amount), detour.withEdits = .ok edited ∧
      detour.Admits expansion ∧ expansion.symbol = "S" ∧ expansion.words = ["a"] ∧
      ∀ folded, edited.Admits folded → folded.symbol = "S" → folded.words ≠ ["a"] := by
  have listed : ∀ entry ∈ detour.allRules, entry.2.meaning.isNone = true ∧
      entry.2.noInsert = false ∧ entry.2.isBase = true := by
    decide +kernel
  have apart : detour.SpellsApart := by decide +kernel
  have accepted : (detour.validate.toOption.any fun _ => true) = true := by decide +kernel
  have left : (detour.withEdits.toOption.any fun edited =>
      (edited.rulesOf "S").all fun rule => rule.production == .literal "s") = true := by
    decide +kernel
  have rules : ((detour.rulesOf "S").any (fun rule => rule.slots == [⟨"A", none⟩, ⟨"B", none⟩])
      && (detour.rulesOf "A").any (fun rule => rule.production == .literal "a")
      && (detour.rulesOf "B").any (fun rule => rule.production == .literal emptyLiteral)) =
      true := by
    decide +kernel
  simp only [Bool.and_eq_true, List.any_eq_true, beq_iff_eq] at rules
  obtain ⟨⟨⟨pair, ofS, slots⟩, letter, ofA, isLetter⟩, empty, ofB, isEmpty⟩ := rules
  have admits : detour.Admits (.pair "S" pair (.literal "A" letter) (.literal "B" empty)) :=
    .pair ofS slots rfl rfl (.literal ofA (Rule.isLiteral_of_production isLetter))
      (.literal ofB (Rule.isLiteral_of_production isEmpty))
  have words : (Expansion.pair "S" pair (.literal "A" letter) (.literal "B" empty)).words =
      ["a"] := by
    simp [Rule.words, isEmpty, isLetter, emptyLiteral]
  obtain ⟨_, valid, -⟩ := exists_ok_of_any accepted
  obtain ⟨edited, derived, only⟩ := exists_ok_of_any left
  simp only [List.all_eq_true, beq_iff_eq] at only
  refine ⟨valid, apart, fun symbol rule member => ?_, edited, _, derived, admits, rfl, words, ?_⟩
  · obtain ⟨plain, rest⟩ := listed _ (mem_allRules.2 member)
    exact ⟨Option.isNone_iff_eq_none.1 plain, rest⟩
  · -- The only rule on `S` that is left has another literal.
    intro folded allows here
    have top := only folded.root (here ▸ allows.supports.1)
    cases allows with
    | literal =>
        rw [Expansion.root] at top
        simp [Rule.words, top, emptyLiteral]
    | single _ slots | pair _ slots =>
        rw [Expansion.root] at top
        rw [Rule.slots, top] at slots
        cases slots

/-- A symbol stands for another that a rule of it has alone, or beside one that can be produced from
nothing. -/
inductive StandsFor (grammar : Grammar κ) : String → String → Prop
  | alone {symbol other : String} : grammar.UnaryStep symbol other → StandsFor grammar symbol other
  | beside {symbol : String} {base : Rule κ} {index : Nat} {kept omitted : Slot}
      {put : Expansion κ} : base ∈ grammar.rulesOf symbol → Edits.Leaves base index kept omitted →
      grammar.Admits put → put.symbol = omitted.symbol → put.Silent →
      StandsFor grammar symbol kept.symbol

theorem standsFor_of_leads {other : String} (valid : grammar.validate = .ok ())
    (leads : (Edits.collect grammar).unary.Leads symbol other) :
    grammar.StandsFor symbol other := by
  have all : ∀ {state}, Edits.Steps grammar ⟨{}, grammar.unaryEdges⟩ state → ∀ {symbol other},
      state.unary.Leads symbol other → grammar.StandsFor symbol other := by
    intro state steps
    induction steps with
    | refl => exact fun leads => .alone (leads_unaryEdges.1 leads)
    | tail _ step ih =>
        intro symbol other leads
        cases step with
        | same _ unary | given _ _ _ unary | swap _ _ _ _ unary => exact ih (unary ▸ leads)
        | @omission place base index kept omitted recipe isNew member _ leaves found _ _ _ unary =>
            rw [unary] at leads
            cases isNew with
            | false => exact ih leads
            | true =>
                rcases List.mem_append.1 leads with before | last
                · exact ih before
                · cases List.mem_singleton.1 last
                  obtain ⟨put, admits, same, silent, -⟩ := exists_silent_of_recipe valid found
                  exact .beside member leaves admits same silent
  exact all Edits.collect_steps leads

omit [Cost κ] in
theorem standsFor_of_foldings
    (allowed : ∀ symbol, ∀ rule ∈ grammar.rulesOf symbol, rule.noInsert = false)
    (admits : grammar.Admits expansion) :
    ∀ step ∈ expansion.foldings, grammar.StandsFor step.1 step.2 := by
  induction admits with
  | literal member isLiteral => simp [Expansion.foldings]
  | single member slots same below ih => exact ih
  | @pair symbol rule first second left right member slots one two belowLeft belowRight ihLeft
      ihRight =>
      intro step inside
      unfold Expansion.foldings at inside
      split at inside
      · rename_i silentLeft
        rcases List.mem_append.1 inside with own | below
        · split at own
          · cases own
          · rw [List.mem_singleton.1 own, two]
            exact .beside member (.second slots) belowLeft one
              (Expansion.silent_of_words belowLeft allowed silentLeft)
        · exact ihRight step below
      · split at inside
        · rename_i silentRight
          rcases List.mem_append.1 inside with own | below
          · split at own
            · cases own
            · rw [List.mem_singleton.1 own, one]
              exact .beside member (.first slots) belowRight two
                (Expansion.silent_of_words belowRight allowed silentRight)
          · exact ihLeft step below
        · exact (List.mem_append.1 inside).elim (ihLeft step) (ihRight step)

/-- No phrase at all is lost where no symbol stands for itself. -/
theorem withEdits_keeps_every_phrase (valid : grammar.validate = .ok ())
    (meaningless : ∀ symbol, ∀ rule ∈ grammar.rulesOf symbol, rule.meaning = none)
    (allowed : ∀ symbol, ∀ rule ∈ grammar.rulesOf symbol, rule.noInsert = false)
    (apart : grammar.SpellsApart) (noReturn : ∀ symbol, ¬ TransGen grammar.StandsFor symbol symbol)
    (derived : grammar.withEdits = .ok edited) (admits : grammar.Admits expansion)
    (spoken : expansion.words ≠ []) : ∃ folded, edited.Admits folded ∧
      folded.symbol = expansion.symbol ∧ folded.words = expansion.words := by
  have away : ∀ step ∈ expansion.foldings,
      (Edits.collect grammar).unary.reaches step.2 step.1 = false := by
    intro step inside
    rw [← Bool.not_eq_true, Edges.reaches_iff]
    intro path
    have back := TransGen.mono (fun _ _ => standsFor_of_leads valid) _ _ path
    exact noReturn step.1 (.head (standsFor_of_foldings allowed admits step inside) back)
  obtain ⟨folded, collected, same, words⟩ :=
    exists_folded meaningless allowed apart admits spoken away
  exact ⟨folded, collected.prune fun _ => rulesOf_withEdits derived, same, words⟩

end Grammar

end QueryGrammar
