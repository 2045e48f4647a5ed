import QueryGrammar.Proofs.Edits.Offers
import QueryGrammar.Proofs.Edits.Recipes
import QueryGrammar.Proofs.Meaning.Permuted
import QueryGrammar.Search.Candidate

namespace QueryGrammar

/-! What is inserted means what it would mean if it were in the input.

Main statement: where no open meaning is inserted next to another one for a rule that waits for
both, the meaning of a recipe is the one that an expansion without input has, and a rule that leaves
a symbol out means what its base means around that expansion.
-/

variable {κ : Type}

/-- The meanings that an expansion without input contributes to the rule around it. -/
def Expansion.yield? [Cost κ] : Expansion κ → Option (List (Meaning κ))
  | .literal _ rule => Search.literalMeanings rule none
  | .single _ rule part => part.yield?.bind fun args => Frame.close? ⟨rule.meaning, args⟩
  | .pair _ rule left right => left.yield?.bind fun own => right.yield?.bind fun others =>
      Frame.close? ⟨rule.meaning, own ++ others⟩

section

variable {meaning : Meaning κ} {args : List (Meaning κ)} {combined : Option (Meaning κ)}

theorem Frame.combine?_singleton (only : Meaning κ) : combine? [only] = some [only] := by
  unfold combine?
  cases isOpen : only.isOpen <;> simp [isOpen]

theorem Frame.combine?_closed (closed : ∀ arg ∈ args, arg.isOpen = false) :
    combine? args = some args := by
  have none : args.filter Meaning.isOpen = [] := by simpa [List.filter_eq_nil_iff] using closed
  rw [combine?, none]

/-- A meaning that is made of the meanings of parts is what a frame hands on for them. -/
theorem Frame.close?_of_combine? {own : Option (Meaning κ)}
    (alone : combine? args = some args)
    (made : Recipe.combine? own args = some combined) :
    close? ⟨own, args⟩ = some combined.toList := by
  unfold Recipe.combine? at made
  unfold close?
  rw [alone]
  split at made
  · cases made
    rfl
  · cases made
    rfl
  · cases made
  · cases made
    rename_i meaning
    cases isOpen : meaning.isOpen <;> simp [isOpen]
  · rename_i meaning several
    split at made
    · rename_i isOpen
      obtain ⟨filled, filling, rfl⟩ := Option.map_eq_some_iff.1 made
      cases args with
      | nil => exact absurd rfl several
      | cons first rest => simp [isOpen, filling]
    · cases made

end

namespace Grammar

variable [Cost κ] {grammar : Grammar κ} {expansion : Expansion κ} {recipe : Recipe κ}

/-- Where a rule on two symbols waits for what is inserted for both, neither waits itself. -/
def HandsNoOpen (grammar : Grammar κ) : Prop :=
  ∀ symbol, ∀ rule ∈ grammar.rulesOf symbol, ∀ first second meaning, rule.slots = [first, second] →
    rule.noInsert = false → rule.meaning = some meaning → meaning.isOpen = true →
    ∀ left right one two, grammar.Admits left → left.symbol = first.symbol → left.Silent →
      left.yield? = some [one] → grammar.Admits right → right.symbol = second.symbol →
      right.Silent → right.yield? = some [two] → one.isOpen = false ∧ two.isOpen = false

theorem Inserts.yield?_eq (closed : grammar.HandsNoOpen)
    (inserts : grammar.Inserts expansion recipe) :
    expansion.yield? = some recipe.meaning.toList := by
  induction inserts with
  | @empty symbol rule | @literal symbol text rule =>
      cases meaning : rule.meaning <;> simp [Expansion.yield?, Search.literalMeanings, meaning]
  | @single symbol rule slot part inner meaning member allowed slots same inserts combined ih =>
      have alone : Frame.combine? inner.meaning.toList = some inner.meaning.toList := by
        cases inner.meaning with
        | none => rfl
        | some only => exact Frame.combine?_singleton only
      rw [Expansion.yield?, ih, Option.bind_some]
      exact Frame.close?_of_combine? alone combined
  | @pair symbol rule first second left right one two meaning member allowed slots sameLeft
      sameRight insertsLeft insertsRight combined ihLeft ihRight =>
      have alone : Frame.combine? (one.meaning.toList ++ two.meaning.toList) =
          some (one.meaning.toList ++ two.meaning.toList) := by
        cases ofLeft : one.meaning with
        | none =>
            cases two.meaning with
            | none => rfl
            | some only => exact Frame.combine?_singleton only
        | some own =>
            cases ofRight : two.meaning with
            | none => exact Frame.combine?_singleton own
            | some other =>
                -- Two meanings are only combined by a rule that waits for them.
                obtain ⟨waiting, given, isOpen⟩ : ∃ waiting, rule.meaning = some waiting ∧
                    waiting.isOpen = true := by
                  rw [ofLeft, ofRight] at combined
                  cases given : rule.meaning with
                  | none => simp [given, Recipe.combine?] at combined
                  | some waiting =>
                      refine ⟨waiting, rfl, ?_⟩
                      by_contra done
                      simp [given, Recipe.combine?, done] at combined
                obtain ⟨left, right⟩ := closed symbol rule member first second waiting slots allowed
                  given isOpen left right own other insertsLeft.admits sameLeft insertsLeft.silent
                  (by rw [ihLeft, ofLeft]; rfl) insertsRight.admits sameRight insertsRight.silent
                  (by rw [ihRight, ofRight]; rfl)
                exact Frame.combine?_closed (by simp [left, right])
      rw [Expansion.yield?, ihLeft, ihRight, Option.bind_some, Option.bind_some]
      exact Frame.close?_of_combine? alone combined

section

variable {grammar edited : Grammar ℚ} {symbol : String} {rule : Rule ℚ} {insertion : Insertion ℚ}

/-- A rule that leaves a symbol out closes like its base around an expansion of that symbol without
input, at what this expansion and putting it in cost. -/
theorem withEdits_inserts_meaning (valid : grammar.validate = .ok ())
    (given : ∀ symbol, ∀ rule ∈ grammar.rulesOf symbol, rule.isBase = true)
    (closed : grammar.HandsNoOpen) (derived : grammar.withEdits = .ok edited)
    (member : rule ∈ edited.rulesOf symbol) (inserts : rule.insertion = some insertion) :
    ∃ base ∈ grammar.rulesOf symbol, ∃ kept omitted recipe put,
      Edits.Leaves base insertion.index kept omitted ∧
      grammar.recipes.get? omitted.symbol = some recipe ∧
      rule = Edits.omitting base insertion.index kept omitted recipe ∧
      grammar.Admits put ∧ put.symbol = omitted.symbol ∧ put.Silent ∧
      recipe.cost = put.cost + insertionCosts put.literals ∧
      ∃ own, put.yield? = some own ∧ ∀ args whole, whole.Perm (args ++ own) →
        Option.Rel List.Perm (Frame.close? ⟨rule.meaning, insertion.meaning.toList ++ args⟩)
          (Frame.close? ⟨base.meaning, whole⟩) := by
  cases origin_of_withEdits derived member with
  | given own =>
      have base := given symbol rule own
      simp [Rule.isBase, inserts] at base
  | swap => cases inserts
  | @omission base index kept omitted recipe own allowed leaves found =>
      obtain rfl := Option.some.inj inserts
      obtain ⟨put, same, made⟩ := exists_inserts_of_recipe valid found
      refine ⟨base, own, kept, omitted, recipe, put, leaves, found, rfl, made.admits, same,
        made.silent, by rw [made.cost_eq, put.insertedCost_eq], _, made.yield?_eq closed, ?_⟩
      exact fun args whole perm =>
        Frame.close?_perm (List.perm_append_comm.trans perm.symm)

/-- A symbol with rules on literals alone expands to a literal. -/
theorem Admits.eq_literal {expansion : Expansion ℚ} (admits : grammar.Admits expansion)
    (literals : ∀ rule ∈ grammar.rulesOf expansion.symbol, rule.isLiteral = true) :
    ∃ rule ∈ grammar.rulesOf expansion.symbol, expansion = .literal expansion.symbol rule := by
  cases admits with
  | literal member => exact ⟨_, member, rfl⟩
  | single member slots | pair member slots =>
      simp [Rule.slots_of_isLiteral (literals _ member)] at slots

end

/-- The function of a phrase of two words. -/
def outer : Meaning ℚ :=
  .leaf ⟨"f", 0, .function 1 2 false false⟩

/-- Two meanings that are in order and can coexist are taken as they are. -/
theorem fill?_outer {first second : Meaning ℚ} (before : first.isBefore second = true)
    (coexist : (Meaning.neighboursAgree [first, second] &&
      Meaning.isUniform [first, second]) = true) :
    outer.fill? [first, second] = some (.apply outer.concept [first, second]) := by
  have sorted : [first, second].mergeSort Meaning.isBefore = [first, second] :=
    List.mergeSort_of_pairwise (by simpa using before)
  have arranged : Meaning.arrange? [first, second] = some [first, second] := by
    simp only [Meaning.arrange?, sorted, coexist, if_true]
  simp only [outer, Meaning.leaf, Meaning.fill?, Meaning.application?, arranged, Meaning.concept]
  rfl

/-- A phrase that can be left out, whose function is given what the two words in it mean. -/
def phraseOf (first second : Meaning ℚ) : Grammar ℚ where
  start := "S"
  rules := .ofList [
    ("D", [{ Rule.symbols ["G", "X"] with meaning := some outer }]),
    ("G", [{ Rule.literal "g" with insertionCost := some 1, meaning := some first }]),
    ("K", [.literal "k"]),
    ("S", [.symbols ["K", "D"]]),
    ("X", [{ Rule.literal "x" with insertionCost := some 1, meaning := some second }])]
  concepts := {}

/-- What is put in for each of the words. -/
def wordRecipes (first second : Meaning ℚ) : Recipes ℚ :=
  let none : Recipes ℚ := {}
  (none.insert "G" ⟨1, [{ wording := .fixed "g" }], some first, .none⟩).insert "X"
    ⟨1, [{ wording := .fixed "x" }], some second, .none⟩

/-- What is put in for the phrase. -/
def phraseRecipe (whole : Meaning ℚ) : Recipe ℚ :=
  ⟨1 + 1, [{ wording := .fixed "g" }, { wording := .fixed "x" }], some whole, none⟩

/-- The words have recipes after one pass, and the phrase has one after another, if its function
takes what the words mean. -/
theorem recipes_phraseOf {first second whole : Meaning ℚ}
    (filled : outer.fill? [first, second] = some whole) :
    (phraseOf first second).recipes = (wordRecipes first second).insert "D" (phraseRecipe whole) := by
  have isOpen : outer.isOpen = true := rfl
  have ordered : ["D", "G", "K", "S", "X"].Pairwise (· < ·) := by decide
  have entries : (phraseOf first second).rules.entries = [
      ("D", [{ Rule.symbols ["G", "X"] with meaning := some outer }]),
      ("G", [{ Rule.literal "g" with insertionCost := some 1, meaning := some first }]),
      ("K", [.literal "k"]),
      ("S", [.symbols ["K", "D"]]),
      ("X", [{ Rule.literal "x" with insertionCost := some 1, meaning := some second }])] :=
    Dictionary.entries_ofList (List.pairwise_map.1 ordered)
  have rules : (phraseOf first second).allRules = [
      ("D", { Rule.symbols ["G", "X"] with meaning := some outer }),
      ("G", { Rule.literal "g" with insertionCost := some 1, meaning := some first }),
      ("K", .literal "k"),
      ("S", .symbols ["K", "D"]),
      ("X", { Rule.literal "x" with insertionCost := some 1, meaning := some second })] := by
    rw [allRules, entries]
    rfl
  have size : (phraseOf first second).rules.size = 5 := by
    rw [Dictionary.size, entries]
    rfl
  have words : Recipes.pass (phraseOf first second).allRules {} =
      (wordRecipes first second, true) := by
    simp [rules, Recipes.pass, Recipes.consider, Recipe.ofRule?, Recipe.ofSlots?, Recipes.improves,
      Rule.literal, Rule.symbols, emptyLiteral, Rule.display, Dictionary.get?_insert, wordRecipes]
  have phrase : Recipes.pass (phraseOf first second).allRules (wordRecipes first second) =
      ((wordRecipes first second).insert "D" (phraseRecipe whole), true) := by
    simp [rules, Recipes.pass, Recipes.consider, Recipe.ofRule?, Recipe.ofSlots?, Recipe.combine?,
      Recipes.improves, Rule.literal, Rule.symbols, emptyLiteral, Rule.display,
      Dictionary.get?_insert, wordRecipes, isOpen, filled, phraseRecipe,
      Recipe.withForm, Cost.total, Cost.less]
  have nothing : Recipes.pass (phraseOf first second).allRules
        ((wordRecipes first second).insert "D" (phraseRecipe whole)) =
      ((wordRecipes first second).insert "D" (phraseRecipe whole), false) := by
    simp [rules, Recipes.pass, Recipes.consider, Recipe.ofRule?, Recipe.ofSlots?, Recipe.combine?,
      Recipes.improves, Rule.literal, Rule.symbols, emptyLiteral, Rule.display,
      Dictionary.get?_insert, wordRecipes, isOpen, filled, phraseRecipe,
      Recipe.withForm, Cost.total, Cost.less]
  simp only [recipes, size, Recipes.passes, words, phrase, nothing, if_true, Bool.false_eq_true,
    if_false]

/-- Both words of the phrase are arguments. -/
def arguments : Grammar ℚ :=
  phraseOf (.leaf ⟨"g", 0, .argument⟩) (.leaf ⟨"x", 0, .argument⟩)

set_option maxRecDepth 100000 in
theorem arguments_handsNoOpen : arguments.HandsNoOpen := by
  have words : ∀ name ∈ ["G", "X"], ∀ rule ∈ arguments.rulesOf name,
      rule.isLiteral = true ∧ rule.meaning.all (!·.isOpen) = true := by
    decide +kernel
  have names : ∀ entry ∈ arguments.allRules, entry.2.slots.length = 2 →
      entry.2.meaning.isSome = true → entry.2.slots = [⟨"G", none⟩, ⟨"X", none⟩] := by
    decide +kernel
  have ends : ∀ name ∈ ["G", "X"], ∀ (part : Expansion ℚ) only, arguments.Admits part →
      part.symbol = name → part.yield? = some [only] → only.isOpen = false := by
    intro name listed part only admits same yields
    subst same
    obtain ⟨rule, member, literal⟩ :=
      admits.eq_literal fun rule member => (words _ listed rule member).1
    have done := (words _ listed rule member).2
    rw [literal, Expansion.yield?] at yields
    cases meaning : rule.meaning with
    | none => simp [Search.literalMeanings, meaning] at yields
    | some own =>
        simp only [Search.literalMeanings, meaning, ite_self, Option.map_none, Option.some.injEq,
          List.cons.injEq, and_true] at yields
        simpa [meaning, yields] using done
  intro symbol rule member first second meaning slots _ given _ left right one two admitsLeft
    sameLeft _ ofLeft admitsRight sameRight _ ofRight
  have named := names _ (mem_allRules.2 member) (by simp [slots]) (by simp [given])
  cases slots.symm.trans named
  exact ⟨ends "G" (by simp) left one admitsLeft sameLeft ofLeft,
    ends "X" (by simp) right two admitsRight sameRight ofRight⟩

set_option maxRecDepth 100000 in
theorem withEdits_inserts_meaning_arguments : arguments.validate = .ok () ∧
    (∀ symbol, ∀ rule ∈ arguments.rulesOf symbol, rule.isBase = true) ∧ arguments.HandsNoOpen ∧
    ∃ edited rule insertion, arguments.withEdits = .ok edited ∧ rule ∈ edited.rulesOf "S" ∧
      rule.insertion = some insertion ∧
      insertion.meaning.map Meaning.text = some "f(g,x)" ∧
      ∃ base ∈ arguments.rulesOf "S", ∃ kept omitted recipe put,
        Edits.Leaves base insertion.index kept omitted ∧
        arguments.recipes.get? omitted.symbol = some recipe ∧
        rule = Edits.omitting base insertion.index kept omitted recipe ∧
        arguments.Admits put ∧ put.symbol = omitted.symbol ∧ put.Silent ∧
        recipe.cost = put.cost + insertionCosts put.literals ∧
        ∃ own, put.yield? = some own ∧ ∀ args whole, whole.Perm (args ++ own) →
          Option.Rel List.Perm (Frame.close? ⟨rule.meaning, insertion.meaning.toList ++ args⟩)
            (Frame.close? ⟨base.meaning, whole⟩) := by
  have accepted : (arguments.validate.toOption.any fun _ => true) = true := by decide +kernel
  have listed : ∀ entry ∈ arguments.allRules, entry.2.isBase = true := by decide +kernel
  have given : ∀ symbol, ∀ rule ∈ arguments.rulesOf symbol, rule.isBase = true :=
    fun symbol rule member => listed (symbol, rule) (mem_allRules.2 member)
  have edits : (arguments.withEdits.toOption.any fun edited => (edited.rulesOf "S").any fun rule =>
      rule.insertion.any fun insertion =>
        decide (insertion.meaning.map Meaning.text = some "f(g,x)")) = true := by
    unfold withEdits Edits.collect arguments
    rw [recipes_phraseOf (fill?_outer (by decide +kernel) (by decide +kernel))]
    decide +kernel
  obtain ⟨_, valid, -⟩ := exists_ok_of_any accepted
  obtain ⟨edited, derived, rules⟩ := exists_ok_of_any edits
  simp only [List.any_eq_true, Option.any_eq_true, decide_eq_true_eq] at rules
  obtain ⟨rule, member, insertion, inserts, text⟩ := rules
  exact ⟨valid, given, arguments_handsNoOpen, edited, rule, insertion, derived, member, inserts, text,
    withEdits_inserts_meaning valid given arguments_handsNoOpen derived member inserts⟩

/-- The first word of the phrase is a function as well, which waits for the second one. -/
def nested : Grammar ℚ :=
  phraseOf (.leaf ⟨"g", 0, .function 1 1 false false⟩) (.leaf ⟨"x", 0, .argument⟩)

set_option maxRecDepth 100000 in
/-- What is inserted for the phrase gives both words to the outer function, where the phrase itself
gives the second word to the first one. -/
theorem withEdits_flattens_nested : nested.validate = .ok () ∧
    (∀ symbol, ∀ rule ∈ nested.rulesOf symbol, rule.isBase = true) ∧
    ∃ edited rule insertion, nested.withEdits = .ok edited ∧ rule ∈ edited.rulesOf "S" ∧
      rule.insertion = some insertion ∧
      ∀ base ∈ nested.rulesOf "S", ∀ kept omitted put own,
        Edits.Leaves base insertion.index kept omitted → nested.Admits put →
        put.symbol = omitted.symbol → put.yield? = some own →
        ¬ Option.Rel List.Perm (Frame.close? ⟨rule.meaning, insertion.meaning.toList ++ []⟩)
          (Frame.close? ⟨base.meaning, [] ++ own⟩) := by
  have accepted : (nested.validate.toOption.any fun _ => true) = true := by decide +kernel
  have listed : ∀ entry ∈ nested.allRules, entry.2.isBase = true := by decide +kernel
  have given : ∀ symbol, ∀ rule ∈ nested.rulesOf symbol, rule.isBase = true :=
    fun symbol rule member => listed (symbol, rule) (mem_allRules.2 member)
  have edits : (nested.withEdits.toOption.any fun edited => (edited.rulesOf "S").any fun rule =>
      rule.insertion.any fun insertion => decide (insertion.index = 1 ∧
        (Frame.close? ⟨rule.meaning, insertion.meaning.toList ++ []⟩).map
          (List.map Meaning.text) = some ["f(g(),x)"])) = true := by
    unfold withEdits Edits.collect nested
    rw [recipes_phraseOf (fill?_outer (by decide +kernel) (by decide +kernel))]
    decide +kernel
  obtain ⟨_, valid, -⟩ := exists_ok_of_any accepted
  obtain ⟨edited, derived, rules⟩ := exists_ok_of_any edits
  simp only [List.any_eq_true, Option.any_eq_true, decide_eq_true_eq] at rules
  obtain ⟨rule, member, insertion, inserts, index, flat⟩ := rules
  refine ⟨valid, given, edited, rule, insertion, derived, member, inserts, ?_⟩
  have starts : ∀ base ∈ nested.rulesOf "S", base.slots = [⟨"K", none⟩, ⟨"D", none⟩] ∧
      base.meaning.isNone = true := by
    decide +kernel
  have phrases : ∀ phrase ∈ nested.rulesOf "D", phrase.slots = [⟨"G", none⟩, ⟨"X", none⟩] := by
    decide +kernel
  have words : ∀ name ∈ ["G", "X"], ∀ word ∈ nested.rulesOf name, word.isLiteral = true := by
    decide +kernel
  have typed : ∀ phrase ∈ nested.rulesOf "D", ∀ first ∈ nested.rulesOf "G",
      ∀ second ∈ nested.rulesOf "X",
      ((Expansion.pair "D" phrase (.literal "G" first) (.literal "X" second)).yield?.bind fun own =>
        Frame.close? ⟨none, [] ++ own⟩).map (List.map Meaning.text) = some ["f(g(x))"] := by
    decide +kernel
  intro base ofStart kept omitted put own leaves admits same yields agree
  obtain ⟨slots, meaningless⟩ := starts base ofStart
  rw [index] at leaves
  cases leaves with
  | first ownSlots =>
      cases slots.symm.trans ownSlots
      have ofPhrase : put.symbol = "D" := same
      cases admits with
      | literal inside isLiteral =>
          obtain rfl : _ = "D" := ofPhrase
          have several := phrases _ inside
          simp [Rule.slots_of_isLiteral isLiteral] at several
      | single inside alone =>
          obtain rfl : _ = "D" := ofPhrase
          have several := phrases _ inside
          simp [alone] at several
      | @pair _ phrase _ _ left right inside parts sameLeft sameRight admitsLeft admitsRight =>
          obtain rfl : _ = "D" := ofPhrase
          cases parts.symm.trans (phrases phrase inside)
          have onLeft : left.symbol = "G" := sameLeft
          have onRight : right.symbol = "X" := sameRight
          obtain ⟨first, ofFirst, literal⟩ :=
            admitsLeft.eq_literal (by rw [onLeft]; exact words "G" (by simp))
          obtain ⟨second, ofSecond, literalAlso⟩ :=
            admitsRight.eq_literal (by rw [onRight]; exact words "X" (by simp))
          rw [onLeft] at ofFirst literal
          rw [onRight] at ofSecond literalAlso
          have apart := typed phrase inside first ofFirst second ofSecond
          rw [← literal, ← literalAlso, yields, Option.bind_some] at apart
          rw [Option.isNone_iff_eq_none.1 meaningless] at agree
          generalize Frame.close? ⟨none, [] ++ own⟩ = nestedWords at agree apart
          generalize Frame.close? ⟨rule.meaning, insertion.meaning.toList ++ []⟩ = flatWords
            at agree flat
          cases agree with
          | none => cases flat
          | some perm =>
              have texts := perm.map Meaning.text
              rw [Option.map_some, Option.some.injEq] at flat apart
              rw [flat, apart] at texts
              simp at texts

end Grammar

end QueryGrammar
