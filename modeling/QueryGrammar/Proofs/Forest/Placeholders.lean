import QueryGrammar.Grammar.Notation.Statement
import QueryGrammar.Proofs.Input.Exact
import QueryGrammar.Proofs.Meaning.Sharing
import QueryGrammar.Proofs.Tree.ReadBack

namespace QueryGrammar

/-! Placeholders and entities.

Main statement: where the literals of categories are left to placeholders, and the query does not
contain one, placeholders match entities and nothing else does.
-/

open Automaton Text

variable {κ : Type}

namespace Grammar

variable {grammar : Grammar κ} {gazetteer : Gazetteer} {query : String}

/-- Every rule on the literal that stands for a category of the gazetteer is a placeholder. -/
def MarksCategories (grammar : Grammar κ) (gazetteer : Gazetteer) : Prop :=
  ∀ given ∈ grammar.allRules, ∀ named ∈ gazetteer.byName.values.flatten,
    given.2.readsLike (Lattice.categoryLiteral named.1) = true → given.2.role = .placeholder

instance : Decidable (grammar.MarksCategories gazetteer) :=
  inferInstanceAs (Decidable (∀ given ∈ grammar.allRules,
    ∀ named ∈ gazetteer.byName.values.flatten,
    given.2.readsLike (Lattice.categoryLiteral named.1) = true → given.2.role = .placeholder))

/-- No stretch of the query reads like the literal of a placeholder. -/
def NotMentionedIn (grammar : Grammar κ) (query : String) : Prop :=
  ∀ given ∈ grammar.allRules, ∀ span ∈ Lattice.spans (wordsOf query).length,
    given.2.readsLike (spaced ((((wordsOf query).take span.2).drop span.1).map lower)) = true →
    given.2.role ≠ .placeholder

instance : Decidable (grammar.NotMentionedIn query) :=
  inferInstanceAs (Decidable (∀ given ∈ grammar.allRules,
    ∀ span ∈ Lattice.spans (wordsOf query).length,
    given.2.readsLike (spaced ((((wordsOf query).take span.2).drop span.1).map lower)) = true →
    given.2.role ≠ .placeholder))

end Grammar

namespace Meaning

/-- Filling a meaning puts what it is given into it. -/
theorem mem_concepts_fill? {siblings : List (Meaning κ)} {sibling : Meaning κ}
    {concept : Concept κ} (member : sibling ∈ siblings) (inside : concept ∈ sibling.concepts) :
    (meaning : Meaning κ) → {result : Meaning κ} → meaning.fill? siblings = some result →
    concept ∈ result.concepts
  | .apply own [], result, made => by
      rw [fill?] at made
      obtain ⟨args, perm, rfl⟩ := application?_eq_some made
      exact List.mem_cons_of_mem _ (mem_conceptsAll.2 ⟨sibling, perm.mem_iff.2 member, inside⟩)
  | .apply own [inner], result, made => by
      rw [fill?] at made
      cases filled : inner.fill? siblings with
      | none => simp [filled] at made
      | some middle =>
          simp only [filled] at made
          obtain ⟨args, perm, rfl⟩ := application?_eq_some made
          have among : middle ∈ args := perm.mem_iff.2 (List.mem_singleton_self _)
          exact List.mem_cons_of_mem _ (mem_conceptsAll.2
            ⟨middle, among, mem_concepts_fill? member inside inner filled⟩)
  | .apply own (first :: second :: rest), result, made => by
      simp [fill?] at made

end Meaning

/-- The id of an entity is part of what its placeholder means. -/
theorem Search.mem_literalMeanings [Cost κ] {rule : Rule κ} {entity : Entity}
    {meanings : List (Meaning κ)} (role : rule.role = .placeholder)
    (made : literalMeanings rule (some entity) = some meanings) :
    ∃ meaning ∈ meanings, ∃ concept ∈ meaning.concepts, concept.name = entity.id := by
  have own : (⟨entity.id, 0, .argument⟩ : Concept κ) ∈ (Meaning.entity entity.id).concepts :=
    List.mem_cons_self ..
  simp only [literalMeanings, role, if_true, Option.map_some] at made
  cases meant : rule.meaning with
  | none =>
      simp only [meant, Option.some.injEq] at made
      subst made
      exact ⟨_, List.mem_singleton_self _, _, own, rfl⟩
  | some meaning =>
      simp only [meant] at made
      split at made
      · obtain ⟨filled, result, rfl⟩ := Option.map_eq_some_iff.1 made
        exact ⟨filled, List.mem_singleton_self _, _,
          Meaning.mem_concepts_fill? (List.mem_singleton_self _) own meaning result, rfl⟩
      · cases made
        exact ⟨_, List.mem_cons_of_mem _ (List.mem_singleton_self _), _, own, rfl⟩

theorem Gazetteer.mem_values_of_mem_lookUp {gazetteer : Gazetteer} {key : String}
    {named : String × Entity} (member : named ∈ gazetteer.lookUp key) :
    named ∈ gazetteer.byName.values.flatten := by
  cases found : gazetteer.byName.get? key with
  | none => simp [lookUp, found] at member
  | some present =>
      rw [lookUp, found, Option.getD_some] at member
      exact List.mem_flatten.2 ⟨present,
        List.mem_map.2 ⟨(key, present), Dictionary.mem_entries_iff.2 found, rfl⟩, member⟩

namespace Lattice

variable {table : Table κ} {gazetteer : Gazetteer} {query : String} {lattice : Lattice}
  {hit : Match}

theorem literal_of_entity {entity : Entity} (read : ofQuery table gazetteer query = .ok lattice)
    (member : hit ∈ lattice.found) (has : hit.entity = some entity) :
    ∃ named ∈ gazetteer.byName.values.flatten, hit.literal = categoryLiteral named.1 := by
  unfold ofQuery at read
  split at read
  · cases read
  · cases read
    simp only [List.mem_toArray, List.mem_flatMap] at member
    obtain ⟨span, -, among⟩ := member
    rcases List.mem_append.1 among with plain | named
    · split at plain
      · rw [List.mem_singleton.1 plain] at has
        cases has
      · cases plain
    · obtain ⟨call, called, made⟩ := List.mem_filterMap.1 named
      simp only at made
      split at made
      · cases made
        exact ⟨call, Gazetteer.mem_values_of_mem_lookUp called, rfl⟩
      · cases made

/-- A match without an entity is over a literal that reads like a stretch of the query. -/
theorem literal_of_noEntity (read : ofQuery table gazetteer query = .ok lattice)
    (member : hit ∈ lattice.found) (none : hit.entity = none) :
    ∃ span ∈ spans (wordsOf query).length,
      hit.literal = spaced ((((wordsOf query).take span.2).drop span.1).map lower) := by
  have tokens := ofQuery_tokens read
  have spanning := ofQuery_spanning read hit member
  refine ⟨(hit.start, hit.stop), mem_spans.2 ?_, ?_⟩
  · rwa [length, tokens, tokensOf, List.length_map] at spanning
  · rw [(ofQuery_found read member).2 none, stretch, tokens, tokensOf, ← List.map_take,
      ← List.map_drop, keyOf, List.map_map]
    rfl

theorem isEmpty_text (read : ofQuery table gazetteer query = .ok lattice)
    (member : hit ∈ lattice.found) : hit.text.isEmpty = false := by
  have nonempty := (readsAs_typed read member).nonempty
  cases empty : hit.text.isEmpty with
  | true => simp [Tree.wordOf, empty] at nonempty
  | false => rfl

end Lattice

namespace Forest

variable [Cost κ] {grammar : Grammar κ} {gazetteer : Gazetteer} {query : String} {table : Table κ}
  {lattice : Lattice} {forest : Forest} {id rule found : Nat}

/-- A match is only taken by rules of the grammar on a literal that reads like it. -/
theorem rule_of_terminal (compiled : Table.compile grammar = .ok table)
    (read : Lattice.ofQuery table gazetteer query = .ok lattice)
    (made : ofLattice table lattice = .ok (.ok forest))
    (has : forest.Has id (.terminal rule found)) :
    ∃ entry hit symbol, table.rules[rule]? = some entry ∧ forest.found[found]? = some hit ∧
      hit ∈ lattice.found ∧ (symbol, entry.rule) ∈ grammar.allRules ∧
      entry.rule.readsLike hit.literal = true := by
  obtain ⟨-, edited, derived, built⟩ := Table.stages_of_compile compiled
  obtain ⟨kernels, automaton⟩ := Table.build_compiled built
  rcases ofLattice_spec automaton (Lattice.ofQuery_spanning read) with
    ⟨again, -, madeAgain, presents, -⟩ | ⟨failed, -⟩
  swap
  · cases made.symm.trans failed
  cases made.symm.trans madeAgain
  obtain ⟨hit, entry, present, listed, known, -⟩ := presents.terminal _ _ _ has
  obtain ⟨entryAgain, knownAgain, reads⟩ := automaton.mem_literalRules.1 listed
  cases known.symm.trans knownAgain
  -- Edits only make rules on symbols, so the rule is one of the grammar.
  obtain ⟨text, production, -⟩ := Rule.readsLike_iff.1 reads
  obtain ⟨symbol, -, ofEdited, -⟩ := Table.rule_of_build built known
  exact ⟨entry, hit, symbol, known, by rw [presents.found, present], Array.mem_of_getElem? present,
    Grammar.mem_allRules.2 ((Grammar.origin_of_withEdits derived ofEdited).given_of_literal
      production), reads⟩

omit [Cost κ] in
/-- A placeholder displays what was typed. -/
theorem phrase_of_placeholder {entry : IndexedRule κ} {hit : Match} {span : Span}
    {form : Option Form} {person : Option Person} (known : table.rules[rule]? = some entry)
    (present : forest.found[found]? = some hit) (isLiteral : entry.rule.isLiteral = true)
    (placeholder : entry.rule.role = .placeholder) (typed : hit.text.isEmpty = false) :
    Tree.phrase table forest (.branch id rule span [.leaf found span]) form person =
      .ok ([hit.text], entry.rule.person <|> person) := by
  simp only [Tree.phrase, Table.ruleAt, Fault.lookUp, known, isLiteral, if_true,
    Tree.literalPhrase, placeholder, Forest.matchAt, present, bind, Except.bind, Tree.wordOf, typed,
    Bool.false_eq_true, if_false]

/-- Placeholders match entities, and entities are matched by nothing else: what is known of one
reaches both what a derivation means and what it displays. -/
theorem placeholder_iff_entity (compiled : Table.compile grammar = .ok table)
    (read : Lattice.ofQuery table gazetteer query = .ok lattice)
    (made : ofLattice table lattice = .ok (.ok forest))
    (marks : grammar.MarksCategories gazetteer) (apart : grammar.NotMentionedIn query)
    (has : forest.Has id (.terminal rule found)) :
    ∃ entry hit, table.rules[rule]? = some entry ∧ forest.found[found]? = some hit ∧
      (entry.rule.role = .placeholder ↔ hit.entity.isSome = true) ∧
      ∀ entity, hit.entity = some entity →
        (∀ meanings, Search.literalMeanings entry.rule hit.entity = some meanings →
          ∃ meaning ∈ meanings, ∃ concept ∈ meaning.concepts, concept.name = entity.id) ∧
        ∀ span form person,
          Tree.phrase table forest (.branch id rule span [.leaf found span]) form person =
            .ok ([hit.text], entry.rule.person <|> person) := by
  obtain ⟨entry, hit, symbol, known, present, member, given, reads⟩ :=
    rule_of_terminal compiled read made has
  have role : entry.rule.role = .placeholder ↔ hit.entity.isSome = true := by
    cases entity : hit.entity with
    | none =>
        obtain ⟨span, inside, same⟩ := Lattice.literal_of_noEntity read member entity
        simpa using apart _ given span inside (same ▸ reads)
    | some entity =>
        obtain ⟨named, known, same⟩ := Lattice.literal_of_entity read member entity
        simpa using marks _ given named known (same ▸ reads)
  refine ⟨entry, hit, known, present, role, fun entity carried => ?_⟩
  have placeholder := role.2 (by rw [carried]; rfl)
  refine ⟨fun meanings meant => ?_, fun span form person => ?_⟩
  · rw [carried] at meant
    exact Search.mem_literalMeanings placeholder meant
  · obtain ⟨text, production, -⟩ := Rule.readsLike_iff.1 reads
    exact phrase_of_placeholder known present (Rule.isLiteral_iff.2 ⟨text, production⟩) placeholder
      (Lattice.isEmpty_text read member)

end Forest

namespace Grammar

variable [Cost κ] {grammar : Grammar κ} {gazetteer : Gazetteer} {query : String} {role : Role}
  {named : Bool}

/-- The forest of a query has a rule of some role over a match with or without an entity. -/
def MatchesAs (grammar : Grammar κ) (gazetteer : Gazetteer) (query : String) (role : Role)
    (named : Bool) : Prop :=
  ∃ table lattice forest id rule found entry hit,
    Table.compile grammar = .ok table ∧ Lattice.ofQuery table gazetteer query = .ok lattice ∧
      Forest.ofLattice table lattice = .ok (.ok forest) ∧
      forest.Has id (.terminal rule found) ∧ table.rules[rule]? = some entry ∧
      forest.found[found]? = some hit ∧ entry.rule.role = role ∧ hit.entity.isSome = named

def matchesAs (grammar : Grammar κ) (gazetteer : Gazetteer) (query : String) (role : Role)
    (named : Bool) : Bool :=
  (Table.compile grammar).toOption.any fun table =>
    (Lattice.ofQuery table gazetteer query).toOption.any fun lattice =>
      (Forest.ofLattice table lattice).toOption.any fun parsed => parsed.toOption.any fun forest =>
        forest.nodes.any fun node => node.alternatives.any fun
          | .terminal rule found =>
              (table.rules[rule]?.any fun entry => decide (entry.rule.role = role)) &&
                forest.found[found]?.any fun hit => decide (hit.entity.isSome = named)
          | .branch _ _ => false

theorem matchesAs_of_decided (decided : grammar.matchesAs gazetteer query role named = true) :
    grammar.MatchesAs gazetteer query role named := by
  obtain ⟨table, compiled, decided⟩ := exists_ok_of_any decided
  obtain ⟨lattice, read, decided⟩ := exists_ok_of_any decided
  obtain ⟨parsed, made, decided⟩ := exists_ok_of_any decided
  obtain ⟨forest, rfl, decided⟩ := exists_ok_of_any decided
  obtain ⟨id, inside, decided⟩ := Array.any_eq_true.1 decided
  obtain ⟨alternative, member, decided⟩ := List.any_eq_true.1 decided
  cases alternative with
  | branch rule children => cases decided
  | terminal rule found =>
      simp only [Bool.and_eq_true, Option.any_eq_true, decide_eq_true_eq] at decided
      obtain ⟨⟨entry, known, role⟩, hit, present, entity⟩ := decided
      exact ⟨table, lattice, forest, id, rule, found, entry, hit, compiled, read, made,
        ⟨_, Array.getElem?_eq_getElem inside, member⟩, known, present, role, entity⟩

end Grammar

namespace Forest

set_option maxRecDepth 100000 in
theorem placeholder_iff_entity_following : ∃ table lattice forest id rule found entry hit,
    Table.compile Grammar.following = .ok table ∧
      Lattice.ofQuery table .danny "who follows danny b" = .ok lattice ∧
      ofLattice table lattice = .ok (.ok forest) ∧
      Grammar.following.MarksCategories .danny ∧
      Grammar.following.NotMentionedIn "who follows danny b" ∧
      forest.Has id (.terminal rule found) ∧ table.rules[rule]? = some entry ∧
      forest.found[found]? = some hit ∧ hit.entity.isSome = true ∧
      (entry.rule.role = .placeholder ↔ hit.entity.isSome = true) := by
  have marks : Grammar.following.MarksCategories .danny := by decide +kernel
  have apart : Grammar.following.NotMentionedIn "who follows danny b" := by decide +kernel
  obtain ⟨table, lattice, forest, id, rule, found, entry, hit, compiled, read, made, has, known,
      present, -, entity⟩ := Grammar.matchesAs_of_decided
    (show Grammar.following.matchesAs .danny "who follows danny b" .placeholder true = true by
      decide +kernel)
  obtain ⟨entryAgain, hitAgain, knownAgain, presentAgain, both, -⟩ :=
    placeholder_iff_entity compiled read made marks apart has
  cases known.symm.trans knownAgain
  cases present.symm.trans presentAgain
  exact ⟨table, lattice, forest, id, rule, found, entry, hit, compiled, read, made, marks, apart,
    has, known, present, entity, both⟩

end Forest

set_option maxRecDepth 100000 in
/-- Without a mark of its own, a rule on a category in braces is an ordinary one that takes entities
all the same. A placeholder takes its own literal, if that is typed. -/
theorem Grammar.matchesAs_unmarked :
    (∃ grammar, Grammar.ofText "S -> By U;\nBy -> by;\nU -> \x7buser\x7d;" = .ok grammar ∧
      grammar.MatchesAs .danny "by danny b" .plain true) ∧
    ∃ grammar, Grammar.ofText
        "S -> By U;\nBy -> by;\nU[kind: placeholder] -> \x7buser\x7d;" = .ok grammar ∧
      grammar.MatchesAs .danny "by \x7buser\x7d" .placeholder false := by
  have plain : ((Grammar.ofText "S -> By U;\nBy -> by;\nU -> \x7buser\x7d;").toOption.any
      fun grammar => grammar.matchesAs .danny "by danny b" .plain true) = true := by
    decide +kernel
  have typed : ((Grammar.ofText
      "S -> By U;\nBy -> by;\nU[kind: placeholder] -> \x7buser\x7d;").toOption.any
      fun grammar => grammar.matchesAs .danny "by \x7buser\x7d" .placeholder false) = true := by
    decide +kernel
  obtain ⟨grammar, described, decided⟩ := exists_ok_of_any plain
  obtain ⟨other, describedAlso, decidedAlso⟩ := exists_ok_of_any typed
  exact ⟨⟨grammar, described, matchesAs_of_decided decided⟩,
    other, describedAlso, matchesAs_of_decided decidedAlso⟩

end QueryGrammar
