import QueryGrammar.Engine.Basic
import QueryGrammar.Proofs.Costs
import QueryGrammar.Proofs.Search.Sound
import QueryGrammar.Proofs.Tree.Grounded

namespace QueryGrammar

/-! Answers of an engine.

Main statement: what a search finds is what it is said to be, and every result becomes an answer.
-/

namespace Engine

variable {engine : Engine} {forest : Forest}

/-- Choices that an engine can show as a tree. -/
def Shows (engine : Engine) (forest : Forest) (choices : List Choice) : Prop :=
  ∃ tree, Tree.ofChoices forest choices = .ok (some tree) ∧ tree.Grounded engine.table forest

theorem Shows.phrase? {choices : List Choice} (shows : engine.Shows forest choices) :
    ∃ tree text, engine.phrase? forest choices = .ok (some (tree, text)) ∧
      tree.Grounded engine.table forest := by
  obtain ⟨tree, built, grounded⟩ := shows
  obtain ⟨text, phrasing⟩ := Tree.exists_phrasing grounded
  refine ⟨tree, text, ?_, grounded⟩
  simp only [Engine.phrase?, built, phrasing, bind, Except.bind]

theorem ambiguities_spec {duplicates : List (Duplicate Amount)}
    (shown : ∀ duplicate ∈ duplicates, engine.Shows forest duplicate.choices) :
    ∃ others, engine.ambiguities forest duplicates = .ok others ∧
      others.map Ambiguity.cost = duplicates.map Duplicate.cost := by
  induction duplicates with
  | nil => exact ⟨[], rfl, rfl⟩
  | cons duplicate rest ih =>
      obtain ⟨own, later⟩ := List.forall_mem_cons.1 shown
      obtain ⟨tree, text, phrasing, -⟩ := own.phrase?
      obtain ⟨others, listed, costs⟩ := ih later
      refine ⟨⟨text, duplicate.cost⟩ :: others, ?_, by simp [costs]⟩
      simp only [ambiguities, phrasing, listed, bind, Except.bind]

/-- No result is dropped. -/
theorem answers_spec (request : Request) {derivations : List (Derivation Amount)}
    (shown : ∀ derivation ∈ derivations, engine.Shows forest derivation.choices ∧
      ∀ duplicate ∈ derivation.duplicates, engine.Shows forest duplicate.choices) :
    ∃ answers, engine.answers request forest derivations = .ok answers ∧
      answers.map (fun answer =>
        (answer.cost, answer.meaning, answer.ambiguous.map Ambiguity.cost)) =
        derivations.map fun derivation =>
          (derivation.cost, derivation.meaning, derivation.duplicates.map Duplicate.cost) := by
  induction derivations with
  | nil => exact ⟨[], rfl, rfl⟩
  | cons derivation rest ih =>
      obtain ⟨⟨own, duplicates⟩, later⟩ := List.forall_mem_cons.1 shown
      obtain ⟨tree, text, phrasing, grounded⟩ := own.phrase?
      obtain ⟨ambiguous, listed, costs⟩ := ambiguities_spec duplicates
      obtain ⟨others, answered, same⟩ := ih later
      obtain ⟨labelled, labels⟩ := Tree.exists_labelled tree grounded
      refine ⟨⟨text, derivation.cost, derivation.meaning,
        if request.trees then some labelled else none, ambiguous⟩ :: others, ?_,
        by simp [costs, same]⟩
      cases trees : request.trees <;>
        simp only [answers, phrasing, listed, labels, answered, trees, Functor.map, Except.map, bind,
          Except.bind, Bool.false_eq_true, if_true, if_false]

/-- Searches are sound: they find at most as many results as wanted, of different meanings. The
choices of each are those of a tree at the root, which has the cost and the meaning of the result,
and so are those of its duplicates. No result is missing from the response of the engine. -/
theorem search_sound (engine : Engine) {grammar : Grammar Amount} {query : String}
    {lattice : Lattice}
    (parsed : forest.Parsed grammar engine.gazetteer query engine.table lattice)
    (limits : Limits) :
    ∃ root results stats, forest.root = some root ∧
      forest.search engine.table limits = .ok (results, stats) ∧
      results.length ≤ limits.results ∧ Distinct results ∧
      (∀ result ∈ results, forest.Confirms engine.table root result) ∧
      ∀ request cancelled, request.query = query → engine.limits request cancelled = limits →
        ∃ response, engine.respond request cancelled = .ok (.ok response) ∧
          response.answers.map (fun answer =>
            (answer.cost, answer.meaning, answer.ambiguous.map Ambiguity.cost)) =
            results.map fun result =>
              (result.cost, result.meaning, result.duplicates.map Duplicate.cost) := by
  obtain ⟨root, results, stats, top, searching, few, distinct, confirmed⟩ :=
    parsed.search_confirms limits
  refine ⟨root, results, stats, top, searching, few, distinct, confirmed, ?_⟩
  intro request cancelled asked limited
  subst asked limited
  have shows : ∀ {choices cost meaning}, forest.Realizes engine.table root choices cost meaning →
      engine.Shows forest choices := fun ⟨tree, _, spells, built, _⟩ =>
    ⟨tree, built, spells.grounded parsed.presents.1 tree (List.mem_singleton_self tree)⟩
  obtain ⟨answers, answered, same⟩ := answers_spec request fun result member =>
    have known := confirmed result member
    ⟨shows known.own, fun duplicate listed => shows (known.duplicates duplicate listed)⟩
  refine ⟨⟨answers, stats, if request.forest then some forest else none⟩, ?_, same⟩
  simp only [respond, parsed.read, parsed.made, searching, answered, bind, Except.bind]

end Engine

/-- A grammar in which a query can mean the same in two ways, with a word in it that may be left out,
so that a rule is derived that leads from one symbol to another. -/
def Grammar.authors : Grammar Amount :=
  let author : Meaning Amount := .leaf ⟨"author", 0, .function 1 1 false false⟩
  let preposition : Rule Amount := { Rule.literal "by" with meaning := some author }
  let name : Rule Amount := { Rule.literal "ann" with meaning := some (.entity "ann") }
  { start := "S"
    rules := .ofList [("A", [name]), ("F", [preposition]), ("G", [preposition]),
      ("N", [.symbols ["T", "A"]]), ("S", [.symbols ["F", "N"], .symbols ["G", "N"]]),
      ("T", [.literal "the", .literal emptyLiteral])]
    concepts := {} }

set_option maxRecDepth 100000 in
theorem Engine.search_sound_authors : ∃ (engine : Engine) (lattice : Lattice) (forest : Forest),
    forest.Parsed Grammar.authors engine.gazetteer "by ann" engine.table lattice ∧
      ∃ root results stats response, forest.root = some root ∧
        forest.search engine.table ⟨2, 200000, true, fun _ => false⟩ = .ok (results, stats) ∧
        results.length ≤ 2 ∧ Distinct results ∧
        (∀ result ∈ results, forest.Confirms engine.table root result) ∧
        engine.respond { query := "by ann", results := some 2, ambiguity := true } false =
          .ok (.ok response) ∧
        response.answers.map (fun answer =>
          (answer.cost, answer.meaning, answer.ambiguous.map Ambiguity.cost)) =
          results.map fun result =>
            (result.cost, result.meaning, result.duplicates.map Duplicate.cost) := by
  have reads : Grammar.authors.reads .empty "by ann" = true := by decide +kernel
  obtain ⟨table, lattice, forest, parsed⟩ := Grammar.exists_parsed reads
  obtain ⟨root, results, stats, top, searching, few, distinct, confirmed, answered⟩ :=
    Engine.search_sound ⟨table, .empty, {}⟩ parsed ⟨2, 200000, true, fun _ => false⟩
  obtain ⟨response, responding, same⟩ :=
    answered { query := "by ann", results := some 2, ambiguity := true } false rfl rfl
  exact ⟨⟨table, .empty, {}⟩, lattice, forest, parsed, root, results, stats, response, top, searching,
    few, distinct, confirmed, responding, same⟩

end QueryGrammar
