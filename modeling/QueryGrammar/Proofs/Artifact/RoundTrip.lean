import QueryGrammar.Proofs.Artifact.Rule
import QueryGrammar.Proofs.Table.Loaded

namespace QueryGrammar

open Json Json.Decoder

/-! Artifacts that are read as what they were written from.

Main statement: a valid grammar and a compiled table are read back from their artifacts, if every
number in them is finite and the artifact is not nested too deeply.
-/

theorem returns_dictionaryToJson {decoder : Decoder α} {encode : α → Json}
    {dictionary : Dictionary α}
    (returns : ∀ entry ∈ dictionary.entries, Returns decoder (encode entry.2) entry.2) :
    Returns (Decoder.dictionary decoder) (dictionaryToJson encode dictionary) dictionary :=
  returns_dictionary returns

namespace Grammar

theorem returns {grammar : Grammar Amount} (faithful : Faithful grammar.amounts grammar.counts) :
    Returns decoder grammar.toJson grammar := by
  have rules : ∀ entry ∈ grammar.rules.entries,
      Returns (Decoder.list Rule.decoder) (.ofList Rule.toJson entry.2) entry.2 := by
    intro entry member
    refine returns_list fun rule among => Rule.returns (faithful.mono ?_ ?_)
    all_goals
      have listed : (entry.1, rule) ∈ grammar.allRules :=
        List.mem_flatMap.2 ⟨entry, member, List.mem_map.2 ⟨rule, among, rfl⟩⟩
      intro number inside
      exact List.mem_append_left _ (List.mem_flatMap.2 ⟨_, listed, inside⟩)
  have concepts : ∀ entry ∈ grammar.concepts.entries,
      Returns Concept.decoder entry.2.toJson entry.2 := by
    intro entry member
    have listed : entry.2 ∈ grammar.concepts.values := List.mem_map.2 ⟨entry, member, rfl⟩
    refine Concept.returns (faithful.mono ?_ ?_)
    · refine List.cons_subset.2 ⟨?_, List.nil_subset _⟩
      exact List.mem_append_right _ (List.mem_map.2 ⟨_, listed, rfl⟩)
    · intro count inside
      exact List.mem_append_right _ (List.mem_flatMap.2 ⟨_, listed, inside⟩)
  refine returns_record [.required "start" (returns_text grammar.start),
    .required "rules" (returns_dictionaryToJson rules),
    .required "semantics" (returns_dictionaryToJson concepts)]
    rfl rfl (by decide) fun levels reads => ?_
  simp only [List.forall_mem_cons, Field.required] at reads
  obtain ⟨start, rules, concepts, -⟩ := reads
  simp only [List.map_cons, List.map_nil, Field.required, start, rules, concepts]
  rfl

theorem ofArtifact_artifact {grammar : Grammar Amount} (valid : grammar.validate = .ok ())
    (faithful : Faithful grammar.amounts grammar.counts)
    (shallow : grammar.toJson.depth ≤ deepest) : ofArtifact grammar.artifact = .ok grammar := by
  have decoded := (returns faithful).decode?_pretty shallow
  rw [ofArtifact, artifact, decoded]
  simp only [valid]

end Grammar

theorem IndexedRule.returns {rule : IndexedRule Amount}
    (faithful : Faithful rule.rule.amounts rule.counts) : Returns decoder rule.toJson rule := by
  have slots : rule.slots ⊆ rule.counts := fun slot member =>
    List.mem_append_left _ (List.mem_cons_of_mem _ member)
  have inner : Faithful rule.rule.amounts rule.rule.counts :=
    faithful.mono (List.Subset.refl _) (List.subset_append_right ..)
  refine returns_record [.required "lhs" (faithful.returns_count (List.mem_cons_self ..)),
    .required "rhs" (faithful.returns_counts slots),
    .required "rule" (Rule.returns inner)] rfl rfl (by decide) fun levels reads => ?_
  simp only [List.forall_mem_cons, Field.required] at reads
  obtain ⟨symbol, slots, own, -⟩ := reads
  simp only [List.map_cons, List.map_nil, Field.required, symbol, slots, own]
  rfl

namespace State

theorem returns_shift {shift : Nat × Nat} (symbol : shift.1 < Nat.pow 2 64)
    (target : shift.2 < Nat.pow 2 64) : Returns shiftDecoder (shiftToJson shift) shift := by
  refine ⟨.array ?_, fun levels inside => ?_⟩
  · exact List.forall_mem_cons.2
      ⟨proper_nat _, List.forall_mem_cons.2 ⟨proper_nat _, nofun⟩⟩
  · obtain ⟨inner, rfl, -⟩ := exists_levels_of_array inside
    simp only [shiftToJson, shiftDecoder, (returns_nat symbol).reads inner (Nat.zero_le _),
      (returns_nat target).reads inner (Nat.zero_le _)]
    rfl

theorem returns {state : State} (word : ∀ count ∈ state.counts, count < Nat.pow 2 64) :
    Returns decoder state.toJson state := by
  have reductions : ∀ rule ∈ state.reductions, Returns Decoder.nat (.nat rule) rule :=
    fun rule member => returns_nat (word rule (List.mem_append_left _ member))
  have shifts : ∀ shift ∈ state.shifts.toList, Returns shiftDecoder (shiftToJson shift) shift := by
    intro shift member
    have counted : ∀ count ∈ [shift.1, shift.2], count < Nat.pow 2 64 := fun count among =>
      word count (List.mem_append_right _ (List.mem_flatMap.2 ⟨shift, member, among⟩))
    exact returns_shift (counted _ (by simp)) (counted _ (by simp))
  refine returns_record [.required "reductions" (returns_list reductions),
    .required "shifts" (returns_list shifts),
    .required "is_final" (returns_bool state.accepts)] rfl rfl (by decide) fun levels reads => ?_
  simp only [List.forall_mem_cons, Field.required] at reads
  obtain ⟨reductions, shifts, accepts, -⟩ := reads
  simp only [List.map_cons, List.map_nil, Field.required, reductions, shifts, accepts]
  rfl

end State

namespace Table

theorem returns {table : Table Amount} (faithful : Faithful table.amounts table.counts) :
    Returns decoder table.toJson table := by
  have rules : ∀ rule ∈ table.rules.toList, Returns IndexedRule.decoder rule.toJson rule := by
    intro rule member
    refine IndexedRule.returns (faithful.mono ?_ ?_)
    · exact fun amount inside => List.mem_flatMap.2 ⟨rule, member, inside⟩
    · intro count inside
      have counted := List.mem_flatMap.2 ⟨rule, member, inside⟩
      simp only [counts, List.mem_cons, List.mem_append]
      exact .inr (.inr (.inl (.inl counted)))
  have literals : ∀ entry ∈ table.literals.entries,
      Returns (Decoder.list Decoder.nat) (.ofList .nat entry.2) entry.2 := by
    intro entry member
    refine faithful.returns_counts fun rule among => ?_
    have counted : rule ∈ table.literals.values.flatten :=
      List.mem_flatten.2 ⟨entry.2, List.mem_map.2 ⟨entry, member, rfl⟩, among⟩
    simp only [counts, List.mem_cons, List.mem_append]
    exact .inr (.inr (.inl (.inr counted)))
  have states : ∀ state ∈ table.states.toList, Returns State.decoder state.toJson state := by
    intro state member
    refine State.returns fun count inside => faithful.word count ?_
    have counted := List.mem_flatMap.2 ⟨state, member, inside⟩
    simp only [counts, List.mem_cons, List.mem_append]
    exact .inr (.inr (.inr counted))
  refine returns_record [.required "start" (faithful.returns_count (by simp [counts])),
    .required "symbols" (returns_list fun symbol (_ : symbol ∈ table.symbols.toList) =>
      returns_text symbol),
    .required "rules" (returns_list rules),
    .required "literals" (returns_dictionaryToJson literals),
    .required "states" (returns_list states),
    .required "max_literal_words" (faithful.returns_count (by simp [counts]))]
    rfl rfl (by decide) fun levels reads => ?_
  simp only [List.forall_mem_cons, Field.required] at reads
  obtain ⟨start, symbols, rules, literals, states, longestLiteral, -⟩ := reads
  simp only [List.map_cons, List.map_nil, Field.required, start, symbols, rules, literals, states,
    longestLiteral]
  rfl

theorem ofArtifact_artifact {table : Table Amount} (closed : table.Closed)
    (faithful : Faithful table.amounts table.counts) (shallow : table.toJson.depth ≤ deepest) :
    ofArtifact table.artifact = .ok table := by
  have decoded := (returns faithful).decode?_compact shallow
  rw [ofArtifact, artifact, decoded]
  simp only [flaw?_eq_none_iff.2 closed]

end Table

/-- A valid grammar and a compiled table are read back from their artifacts as they were, in every
field of every part, and give the same artifacts again. -/
theorem artifacts_restored (grammar : Grammar Amount) :
    (grammar.validate = .ok () → Faithful grammar.amounts grammar.counts →
      grammar.toJson.depth ≤ deepest →
      Grammar.ofArtifact grammar.artifact = .ok grammar ∧
        (Grammar.ofArtifact grammar.artifact).map Grammar.artifact = .ok grammar.artifact) ∧
    ∀ table, Table.compile grammar = .ok table → Faithful table.amounts table.counts →
      table.toJson.depth ≤ deepest →
      Table.ofArtifact table.artifact = .ok table ∧
        (Table.ofArtifact table.artifact).map Table.artifact = .ok table.artifact := by
  constructor
  · intro valid faithful shallow
    have restored := Grammar.ofArtifact_artifact valid faithful shallow
    exact ⟨restored, by rw [restored, Except.map]⟩
  · intro table compiled faithful shallow
    obtain ⟨-, edited, -, built⟩ := Table.stages_of_compile compiled
    have restored := Table.ofArtifact_artifact (Table.closed_of_build built) faithful shallow
    exact ⟨restored, by rw [restored, Except.map]⟩

/-- Symbols that may be left out and swapped, costs that are no whole numbers, a meaning within a
meaning, and texts with characters that are escaped. -/
def Grammar.escaped : Grammar Amount where
  start := "S"
  rules :=
    let many : Concept Amount := ⟨"many", .known 1.5, .function 1 1 false true⟩
    .ofList [
      ("O", [{ Rule.literal "the \"big\" cats" with
        cost := .known 0.1
        meaning := some (.apply many [.leaf ⟨"cats", 0, .argument⟩])
        wording := some (.inflected { plural := some "big\tcats" }) }]),
      ("S", [{ Rule.symbols ["V", "O"] with transpositionCost := some (.known 1e-7) }]),
      ("V", [{ Rule.literal "see" with
        insertionCost := some (.known 2)
        meaning := some (.leaf ⟨"see\\", 0, .argument⟩)
        wording := some (.inflected { past := some "saw" }) }])]
  concepts := .ofList [("cats", ⟨"cats", 0, .argument⟩)]

set_option maxRecDepth 100000 in
theorem artifacts_restored_escaped : ∃ table : Table Amount,
    Grammar.escaped.validate = .ok () ∧ Table.compile Grammar.escaped = .ok table ∧
      (∃ entry ∈ table.rules.toList, ∃ insertion, entry.rule.insertion = some insertion ∧
        insertion.meaning.isSome = true) ∧
      Grammar.ofArtifact Grammar.escaped.artifact = .ok Grammar.escaped ∧
      Table.ofArtifact table.artifact = .ok table ∧
      (Table.ofArtifact table.artifact).map Table.artifact = .ok table.artifact := by
  have readable : ((Table.compile Grammar.escaped).toOption.any fun table =>
      decide (Faithful table.amounts table.counts) && decide (table.toJson.depth ≤ deepest) &&
      table.rules.toList.any fun entry => entry.rule.insertion.any (·.meaning.isSome)) = true := by
    decide +kernel
  obtain ⟨table, compiled, readable⟩ := exists_ok_of_any readable
  simp only [Bool.and_eq_true, decide_eq_true_eq, List.any_eq_true, Option.any_eq_true] at readable
  obtain ⟨⟨faithful, shallow⟩, entry, member, insertion, inserts, meant⟩ := readable
  obtain ⟨valid, -⟩ := Table.stages_of_compile compiled
  obtain ⟨ofGrammar, ofTable⟩ := artifacts_restored Grammar.escaped
  obtain ⟨restored, again⟩ := ofTable table compiled faithful shallow
  exact ⟨table, valid, compiled, ⟨entry, member, insertion, inserts, meant⟩,
    (ofGrammar valid (by decide +kernel) (by decide +kernel)).1, restored, again⟩

end QueryGrammar
