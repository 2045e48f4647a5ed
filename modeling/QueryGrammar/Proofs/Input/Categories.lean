import QueryGrammar.Grammar.Entry
import QueryGrammar.Proofs.Input.Exact
import QueryGrammar.Proofs.Text.Bracketed

namespace QueryGrammar

/-! Categories as grammars and gazetteers write them.

Main statement: an entity is matched for the placeholder of its category wherever its name occurs, if
and only if the category neither begins nor ends with a blank.
-/

open Text

variable {κ : Type}

namespace Gazetteer

variable {gazetteer larger : Gazetteer} {earlier later calls present : List (String × Entity)}
  {category key : String} {entity known : Entity} {call : String × Entity}

theorem concerns_of_add (added : gazetteer.add category entity = .ok larger) :
    concerns (normalize entity.name) (category, entity) = true ∧ normalize entity.name ≠ "" := by
  simp only [add] at added
  split at added
  · cases added
  · rename_i named
    simp only [Bool.or_eq_true, not_or, Bool.not_eq_true] at named
    obtain ⟨⟨name, id⟩, nonblank⟩ := named
    exact ⟨by simp [concerns, id, nonblank], by simpa using name⟩

theorem category_of_concerns (concerned : concerns key (category, entity) = true) :
    isBlankText category = false := by
  simp only [concerns, Bool.and_eq_true, Bool.not_eq_true', Bool.or_eq_false_iff] at concerned
  exact concerned.2.2

/-- The entity that stands for one that was added: the first of its id in the category and under the
name. -/
structure Keeps (earlier : List (String × Entity)) (category : String) (entity known : Entity) :
    Prop where
  id : known.id = entity.id
  name : normalize known.name = normalize entity.name
  first : (∀ call ∈ earlier, call.1 = category → call.2.id = entity.id →
    normalize call.2.name ≠ normalize entity.name) → known = entity

theorem mem_addTo (member : call ∈ present) : call ∈ addTo category entity present := by
  unfold addTo
  split
  · exact member
  · exact List.mem_append_left _ member

theorem mem_of_mem_addTo (member : call ∈ addTo category entity present) :
    call ∈ present ∨ call = (category, entity) := by
  unfold addTo at member
  split at member
  · exact .inl member
  · simpa using member

/-- Adding an entity leaves one of its id in the category, and no other than itself if there was
none. -/
theorem exists_mem_addTo (category : String) (entity : Entity) (present : List (String × Entity)) :
    ∃ known, (category, known) ∈ addTo category entity present ∧ known.id = entity.id ∧
      ((category, known) ∈ present ∨ known = entity) := by
  unfold addTo
  split
  · rename_i found
    obtain ⟨⟨other, known⟩, member, same⟩ := List.any_eq_true.1 found
    simp only [Bool.and_eq_true, beq_iff_eq] at same
    obtain ⟨rfl, id⟩ := same
    exact ⟨known, member, id, .inl member⟩
  · exact ⟨entity, by simp, rfl, .inr rfl⟩

theorem mem_foldl_addTo (member : call ∈ present) :
    call ∈ calls.foldl (fun present call => addTo call.1 call.2 present) present := by
  induction calls generalizing present with
  | nil => exact member
  | cons first rest ih => exact ih (mem_addTo member)

theorem mem_of_mem_foldl_addTo
    (member : call ∈ calls.foldl (fun present call => addTo call.1 call.2 present) present) :
    call ∈ present ∨ call ∈ calls := by
  induction calls generalizing present with
  | nil => exact .inl member
  | cons first rest ih =>
      rcases ih member with before | later
      · rcases mem_of_mem_addTo before with old | own
        · exact .inl old
        · exact .inr (own ▸ List.mem_cons_self ..)
      · exact .inr (List.mem_cons_of_mem _ later)

theorem mem_of_mem_called (nonempty : key ≠ "") (member : call ∈ called calls key) :
    call ∈ calls ∧ concerns key call = true := by
  rw [← lookUp_ofCalls nonempty, ofCalls, lookUp_foldl nonempty] at member
  exact List.mem_filter.1 ((mem_of_mem_foldl_addTo member).resolve_left List.not_mem_nil)

/-- What was added is found under its name, or what stands for it. -/
theorem exists_keeps (added : (ofCalls earlier).add category entity = .ok larger)
    (later : List (String × Entity)) : ∃ known, Keeps earlier category entity known ∧
      (category, known) ∈ called (earlier ++ (category, entity) :: later) (normalize entity.name) := by
  obtain ⟨own, nonempty⟩ := concerns_of_add added
  rw [← lookUp_ofCalls nonempty, ofCalls, lookUp_foldl nonempty, List.filter_append,
    List.filter_cons_of_pos own, List.foldl_append, List.foldl_cons]
  generalize before : (earlier.filter (concerns (normalize entity.name))).foldl
    (fun present call => addTo call.1 call.2 present) (empty.lookUp (normalize entity.name)) = present
  have origin : ∀ known, (category, known) ∈ present →
      (category, known) ∈ earlier ∧ normalize known.name = normalize entity.name := by
    intro known member
    have listed := (mem_of_mem_foldl_addTo (before ▸ member)).resolve_left List.not_mem_nil
    obtain ⟨given, concerned⟩ := List.mem_filter.1 listed
    simp only [concerns, Bool.and_eq_true, beq_iff_eq] at concerned
    exact ⟨given, concerned.1⟩
  obtain ⟨known, member, id, old⟩ := exists_mem_addTo category entity present
  refine ⟨known, ⟨id, ?_, fun none => ?_⟩, mem_foldl_addTo member⟩
  · rcases old with old | rfl
    · exact (origin known old).2
    · rfl
  · refine old.resolve_left fun old => ?_
    obtain ⟨given, name⟩ := origin known old
    exact none _ given rfl id name

end Gazetteer

/-- The literal of a placeholder reads like that of a category. -/
theorem normalize_literal_iff {entry : PlaceholderEntry κ} {category : String}
    (nonblank : isBlankText entry.category = false) (also : isBlankText category = false) :
    normalize entry.literal = Lattice.categoryLiteral category ↔
      trimmed entry.category = entry.category ∧ normalize entry.category = normalize category := by
  have words := wordsOf_ne_nil nonblank
  have letters : entry.category.toList ≠ [] := fun none =>
    words (by rw [wordsOf, none, words_nil]; rfl)
  have trims : trimmed entry.category = entry.category ↔ Flush entry.category.toList := by
    rw [← trim_eq_self_iff letters, trimmed]
    constructor
    · intro same
      simpa using congrArg String.toList same
    · intro same
      rw [same, String.ofList_toList]
  have opening : "\x7b" = String.singleton '\x7b' := by decide
  have closing : "\x7d" = String.singleton '\x7d' := by decide
  rw [trims, PlaceholderEntry.literal, Lattice.categoryLiteral, opening, closing]
  exact normalize_bracketed_iff neutral_opening neutral_closing words (wordsOf_ne_nil also)

namespace Lattice

variable [Cost κ] {grammar : Grammar κ} {table : Table κ} {rule : IndexedRule κ}
  {entry : PlaceholderEntry κ} {earlier : List (String × Entity)} {entity : Entity}
  {larger : Gazetteer} {query : String} {start stop id : Nat}

omit [Cost κ] in
/-- The matches that refer to entities. -/
theorem mem_expected_iff {calls : List (String × Entity)} {words : List String} {span : Nat × Nat}
    {hit : Match} {known : Entity} :
    hit ∈ expected table calls words span ∧ hit.entity = some known ↔
      ∃ category, (category, known) ∈ Gazetteer.called calls
          (spaced (((words.take span.2).drop span.1).map lower)) ∧
        table.spells (categoryLiteral category) = true ∧
        hit = ⟨categoryLiteral category, span.1, span.2, spaced ((words.take span.2).drop span.1),
          some known⟩ := by
  simp only [expected, List.mem_append, List.mem_map, List.mem_filter]
  constructor
  · rintro ⟨plain | ⟨⟨category, entity⟩, ⟨listed, spelled⟩, rfl⟩, refers⟩
    · split at plain
      · rw [List.mem_singleton.1 plain] at refers
        cases refers
      · cases plain
    · cases refers
      exact ⟨category, listed, spelled, rfl⟩
  · rintro ⟨category, listed, spelled, rfl⟩
    exact ⟨.inr ⟨(category, known), ⟨listed, spelled⟩, rfl⟩, rfl⟩

/-- A match over a stretch that is read by a rule and refers to an entity. -/
structure Refers (table : Table κ) (rule : Nat) (start stop : Nat) (entity : Entity)
    (hit : Match) : Prop where
  start : hit.start = start
  stop : hit.stop = stop
  entity : hit.entity = some entity
  rule : rule ∈ table.literalRules hit.literal

/-- Wherever the name of an entity occurs, the placeholder of its category is matched by what stands
for the entity, if and only if the category neither begins nor ends with a blank. -/
theorem placeholder_matched_iff (compiled : Table.compile grammar = .ok table)
    (indexed : table.rules[id]? = some rule) (made : rule.rule.production = entry.rule.production)
    (added : (Gazetteer.ofCalls earlier).add entry.category entity = .ok larger)
    (later : List (String × Entity)) (before : start < stop)
    (inside : stop ≤ (wordsOf query).length)
    (reads : normalize (spaced (((wordsOf query).take stop).drop start)) = normalize entity.name) :
    ∃ lattice, ofQuery table (.ofCalls (earlier ++ (entry.category, entity) :: later)) query =
        .ok lattice ∧
      ((∃ known, Gazetteer.Keeps earlier entry.category entity known ∧
        ∃ hit ∈ lattice.found, Refers table id start stop known hit) ↔
          trimmed entry.category = entry.category) := by
  obtain ⟨kernels, automaton⟩ := Table.compile_compiled compiled
  obtain ⟨concerned, nonempty⟩ := Gazetteer.concerns_of_add added
  have nonblank := Gazetteer.category_of_concerns concerned
  have literal : ∀ category, rule.rule.readsLike (categoryLiteral category) = true ↔
      normalize entry.literal = categoryLiteral category := by
    intro category
    rw [Rule.readsLike_iff, made]
    exact ⟨fun ⟨text, same, reads⟩ => by cases same; exact reads, fun reads => ⟨_, rfl, reads⟩⟩
  have typed : spaced ((((wordsOf query).take stop).drop start).map lower) =
      normalize entity.name := by
    rw [← reads, normalize_spaced fun word member =>
      wordsOf_word (List.mem_of_mem_take (List.mem_of_mem_drop member))]
  have words : wordsOf query ≠ [] := fun none => by
    rw [none, List.length_nil] at inside
    omega
  obtain ⟨lattice, read, -, found⟩ := ofQuery_exact compiled
    (earlier ++ (entry.category, entity) :: later) words
  refine ⟨lattice, read, fun matched => ?_, fun trims => ?_⟩
  · obtain ⟨known, -, hit, member, refers⟩ := matched
    rw [← Array.mem_toList_iff, found] at member
    obtain ⟨span, -, among⟩ := List.mem_flatMap.1 member
    obtain ⟨category, called, -, rfl⟩ := mem_expected_iff.1 ⟨among, refers.entity⟩
    have starts : span.1 = start := refers.start
    have stops : span.2 = stop := refers.stop
    rw [starts, stops, typed] at called
    have own := (Gazetteer.mem_of_mem_called nonempty called).2
    obtain ⟨again, indexedAgain, readsLike⟩ := automaton.mem_literalRules.1 refers.rule
    cases indexed.symm.trans indexedAgain
    exact ((normalize_literal_iff nonblank (Gazetteer.category_of_concerns own)).1
      ((literal _).1 readsLike)).1
  · obtain ⟨known, keeps, called⟩ := Gazetteer.exists_keeps added later
    have listed : id ∈ table.literalRules (categoryLiteral entry.category) :=
      automaton.mem_literalRules.2 ⟨rule, indexed,
        (literal _).2 ((normalize_literal_iff nonblank nonblank).2 ⟨trims, rfl⟩)⟩
    have spelled : table.spells (categoryLiteral entry.category) = true := by
      rw [← automaton.isLiteral_eq, isLiteral, List.isEmpty_eq_false_iff_exists_mem.2 ⟨id, listed⟩]
      rfl
    rw [← typed] at called
    let hit : Match := ⟨categoryLiteral entry.category, start, stop,
      spaced (((wordsOf query).take stop).drop start), some known⟩
    have among : hit ∈ expected table (earlier ++ (entry.category, entity) :: later) (wordsOf query)
        (start, stop) ∧ hit.entity = some known :=
      mem_expected_iff.2 ⟨entry.category, called, spelled, rfl⟩
    refine ⟨known, keeps, hit, ?_, rfl, rfl, rfl, listed⟩
    rw [← Array.mem_toList_iff, found]
    exact List.mem_flatMap.2 ⟨(start, stop), mem_spans.2 ⟨before, inside⟩, among.1⟩

end Lattice

/-- A grammar that knows nothing but the entities of a category. -/
def Grammar.guests (category : String) : Grammar Amount where
  start := "S"
  rules := .ofList [("S", [PlaceholderEntry.rule ⟨category, none⟩])]
  concepts := {}

namespace Lattice

set_option maxRecDepth 100000 in
/-- A name that is added twice, in a category with letters of other cases and blanks between its
words. -/
theorem placeholder_matched_iff_chefs : ∃ table larger lattice known,
    Table.compile (Grammar.guests "Chef  ΑΣ") = .ok table ∧
      (Gazetteer.ofCalls [("Chef  ΑΣ", ⟨"1", "Danny  B"⟩)]).add "Chef  ΑΣ" ⟨"1", "danny b"⟩ =
        .ok larger ∧
      ofQuery table (.ofCalls [("Chef  ΑΣ", ⟨"1", "Danny  B"⟩), ("Chef  ΑΣ", ⟨"1", "danny b"⟩)])
        "by DANNY b" = .ok lattice ∧
      Gazetteer.Keeps [("Chef  ΑΣ", ⟨"1", "Danny  B"⟩)] "Chef  ΑΣ" ⟨"1", "danny b"⟩ known ∧
      ∃ hit ∈ lattice.found, Refers table 0 1 3 known hit := by
  have made : ((Table.compile (Grammar.guests "Chef  ΑΣ")).toOption.any fun table =>
      table.rules[0]?.any fun rule =>
        decide (rule.rule.production = .literal "\x7bChef  ΑΣ\x7d")) = true := by
    decide +kernel
  obtain ⟨table, compiled, made⟩ := exists_ok_of_any made
  obtain ⟨rule, indexed, made⟩ := (Option.any_eq_true ..).1 made
  have accepted : ((Gazetteer.ofCalls [("Chef  ΑΣ", ⟨"1", "Danny  B"⟩)]).add "Chef  ΑΣ"
      ⟨"1", "danny b"⟩).toOption.any (fun _ => true) = true := by
    decide +kernel
  obtain ⟨larger, added, -⟩ := exists_ok_of_any accepted
  have placeholder : rule.rule.production =
      (PlaceholderEntry.rule (κ := Amount) ⟨"Chef  ΑΣ", none⟩).production :=
    of_decide_eq_true made
  obtain ⟨lattice, read, matched⟩ := placeholder_matched_iff compiled indexed placeholder added []
    (show 1 < 3 by decide)
    (show 3 ≤ (wordsOf "by DANNY b").length by decide +kernel) (by decide +kernel)
  obtain ⟨known, keeps, found⟩ := matched.2 (by decide +kernel)
  exact ⟨table, larger, lattice, known, compiled, added, read, keeps, found⟩

set_option maxRecDepth 100000 in
/-- With a blank before the category its entities are never found: the placeholder's literal has a
blank behind its bracket, and the one that is looked up has none. -/
theorem placeholder_unmatched_blank : ∃ table rule larger lattice,
    Table.compile (Grammar.guests " user") = .ok table ∧ table.rules[0]? = some rule ∧
      rule.rule.production = (PlaceholderEntry.rule (κ := Amount) ⟨" user", none⟩).production ∧
      Gazetteer.empty.add " user" ⟨"1", "Danny"⟩ = .ok larger ∧
      ofQuery table larger "danny" = .ok lattice ∧ lattice.found.toList = [] := by
  have unmatched : ((Table.compile (Grammar.guests " user")).toOption.any fun table =>
      table.rules[0]?.any fun rule =>
        (Gazetteer.empty.add " user" ⟨"1", "Danny"⟩).toOption.any fun larger =>
          (ofQuery table larger "danny").toOption.any fun lattice =>
            decide (rule.rule.production = .literal "\x7b user\x7d") &&
              lattice.found.toList.isEmpty) = true := by
    decide +kernel
  obtain ⟨table, compiled, unmatched⟩ := exists_ok_of_any unmatched
  obtain ⟨rule, indexed, unmatched⟩ := (Option.any_eq_true ..).1 unmatched
  obtain ⟨larger, added, unmatched⟩ := exists_ok_of_any unmatched
  obtain ⟨lattice, read, unmatched⟩ := exists_ok_of_any unmatched
  simp only [Bool.and_eq_true, decide_eq_true_eq, List.isEmpty_iff] at unmatched
  exact ⟨table, rule, larger, lattice, compiled, indexed, unmatched.1, added, read, unmatched.2⟩

end Lattice

end QueryGrammar
