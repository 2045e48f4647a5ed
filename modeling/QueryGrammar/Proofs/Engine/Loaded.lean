import QueryGrammar.Proofs.Artifact.RoundTrip
import QueryGrammar.Proofs.Engine.Answers
import QueryGrammar.Proofs.Search.InRange

namespace QueryGrammar

/-! Engines on tables that have been read.

Main statement: the one check that is made of a table when it is read is enough for everything that
is done with it; no state, rule, symbol, vertex, node, match or position is ever looked up that is
not there.  The check does not keep a table from making costs that would take for ever, nor from a
longest literal that leads beyond the last word.
-/

/-- The choices of all derivations of a result build trees that can be displayed. -/
theorem Derivation.Spelled.built {table : Table Amount} {forest : Forest} {root : Nat}
    {result : Derivation Amount} (spelled : result.Spelled forest root)
    (inRange : forest.InRange table) :
    ∀ choices ∈ result.choices :: result.duplicates.map Duplicate.choices,
      ∃ tree, Tree.ofChoices forest choices = .ok (some tree) ∧ tree.Grounded table forest := by
  have builds : ∀ choices, (∃ tree, forest.Spells [root] choices [tree]) →
      ∃ tree, Tree.ofChoices forest choices = .ok (some tree) ∧ tree.Grounded table forest := by
    intro choices given
    obtain ⟨tree, spells⟩ := given
    have grounded := spells.grounded_of_inRange inRange
    exact ⟨tree, spells.ofChoices, grounded tree (List.mem_singleton_self tree)⟩
  refine List.forall_mem_cons.2 ⟨builds _ spelled.choices, List.forall_mem_map.2 ?_⟩
  exact fun duplicate member => builds _ (spelled.duplicates duplicate member)

theorem Lattice.read_inBounds {κ : Type} (table : Table κ) (gazetteer : Gazetteer)
    (query : String) : Fault.InBounds (Lattice.read table gazetteer query) := by
  unfold Lattice.read
  split
  · exact Fault.inBounds_ok _
  · exact Fault.inBounds_error rfl

namespace Engine

variable (engine : Engine) (request : Request)

/-- The forest of every query that has one comes to an end. -/
def Founded : Prop :=
  ∀ lattice forest, Lattice.ofQuery engine.table engine.gazetteer request.query = .ok lattice →
    Forest.ofLattice engine.table lattice = .ok (.ok forest) → forest.Founded

variable {engine request} {cancelled : Bool}

theorem respond_cases (inRange : engine.table.InRange) :
    (∃ response, engine.respond request cancelled = .ok response) ∨
      ¬ engine.Founded request ∧ engine.respond request cancelled = .error .endless := by
  unfold respond Founded
  cases read : Lattice.ofQuery engine.table engine.gazetteer request.query with
  | error cause => exact .inl ⟨_, rfl⟩
  | ok lattice =>
      obtain ⟨outcome, made, known⟩ :=
        Forest.ofLattice_inRange inRange (Lattice.ofQuery_spanning read)
      cases outcome with
      | error cause => exact .inl ⟨.error cause, by simp only [made, bind, Except.bind]⟩
      | ok forest =>
          obtain ⟨forestInRange, root, top, bound⟩ := known forest rfl
          by_cases founded : forest.Founded
          · obtain ⟨results, stats, searching, spelled⟩ :=
              forestInRange.search founded top bound (engine.limits request cancelled)
            obtain ⟨answers, answered, -⟩ := answers_spec request fun result member =>
              have built := List.forall_mem_cons.1 ((spelled result member).built forestInRange)
              ⟨built.1, List.forall_mem_map.1 built.2⟩
            exact .inl ⟨.ok ⟨answers, stats, if request.forest then some forest else none⟩,
              by simp only [made, searching, answered, bind, Except.bind]⟩
          · have endless := forestInRange.search_endless founded (engine.limits request cancelled)
            refine .inr ⟨fun all => founded (all lattice forest rfl made), ?_⟩
            simp only [made, endless, bind, Except.bind]

theorem reply_inBounds (inRange : engine.table.InRange) :
    Fault.InBounds (engine.reply request cancelled) := by
  unfold reply
  split
  · rcases respond_cases inRange with ⟨response, responding⟩ | ⟨-, endless⟩
    · exact responding ▸ Fault.inBounds_ok response
    · exact endless ▸ Fault.inBounds_error rfl
  · exact Fault.inBounds_error rfl

theorem exists_reply (engine : Engine) (inRange : engine.table.InRange)
    (fits : Lattice.fits engine.table engine.gazetteer request.query = true)
    (founded : engine.Founded request) :
    ∃ response, engine.reply request cancelled = .ok response := by
  unfold reply
  rw [if_pos fits]
  exact (respond_cases inRange).resolve_right fun endless => endless.1 founded

end Engine

/-- A table that has been read leads nowhere out of range, however its states, its literals and its
rules disagree: not in reading a query, in recognizing whatever lies within its tokens, nor in the
costs, the text and the graph of the forest, nor in a search up to whatever limits, nor in the trees
of its results and in displaying them.

A table like that may still have positions run over and children go round in circles.  Where they do
not, there are costs, results and a response. -/
theorem Table.ofArtifact_inBounds {artifact : String} {table : Table Amount}
    (loaded : Table.ofArtifact artifact = .ok table) :
    (∀ count longest, ∀ run ∈ Lattice.runs count longest, run.1 < run.2 ∧ run.2 ≤ count) ∧
    (∀ gazetteer query, Fault.InBounds (Lattice.read table gazetteer query) ∧
      ∀ lattice, Lattice.ofQuery table gazetteer query = .ok lattice → lattice.Spanning) ∧
    (∀ lattice, lattice.Spanning → ∃ outcome, Forest.ofLattice table lattice = .ok outcome ∧
      ∀ forest, outcome = .ok forest →
        (∃ text, forest.text table = .ok text) ∧ (∃ graph, forest.graph table = .ok graph) ∧
        (∀ depth id, id < forest.nodes.size → Fault.InBounds
          (Forest.cheapestAt table forest depth id (.replicate forest.nodes.size none))) ∧
        Fault.InBounds (forest.cheapest table) ∧
        (forest.Founded → ∃ costs : Array Amount, forest.cheapest table = .ok costs ∧
          costs.size = forest.nodes.size) ∧
        ∀ limits, Fault.InBounds (forest.search table limits) ∧
          (forest.Founded → ∃ found, forest.search table limits = .ok found) ∧
          ∀ results stats, forest.search table limits = .ok (results, stats) →
            ∀ result ∈ results,
              ∀ choices ∈ result.choices :: result.duplicates.map Duplicate.choices,
                ∃ tree, Tree.ofChoices forest choices = .ok (some tree) ∧
                  (∃ text, tree.phrasing table forest = .ok text) ∧
                  (∃ shown, tree.labelled table forest = .ok shown) ∧
                  ∃ cost, tree.cost table = .ok cost) ∧
    ∀ gazetteer settings request cancelled,
      Fault.InBounds (Engine.reply ⟨table, gazetteer, settings⟩ request cancelled) ∧
      (Lattice.fits table gazetteer request.query = true →
        Engine.Founded ⟨table, gazetteer, settings⟩ request →
        ∃ response, Engine.reply ⟨table, gazetteer, settings⟩ request cancelled = .ok response) := by
  have inRange := (closed_of_ofArtifact loaded).inRange
  refine ⟨fun count longest run => Lattice.runs_inside,
    fun gazetteer query => ⟨Lattice.read_inBounds table gazetteer query,
      fun lattice => Lattice.ofQuery_spanning⟩,
    fun lattice spanning => ?_,
    fun gazetteer settings request cancelled => ⟨Engine.reply_inBounds inRange,
      Engine.exists_reply ⟨table, gazetteer, settings⟩ inRange⟩⟩
  obtain ⟨outcome, made, known⟩ := Forest.ofLattice_inRange inRange spanning
  refine ⟨outcome, made, fun forest same => ?_⟩
  obtain ⟨forestInRange, root, top, bound⟩ := known forest same
  refine ⟨forestInRange.text, forestInRange.graph, fun depth id inside =>
      (Forest.cheapestAt_explores forestInRange depth id _ inside Forest.tracks_unknown).inBounds,
    forestInRange.cheapest_goes.inBounds, forestInRange.cheapest,
    fun limits => ⟨forestInRange.search_inBounds top bound limits, fun founded => ?_,
      fun results stats searching result member choices listed => ?_⟩⟩
  · obtain ⟨results, stats, searching, -⟩ := forestInRange.search founded top bound limits
    exact ⟨(results, stats), searching⟩
  · obtain ⟨tree, built, grounded⟩ :=
      (forestInRange.spelled top bound searching result member).built forestInRange choices listed
    exact ⟨tree, built, Tree.exists_phrasing grounded, Tree.exists_labelled tree grounded,
      Tree.exists_cost tree grounded⟩

/-- No grammar compiles to this: the literal is one of rules on symbols, one of which is completed
where it has no symbols, and a symbol leads on twice. -/
def Table.mixedUp : Table Amount where
  start := 0
  symbols := #["S"]
  rules := #[⟨0, [0, 0], Rule.symbols ["S", "S"]⟩, ⟨0, [], Rule.symbols ["S"]⟩]
  literals := .ofList [("x", [1, 0])]
  states := #[⟨[], #[(0, 1)], false⟩, ⟨[1, 0], #[(0, 1), (0, 1)], true⟩]
  longestLiteral := 3

set_option maxRecDepth 100000 in
theorem Table.ofArtifact_inBounds_mixedUp : ∃ table lattice forest,
    Table.ofArtifact Table.mixedUp.artifact = .ok table ∧
      Lattice.read table .empty "x x" = .ok (.ok lattice) ∧ lattice.Spanning ∧
      Forest.ofLattice table lattice = .ok (.ok forest) ∧
      (∃ text, forest.text table = .ok text) ∧ (∃ graph, forest.graph table = .ok graph) ∧
      forest.Founded ∧ (∀ limits, ∃ found, forest.search table limits = .ok found) ∧
      ∃ response, Engine.reply ⟨table, .empty, {}⟩ { query := "x x", trees := true } false =
        .ok response := by
  have fine : Table.mixedUp.flaw?.isNone = true := by decide +kernel
  have loaded : Table.ofArtifact Table.mixedUp.artifact = .ok Table.mixedUp :=
    Table.ofArtifact_artifact (Table.flaw?_eq_none_iff.1 (Option.isNone_iff_eq_none.1 fine))
      (by decide +kernel) (by decide +kernel)
  have fits : Lattice.fits Table.mixedUp .empty "x x" = true := by decide +kernel
  have reads : ((Lattice.ofQuery Table.mixedUp .empty "x x").toOption.any fun lattice =>
      (Forest.recognized Table.mixedUp lattice).toOption.any fun forest =>
        forest.root.isSome &&
          (forest.insertionSorted.cheapest Table.mixedUp).toOption.any fun _ => true) = true := by
    decide +kernel
  obtain ⟨lattice, tokens, reads⟩ := exists_ok_of_any reads
  obtain ⟨recognized, recognizing, reads⟩ := exists_ok_of_any reads
  obtain ⟨top, reads⟩ := Bool.and_eq_true_iff.1 reads
  obtain ⟨costs, cheapest, -⟩ := exists_ok_of_any reads
  obtain ⟨forest, parsed⟩ : ∃ forest, Forest.ofLattice Table.mixedUp lattice = .ok (.ok forest) := by
    simp [Forest.ofLattice, recognizing, Option.isSome_iff_ne_none.1 top, bind, Except.bind]
  rw [← Forest.eq_insertionSorted recognizing parsed] at cheapest
  obtain ⟨-, spanning, parses, responds⟩ := Table.ofArtifact_inBounds loaded
  have inside := (spanning .empty "x x").2 lattice tokens
  have founded : forest.Founded := by
    obtain ⟨again, made, inRange⟩ :=
      Forest.ofLattice_inRange (Table.closed_of_ofArtifact loaded).inRange inside
    cases parsed.symm.trans made
    exact (inRange forest rfl).1.founded_iff.2 ⟨costs, cheapest⟩
  obtain ⟨again, made, shown⟩ := parses lattice inside
  cases parsed.symm.trans made
  obtain ⟨text, graph, -, -, -, searches⟩ := shown forest rfl
  refine ⟨Table.mixedUp, lattice, forest, loaded, ?_, inside, parsed, text, graph, founded,
    fun limits => (searches limits).2.1 founded, (responds .empty {} _ false).2 fits ?_⟩
  · rw [Lattice.read, if_pos fits, tokens]
  · intro other another read made
    cases tokens.symm.trans read
    cases parsed.symm.trans made
    exact founded

end QueryGrammar
