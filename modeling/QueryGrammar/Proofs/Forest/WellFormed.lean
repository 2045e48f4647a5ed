import QueryGrammar.Proofs.Forest.Founded
import QueryGrammar.Proofs.Parse.Exact
import QueryGrammar.Proofs.Table.Rules

namespace QueryGrammar

/-! What a forest is like that is made for a query.

Main statement: for any table built from a grammar in which no symbol stands for itself, the index
and the nodes agree, alternatives fit their nodes, and the nodes below a node come to an end.
-/

namespace Forest

variable {κ : Type} {table : Table κ} {lattice : Lattice} {forest : Forest}

structure WellFormed (table : Table κ) (forest : Forest) : Prop where
  unique : ∀ id other symbol start stop, forest.Is id symbol start stop →
    forest.Is other symbol start stop → id = other
  /-- The index leads from a symbol and a stretch to the node for them, and has no entry where
  there is none. -/
  indexed : ∀ symbol start stop id,
    forest.index.lookup (symbol, start, stop) = some id ↔ forest.Is id symbol start stop
  inhabited : ∀ (id : Nat) node, forest.nodes[id]? = some node → node.alternatives ≠ []
  distinct : ∀ (id : Nat) node, forest.nodes[id]? = some node → node.alternatives.Nodup
  /-- A rule is on the symbol of the node. -/
  rule : ∀ id alternative, forest.Has id alternative → ∃ entry start stop,
    table.rules[alternative.rule]? = some entry ∧ forest.Is id entry.symbol start stop
  /-- A match is of a literal that the rule produces, and is over the stretch of the node. -/
  terminal : ∀ id rule index, forest.Has id (.terminal rule index) → ∃ hit symbol,
    forest.found[index]? = some hit ∧ rule ∈ table.literalRules hit.literal ∧
      forest.Is id symbol hit.start hit.stop
  /-- The children are for the symbols on the right of the rule, in order, each over the stretch
  that follows the one before, and together they cover that of the node. -/
  branch : ∀ id rule children, forest.Has id (.branch rule children) → ∃ entry start stop,
    table.rules[rule]? = some entry ∧ forest.Is id entry.symbol start stop ∧
      forest.Covers entry.slots children start stop
  wellFounded : WellFounded fun child parent => forest.Child parent child

theorem Presents.alternatives_ne_nil (presents : forest.Presents table lattice) {id : Nat}
    {node : Node} (known : forest.nodes[id]? = some node) : node.alternatives ≠ [] := by
  obtain ⟨phrase, contains⟩ := presents.inhabited _ _ _ _ ⟨node, known, rfl, rfl, rfl⟩
  have has : ∃ alternative, forest.Has id alternative := by
    cases contains with
    | literal has | single has | pair has => exact ⟨_, has⟩
  obtain ⟨alternative, own, present, member⟩ := has
  cases known.symm.trans present
  exact List.ne_nil_of_mem member

theorem Presents.wellFormed (presents : forest.Presents table lattice)
    (noCycle : table.HasNoUnaryCycle) : forest.WellFormed table where
  unique _ _ _ _ _ := presents.packed.unique
  indexed := presents.packed.indexed
  inhabited _ _ := presents.alternatives_ne_nil
  distinct := presents.packed.distinct
  rule id alternative has := by
    cases alternative with
    | terminal rule index =>
        obtain ⟨hit, entry, -, -, known, is⟩ := presents.terminal _ _ _ has
        exact ⟨entry, _, _, known, is⟩
    | branch rule children =>
        obtain ⟨entry, start, stop, known, is, -⟩ := presents.branch _ _ _ has
        exact ⟨entry, start, stop, known, is⟩
  terminal id rule index has := by
    obtain ⟨hit, entry, found, listed, -, is⟩ := presents.terminal _ _ _ has
    exact ⟨hit, entry.symbol, presents.found ▸ found, listed, is⟩
  branch := presents.branch
  wellFounded := presents.founded noCycle

/-- Forests are well formed, so the cheapest derivation of every node is computed from those of its
children, and choices spell finitely many trees. -/
theorem ofLattice_wellFormed [Cost κ] {grammar : Grammar κ} {reader : Table κ}
    {gazetteer : Gazetteer} {query : String} (built : Table.build grammar = .ok table)
    (noCycle : grammar.HasNoUnaryCycle)
    (read : Lattice.ofQuery reader gazetteer query = .ok lattice) :
    ∃ outcome, ofLattice table lattice = .ok outcome ∧ ∀ forest, outcome = .ok forest →
      forest.WellFormed table ∧
      (∃ costs : Array κ, forest.cheapest table = .ok costs ∧ costs.size = forest.nodes.size ∧
        forest.Settles table fun id cost => costs[id]? = some cost) ∧
      ∀ nodes, (forest.readings nodes).Finite := by
  have acyclic := Table.hasNoUnaryCycle_of_build built noCycle
  obtain ⟨kernels, compiled⟩ := Table.build_compiled built
  rcases ofLattice_spec compiled (Lattice.ofQuery_spanning read) with
    ⟨forest, root, made, presents, -⟩ | ⟨failed, -⟩
  · refine ⟨.ok forest, made, fun other same => ?_⟩
    cases same
    obtain ⟨rank, -, falls⟩ := presents.exists_rank acyclic
    exact ⟨presents.wellFormed acyclic, cheapest_spec presents acyclic, finite_readings falls⟩
  · exact ⟨_, failed, fun _ same => nomatch same⟩

end Forest

/-- Symbols that stand for one another in a chain, below one that repeats. -/
def Grammar.chained : Grammar Amount where
  start := "S"
  rules := .ofList [("S", [.symbols ["S", "S"], .symbols ["T"]]),
    ("T", [.symbols ["U"], .literal "x x"]), ("U", [.literal "x"])]
  concepts := {}

set_option maxRecDepth 100000 in
theorem Forest.ofLattice_wellFormed_chained : Grammar.chained.HasNoUnaryCycle ∧
    ∃ table lattice forest, Table.build Grammar.chained = .ok table ∧
      Lattice.ofQuery table .empty "x x x" = .ok lattice ∧
      Forest.ofLattice table lattice = .ok (.ok forest) ∧ forest.WellFormed table := by
  have noCycle : Grammar.chained.HasNoUnaryCycle := by decide +kernel
  have parses : (do
      let table ← (Table.build Grammar.chained).toOption
      let lattice ← (Lattice.ofQuery table .empty "x x x").toOption
      let outcome ← (Forest.ofLattice table lattice).toOption
      outcome.toOption).isSome = true := by
    decide +kernel
  refine ⟨noCycle, ?_⟩
  cases built : Table.build Grammar.chained with
  | error cause => simp [built, Except.toOption] at parses
  | ok table =>
      cases read : Lattice.ofQuery table .empty "x x x" with
      | error cause => simp [built, read, Except.toOption] at parses
      | ok lattice =>
          obtain ⟨outcome, made, wellFormed⟩ := Forest.ofLattice_wellFormed built noCycle read
          cases outcome with
          | error cause => simp [built, read, made, Except.toOption] at parses
          | ok forest => exact ⟨table, lattice, forest, rfl, read, made, (wellFormed forest rfl).1⟩

end QueryGrammar
