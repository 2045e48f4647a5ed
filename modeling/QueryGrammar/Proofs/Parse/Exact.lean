import QueryGrammar.Proofs.Forest.Spelling
import QueryGrammar.Proofs.Parse.Run
import QueryGrammar.Proofs.Parse.Sound

namespace QueryGrammar

/-! Recognition misses no derivation, so forests are exact.

Main statement: for a compiled table and a query, either the start symbol derives the query and the
trees at the root are its derivations, each spelled by one list of choices, or it does not derive
the query and there is no forest.
-/

open Automaton

theorem Lattice.runs_inside {count longest : Nat} {run : Nat × Nat}
    (member : run ∈ Lattice.runs count longest) : run.1 < run.2 ∧ run.2 ≤ count := by
  simp only [runs, List.mem_flatMap, List.mem_map, List.mem_range] at member
  obtain ⟨start, inside, length, short, rfl⟩ := member
  simp only
  omega

theorem Lattice.ofQuery_spanning {κ : Type} {table : Table κ} {gazetteer : Gazetteer}
    {query : String} {lattice : Lattice}
    (read : Lattice.ofQuery table gazetteer query = .ok lattice) : lattice.Spanning := by
  unfold ofQuery at read
  split at read
  · cases read
  · rename_i first rest tokens
    cases read
    intro hit member
    simp only [List.mem_toArray, List.mem_flatMap] at member
    obtain ⟨run, listed, among⟩ := member
    have inside := runs_inside listed
    have spans : hit.start = run.1 ∧ hit.stop = run.2 := by
      rcases List.mem_append.1 among with plain | named
      · split at plain
        · rw [List.mem_singleton.1 plain]
          exact ⟨rfl, rfl⟩
        · cases plain
      · obtain ⟨⟨category, entity⟩, -, made⟩ := List.mem_filterMap.1 named
        simp only at made
        split at made
        · cases made
          exact ⟨rfl, rfl⟩
        · cases made
    rwa [spans.1, spans.2]

namespace Stack

variable {κ : Type} {table : Table κ} {lattice : Lattice} {kernels : Array Kernel}
  {stack : Stack} {phrase : Phrase} {symbol start stop state : Nat} {item : Item}

/-- Wherever a symbol may come next, its derivations are found and followed. -/
theorem derives_contained (compiled : table.Compiled kernels)
    (spanning : lattice.Spanning)
    (settled : ∀ vertex link, stack.HasLink vertex link → stack.Reduced table vertex link)
    (planted : ∀ position < lattice.length, stack.Planted table lattice position)
    (derives : Derives table lattice phrase symbol start stop)
    (vertex : stack.HasVertex ⟨state, start⟩) (holds : table.Holds kernels state item)
    (next : table.skeleton.next? item = some symbol) :
    ∃ id target, stack.forest.Is id symbol start stop ∧ stack.forest.Contains id phrase ∧
      table.shift state symbol = .ok (some target) ∧
      stack.HasLink ⟨target, stop⟩ ⟨id, ⟨state, start⟩⟩ := by
  have follow : ∀ {symbol start stop state item alternative},
      table.Holds kernels state item → table.skeleton.next? item = some symbol →
      stack.Over table symbol ⟨state, start⟩ stop alternative →
      ∃ id target, stack.forest.Is id symbol start stop ∧ stack.forest.Has id alternative ∧
        table.shift state symbol = .ok (some target) ∧
        stack.HasLink ⟨target, stop⟩ ⟨id, ⟨state, start⟩⟩ := by
    intro symbol start stop state item alternative holds next ⟨id, is, has, leads⟩
    obtain ⟨target, shifted, -⟩ := compiled.holds_advance holds next
    exact ⟨id, target, is, has, shifted, leads target shifted⟩
  induction derives generalizing state item with
  | literal known found listed =>
      have spans := spanning _ (Array.mem_of_getElem? found)
      have hit := planted _ (by omega) _ _ found rfl _ listed _ known _ vertex
      obtain ⟨id, target, is, has, rest⟩ := follow holds next hit
      exact ⟨id, target, is, .literal has, rest⟩
  | @single rule slot start stop entry part known slots derives ih =>
      have nonempty : entry.slots ≠ [] := by simp [slots]
      have begins := compiled.holds_beginning holds next known rfl nonempty
      have nextPart : table.skeleton.next? ⟨some rule, 0⟩ = some slot := by
        rw [Table.next?_rule known, slots]
        rfl
      obtain ⟨child, middle, isChild, containsChild, shifted, link⟩ := ih vertex begins nextPart
      obtain ⟨again, shiftedAgain, holdsEnd⟩ := compiled.holds_advance begins nextPart
      cases shifted.symm.trans shiftedAgain
      obtain ⟨found, present, -⟩ := Table.shift_eq_ok_iff.1 shifted
      have complete := Array.getElem?_eq_getElem (compiled.lt_size_of_holds holdsEnd)
      have reduces := (compiled.mem_reductions complete).2 ⟨1, holdsEnd, by
        rw [Table.next?_rule known, slots]
        rfl⟩
      have path : stack.Path ⟨child, ⟨state, start⟩⟩ entry.slots.length ⟨state, start⟩ [child] := by
        rw [slots]
        exact .single
      have hit := settled _ _ link _ complete rule reduces entry known _ _ path
      obtain ⟨id, target, is, has, rest⟩ := follow holds next hit
      exact ⟨id, target, is, .single has containsChild, rest⟩
  | @pair rule first second start middle stop entry left right known slots derivesLeft derivesRight
      ihLeft ihRight =>
      have nonempty : entry.slots ≠ [] := by simp [slots]
      have begins := compiled.holds_beginning holds next known rfl nonempty
      have nextLeft : table.skeleton.next? ⟨some rule, 0⟩ = some first := by
        rw [Table.next?_rule known, slots]
        rfl
      have nextRight : table.skeleton.next? ⟨some rule, 1⟩ = some second := by
        rw [Table.next?_rule known, slots]
        rfl
      obtain ⟨one, inner, isOne, containsOne, shiftedOne, linkOne⟩ := ihLeft vertex begins nextLeft
      obtain ⟨again, shiftedAgain, holdsInner⟩ := compiled.holds_advance begins nextLeft
      cases shiftedOne.symm.trans shiftedAgain
      obtain ⟨two, last, isTwo, containsTwo, shiftedTwo, linkTwo⟩ :=
        ihRight linkOne.hasVertex holdsInner nextRight
      obtain ⟨againTwo, shiftedAgainTwo, holdsEnd⟩ := compiled.holds_advance holdsInner nextRight
      cases shiftedTwo.symm.trans shiftedAgainTwo
      have complete := Array.getElem?_eq_getElem (compiled.lt_size_of_holds holdsEnd)
      have reduces := (compiled.mem_reductions complete).2 ⟨2, holdsEnd, by
        rw [Table.next?_rule known, slots]
        rfl⟩
      have path : stack.Path ⟨two, ⟨inner, middle⟩⟩ entry.slots.length ⟨state, start⟩
          [one, two] := by
        rw [slots]
        exact @Path.pair stack ⟨two, ⟨inner, middle⟩⟩ ⟨one, ⟨state, start⟩⟩ linkOne
      have hit := settled _ _ linkTwo _ complete rule reduces entry known _ _ path
      obtain ⟨id, target, is, has, rest⟩ := follow holds next hit
      exact ⟨id, target, is, .pair has containsOne containsTwo, rest⟩

end Stack

namespace Forest

variable {κ : Type} {table : Table κ} {lattice : Lattice} {kernels : Array Kernel}

theorem recognized_spec (compiled : table.Compiled kernels) (spanning : lattice.Spanning) :
    ∃ forest, recognized table lattice = .ok forest ∧ forest.Presents table lattice ∧
      (∀ root, forest.root = some root → forest.Is root table.start 0 lattice.length) ∧
      ∀ phrase, Derives table lattice phrase table.start 0 lattice.length →
        ∃ root, forest.root = some root ∧ forest.Contains root phrase := by
  have inRange := compiled.inRange
  obtain ⟨stack, accepted, moves, settled, planted, accepts, recognizing⟩ :=
    recognized_run inRange spanning
  have start : Stack.Consistent table lattice (Stack.initial lattice) :=
    (Stack.initial_done inRange).consistent
  obtain ⟨consistent, extended⟩ := Stack.Moves.spec inRange spanning start moves
  have nothing : Presents table lattice (Stack.initial lattice).forest := by
    refine ⟨start.packed, rfl, start.node, ?_, ?_, ?_⟩
    · intro id symbol start stop given
      obtain ⟨node, found, -⟩ := given
      simp [Stack.initial, ofMatches] at found
    · intro id rule index given
      obtain ⟨node, found, -⟩ := given
      simp [Stack.initial, ofMatches] at found
    · intro id rule children given
      obtain ⟨node, found, -⟩ := given
      simp [Stack.initial, ofMatches] at found
  have presents := Stack.Moves.presents compiled spanning start nothing moves
  let whole := if accepted then stack.forest.find? table.start 0 lattice.length else none
  refine ⟨{ stack.forest with root := whole }, recognizing, presents.withRoot whole,
    fun root found => ?_, fun phrase derives => ?_⟩
  · simp only [whole] at found
    split at found
    · exact (consistent.packed.indexed ..).1 found
    · cases found
  · obtain ⟨id, target, is, contains, shifted, link⟩ := Stack.derives_contained compiled spanning
      settled planted derives (extended.vertex _ Stack.initial_hasVertex) compiled.holds_initial rfl
    have first : table.skeleton.next? ⟨none, 0⟩ = some table.start := rfl
    obtain ⟨again, shiftedAgain, holds⟩ := compiled.holds_advance compiled.holds_initial first
    cases shifted.symm.trans shiftedAgain
    have present := Array.getElem?_eq_getElem (compiled.lt_size_of_holds holds)
    have yes := accepts target _ link.hasVertex present (compiled.accepts_of_holds present holds)
    refine ⟨id, ?_, contains.mono fun _ _ has => has⟩
    simp only [whole, yes, if_true]
    exact (presents.packed.indexed ..).2 is

theorem ofLattice_spec (compiled : table.Compiled kernels) (spanning : lattice.Spanning) :
    (∃ forest root, ofLattice table lattice = .ok (.ok forest) ∧
      forest.Presents table lattice ∧ forest.root = some root ∧
      forest.Is root table.start 0 lattice.length ∧
      ∀ phrase, Derives table lattice phrase table.start 0 lattice.length →
        forest.Contains root phrase) ∨
    (ofLattice table lattice = .ok (.error (.noDerivation (Lattice.textOf lattice.tokens))) ∧
      ∀ phrase, ¬ Derives table lattice phrase table.start 0 lattice.length) := by
  obtain ⟨forest, recognizing, presents, rooted, complete⟩ := recognized_spec compiled spanning
  cases top : forest.root with
  | none =>
      refine .inr ⟨by simp [ofLattice, recognizing, top, bind, Except.bind], fun phrase derives => ?_⟩
      obtain ⟨root, found, -⟩ := complete phrase derives
      rw [top] at found
      cases found
  | some root =>
      refine .inl ⟨forest.sorted, root, by simp [ofLattice, recognizing, top, bind, Except.bind],
        presents.sorted, top, sorted_is.2 (rooted root top), fun phrase derives => ?_⟩
      obtain ⟨again, found, contains⟩ := complete phrase derives
      cases top.symm.trans found
      exact contains.mono fun _ _ => sorted_has.2

/-- Forests are exact: there is one whenever the start symbol derives the query, and the trees at
its root are the derivations, none missing, none added and none spelled in two ways. -/
theorem ofLattice_exact [Cost κ] {grammar : Grammar κ} {gazetteer : Gazetteer} {query : String}
    (compiled : Table.compile grammar = .ok table)
    (read : Lattice.ofQuery table gazetteer query = .ok lattice) :
    (∃ forest root, ofLattice table lattice = .ok (.ok forest) ∧ forest.root = some root ∧
      (∃ phrase, Derives table lattice phrase table.start 0 lattice.length) ∧
      (∀ choices tree, forest.Spells [root] choices [tree] → ∃ phrase,
        tree.phrase? = some phrase ∧
          Derives table lattice phrase table.start 0 lattice.length) ∧
      ∀ phrase, Derives table lattice phrase table.start 0 lattice.length →
        ∃! choices, ∃ tree, forest.Spells [root] choices [tree] ∧ tree.phrase? = some phrase) ∨
    (ofLattice table lattice = .ok (.error (.noDerivation (Lattice.textOf lattice.tokens))) ∧
      ∀ phrase, ¬ Derives table lattice phrase table.start 0 lattice.length) := by
  obtain ⟨kernels, automaton⟩ := Table.compile_compiled compiled
  refine (ofLattice_spec automaton (Lattice.ofQuery_spanning read)).imp_left ?_
  intro given
  obtain ⟨forest, root, made, presents, top, is, complete⟩ := given
  obtain ⟨sound, spelled⟩ := presents.spells_iff root
  obtain ⟨some, contains⟩ := presents.inhabited _ _ _ _ is
  refine ⟨forest, root, made, top, ⟨some, presents.derives contains is⟩,
    fun choices tree spells => ?_, fun phrase derives => spelled phrase (complete phrase derives)⟩
  obtain ⟨phrase, own, contains⟩ := sound choices tree spells
  exact ⟨phrase, own, presents.derives contains is⟩

end Forest

/-- One symbol that repeats, so that a query has as many derivations as it has bracketings. -/
def Grammar.repeated : Grammar Amount where
  start := "S"
  rules := .ofList [("S", [.symbols ["S", "S"], .literal "x"])]
  concepts := {}

set_option maxRecDepth 100000 in
theorem Forest.ofLattice_exact_repeated : ∃ table lattice,
    Table.compile Grammar.repeated = .ok table ∧
      Lattice.ofQuery table .empty "x x x" = .ok lattice ∧
      ∃ forest root, Forest.ofLattice table lattice = .ok (.ok forest) ∧
        forest.root = some root ∧
        (∀ choices tree, forest.Spells [root] choices [tree] → ∃ phrase,
          tree.phrase? = some phrase ∧
            Derives table lattice phrase table.start 0 lattice.length) ∧
        ∀ phrase, Derives table lattice phrase table.start 0 lattice.length →
          ∃! choices, ∃ tree, forest.Spells [root] choices [tree] ∧
            tree.phrase? = some phrase := by
  have parses : (do
      let table ← (Table.compile Grammar.repeated).toOption
      let lattice ← (Lattice.ofQuery table .empty "x x x").toOption
      let outcome ← (Forest.ofLattice table lattice).toOption
      outcome.toOption).isSome = true := by
    decide +kernel
  cases compiled : Table.compile Grammar.repeated with
  | error cause => simp [compiled, Except.toOption] at parses
  | ok table =>
      cases read : Lattice.ofQuery table .empty "x x x" with
      | error cause => simp [compiled, read, Except.toOption] at parses
      | ok lattice =>
          refine ⟨table, lattice, rfl, read, ?_⟩
          rcases Forest.ofLattice_exact compiled read with
            ⟨forest, root, made, top, -, sound, complete⟩ | ⟨failed, -⟩
          · exact ⟨forest, root, made, top, sound, complete⟩
          · simp [compiled, read, failed, Except.toOption] at parses

end QueryGrammar
