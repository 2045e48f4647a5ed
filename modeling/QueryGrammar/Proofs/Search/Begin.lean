import QueryGrammar.Proofs.Forest.Cheapest
import QueryGrammar.Proofs.Parse.Exact
import QueryGrammar.Proofs.Search.Turn
import QueryGrammar.Proofs.Table.Naming
import QueryGrammar.Proofs.Table.Rules

namespace QueryGrammar

/-! Searches in forests that queries have.

Main statement: such a search never fails, and goes from turn to turn until it ends.
-/

open Std

variable {κ : Type} [Cost κ]

/-- A forest that a query has in a compiled grammar. Its rules do not lead round in circles, and its
names are unambiguous. -/
structure Forest.Parsed (grammar : Grammar κ) (gazetteer : Gazetteer) (query : String)
    (table : Table κ) (lattice : Lattice) (forest : Forest) : Prop where
  compiled : Table.compile grammar = .ok table
  noCycle : table.HasNoUnaryCycle
  read : Lattice.ofQuery table gazetteer query = .ok lattice
  made : Forest.ofLattice table lattice = .ok (.ok forest)
  unambiguous : table.Unambiguous lattice

/-- Whether a query has a forest in a grammar with unambiguous names, whose rules do not lead round
in circles once there are those for edits. -/
def Grammar.reads (grammar : Grammar κ) (gazetteer : Gazetteer) (query : String) : Bool :=
  (grammar.withEdits.toOption.any fun edited => edited.HasNoUnaryCycle) &&
    (Table.compile grammar).toOption.any fun table =>
      (Lattice.ofQuery table gazetteer query).toOption.any fun lattice =>
        decide (table.Unambiguous lattice) &&
          (Forest.ofLattice table lattice).toOption.any fun outcome =>
            outcome.toOption.any fun _ => true

theorem Grammar.exists_parsed {grammar : Grammar κ} {gazetteer : Gazetteer} {query : String}
    (reads : grammar.reads gazetteer query = true) :
    ∃ table lattice forest, Forest.Parsed grammar gazetteer query table lattice forest := by
  obtain ⟨acyclic, reads⟩ := Bool.and_eq_true_iff.1 reads
  obtain ⟨table, compiled, reads⟩ := exists_ok_of_any reads
  obtain ⟨lattice, read, reads⟩ := exists_ok_of_any reads
  obtain ⟨unambiguous, reads⟩ := Bool.and_eq_true_iff.1 reads
  obtain ⟨outcome, made, reads⟩ := exists_ok_of_any reads
  obtain ⟨forest, rfl, -⟩ := exists_ok_of_any reads
  exact ⟨table, lattice, forest, compiled, Table.hasNoUnaryCycle_of_compile compiled acyclic, read,
    made, of_decide_eq_true unambiguous⟩

namespace Search

variable {search : Search κ} {lattice : Lattice} {kindOf : String → ConceptKind}
  {InUse : Pool κ → Prop} {root : Nat} {bound : κ} {limits : Limits} {final : Progress κ}

/-- In the beginning, a candidate stands for all derivations. -/
theorem firstCandidate_stands (inside : root < search.forest.nodes.size) :
    (firstCandidate root bound : Candidate κ).Stands search kindOf root where
  kinded frame member := by
    rw [List.mem_singleton.1 member]
    exact ⟨by simp, by simp⟩
  settled rest := by simp [firstCandidate]
  inside id member := by
    rw [List.mem_singleton.1 member]
    exact inside
  spelled suffix trees spells := by
    have single : search.forest.Spells [root] suffix trees := spells
    obtain ⟨node, index, alternative, inner, parts, -, -, -, -, rfl⟩ := Forest.spells_one.1 single
    refine ⟨_, single, congrArg _ ?_⟩
    simp only [Tree.interpretation?, firstCandidate, resume]
    cases (node.tree root alternative parts).yield? search.table search.forest <;>
      simp [contribute, resume]
  reached suffix tree spells := ⟨[tree], spells⟩
  cost := ⟨[], rfl, rfl⟩

section

variable [TransCmp (Cost.order : κ → κ → Ordering)]

theorem firstProgress_waiting : (firstProgress root bound : Progress κ).waiting.Perm
    [firstCandidate root bound] :=
  (SearchQueue.numbered_empty.insert (firstCandidate root bound)).2

theorem firstProgress_sound (inside : root < search.forest.nodes.size)
    (inUse : InUse .empty) : Sound search kindOf InUse root (firstProgress root bound) where
  numbered := (SearchQueue.numbered_empty.insert (firstCandidate root bound)).1
  inUse := inUse
  stands candidate member := by
    have first := firstProgress_waiting.mem_iff.1 member
    rw [List.mem_singleton.1 first]
    exact firstCandidate_stands inside
  kinded result member := absurd member (List.not_mem_nil)
  running := rfl

end

/-- How a search that wants results comes to its end. -/
def Concludes (search : Search κ) (limits : Limits) (kindOf : String → ConceptKind)
    (InUse : Pool κ → Prop) (root : Nat) (final : Progress κ) : Prop :=
  ∃ last, Relation.ReflTransGen (Turn search limits kindOf root)
      (firstProgress root (search.cheapestAt root)) last ∧
    Sound search kindOf InUse root last ∧ Ends limits limits.maxExpansions last final

variable [TransCmp (Cost.order : κ → κ → Ordering)]

theorem discover_spec (ready : search.Ready lattice kindOf InUse) (inUse : InUse .empty)
    (top : search.forest.root = some root) (inside : root < search.forest.nodes.size)
    (wanted : 0 < limits.results) : ∃ final, search.discover limits = .ok final ∧
      Concludes search limits kindOf InUse root final := by
  have bound := lookUp_cheapest ready inside
  have start : Sound search kindOf InUse root (firstProgress root (search.cheapestAt root)) :=
    firstProgress_sound inside inUse
  obtain ⟨last, final, exploring, turns, sound, ends⟩ :=
    explore_spec limits.maxExpansions ready start wanted
  refine ⟨final, ?_, last, turns, sound, ?_⟩
  · simp only [discover, top, Nat.ne_of_gt wanted, if_false, bound, exploring, bind, Except.bind]
  · have none : (firstProgress root (search.cheapestAt root)).stats.expansions = 0 := rfl
    rwa [none, Nat.zero_add] at ends

end Search

namespace Forest.Parsed

variable {grammar : Grammar κ} {gazetteer : Gazetteer} {query : String} {table : Table κ}
  {lattice : Lattice} {forest : Forest}

theorem presents (parsed : forest.Parsed grammar gazetteer query table lattice) :
    forest.Presents table lattice ∧
      ∃ root, forest.root = some root ∧ root < forest.nodes.size := by
  obtain ⟨kernels, automaton⟩ := Table.compile_compiled parsed.compiled
  rcases ofLattice_spec automaton (Lattice.ofQuery_spanning parsed.read) with
    ⟨again, root, made, presents, top, is, -⟩ | ⟨failed, -⟩
  · cases parsed.made.symm.trans made
    exact ⟨presents, root, top, is.lt_size⟩
  · cases parsed.made.symm.trans failed

theorem ready (parsed : forest.Parsed grammar gazetteer query table lattice) :
    ∃ (search : Search κ) (kindOf : String → ConceptKind),
      Search.sharing Pool.intern table forest = .ok search ∧
      search.table = table ∧ search.forest = forest ∧
      search.Ready lattice kindOf (Pool.Kinded kindOf) ∧
      forest.Settles table fun id cost => search.cheapest[id]? = some cost := by
  obtain ⟨presents, root, top, inside⟩ := parsed.presents
  obtain ⟨costs, cheapest, size, settled⟩ := cheapest_spec presents parsed.noCycle
  obtain ⟨kindOf, kinds, arguments⟩ := parsed.unambiguous.exists_kindOf
  refine ⟨⟨table, forest, costs, Pool.intern⟩, kindOf, ?_, rfl, rfl,
    ⟨presents, size, Pool.intern_faithful, ?_, ?_, arguments⟩, settled⟩
  · simp only [Search.sharing, cheapest, bind, Except.bind]
  · exact fun rule entry known meaning own concept member =>
      kinds concept (Table.mem_concepts known (.inl own) member)
  · exact fun rule entry known meaning own concept member =>
      kinds concept (Table.mem_concepts known (.inr own) member)

variable [TransCmp (Cost.order : κ → κ → Ordering)]

theorem search_spec (parsed : forest.Parsed grammar gazetteer query table lattice) :
    ∃ (search : Search κ) (kindOf : String → ConceptKind) (root : Nat), search.table = table ∧
      search.forest = forest ∧ search.Ready lattice kindOf (Pool.Kinded kindOf) ∧
      (forest.Settles table fun id cost => search.cheapest[id]? = some cost) ∧
      forest.root = some root ∧ root < forest.nodes.size ∧
      ∀ limits, ∃ final, forest.search table limits =
          .ok (final.results.mergeSort Search.isCheaper, final.stats) ∧
        (limits.results = 0 ∧ final = Search.emptyProgress ∨
          0 < limits.results ∧
            search.Concludes limits kindOf (Pool.Kinded kindOf) root final) := by
  obtain ⟨presents, root, top, inside⟩ := parsed.presents
  obtain ⟨search, kindOf, making, rfl, rfl, ready, settled⟩ := parsed.ready
  refine ⟨search, kindOf, root, rfl, rfl, ready, settled, top, inside, fun limits => ?_⟩
  rcases Nat.eq_zero_or_pos limits.results with unwanted | wanted
  · refine ⟨Search.emptyProgress, ?_, .inl ⟨unwanted, rfl⟩⟩
    simp only [Forest.search, making, Search.run, Search.discover, top, unwanted, if_true, bind,
      Except.bind]
  · obtain ⟨final, discovering, concludes⟩ :=
      Search.discover_spec ready Pool.kinded_empty top inside wanted
    refine ⟨final, ?_, .inr ⟨wanted, concludes⟩⟩
    simp only [Forest.search, making, Search.run, discovering, bind, Except.bind]

end Forest.Parsed

end QueryGrammar
