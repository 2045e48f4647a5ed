import QueryGrammar.Proofs.Forest.Acyclic
import QueryGrammar.Proofs.Grammar.Rules
import QueryGrammar.Proofs.Table.Compiled

namespace QueryGrammar.Table

/-! The rules of a table, as rules of the grammar that it was built from.

Main statement: where no symbol of a grammar stands for itself, neither does its number.
-/

open Relation

variable {κ : Type} {grammar : Grammar κ} {table : Table κ} {first second : Nat}

theorem getElem?_of_idOf {symbols : List String} {symbol usedBy : String} {id : Nat}
    (found : idOf symbols symbol usedBy = .ok id) : symbols[id]? = some symbol := by
  unfold idOf at found
  split at found
  · rename_i index known
    cases found
    obtain ⟨inside, same, -⟩ := List.findIdx?_eq_some_iff_getElem.1 known
    rw [List.getElem?_eq_getElem inside, beq_iff_eq.1 same]
  · cases found

theorem names_of_indexRule {symbols : List String} {given : String × Rule κ}
    {indexed : IndexedRule κ} (made : indexRule symbols given = .ok indexed) :
    symbols[indexed.symbol]? = some given.1 ∧
      indexed.slots.map (symbols[·]?) = given.2.slots.map fun slot => some slot.symbol := by
  unfold indexRule at made
  cases own : idOf symbols given.1 given.1 with
  | error cause => simp [own, bind, Except.bind] at made
  | ok symbol =>
      cases others : mapAll (fun slot => idOf symbols slot.symbol given.1) given.2.slots with
      | error cause => simp [own, others, bind, Except.bind] at made
      | ok slots =>
          simp only [own, others, bind, Except.bind, Except.ok.injEq] at made
          subst made
          refine ⟨getElem?_of_idOf own, ?_⟩
          refine List.ext_getElem (by simp [length_of_mapAll others]) fun index one two => ?_
          have inside : index < slots.length := by simpa using one
          obtain ⟨slot, present, numbered⟩ := getElem?_of_mapAll others
            (List.getElem?_eq_getElem inside)
          obtain ⟨bound, rfl⟩ := List.getElem?_eq_some_iff.1 present
          simpa using getElem?_of_idOf numbered

/-- A table numbers the rules of its grammar in order. -/
theorem entry_of_build {rule : Nat} {entry : IndexedRule κ} (built : build grammar = .ok table)
    (known : table.rules[rule]? = some entry) :
    ∃ name, grammar.allRules[rule]? = some (name, entry.rule) ∧
      table.symbols[entry.symbol]? = some name ∧
      entry.slots.map (table.symbols[·]?) = entry.rule.slots.map fun slot => some slot.symbol := by
  simp only [build] at built
  split at built
  · cases built
  · rename_i start found
    cases mapped : mapAll (indexRule grammar.rules.keys) grammar.allRules with
    | error cause => simp [mapped, bind, Except.bind] at built
    | ok rules =>
        simp only [mapped, bind, Except.bind, Except.ok.injEq] at built
        subst built
        obtain ⟨⟨name, given⟩, position, indexed⟩ :=
          getElem?_of_mapAll mapped (by simpa using known)
        obtain ⟨same, -, -⟩ := indexRule_ok indexed
        obtain ⟨named, spelled⟩ := names_of_indexRule indexed
        exact ⟨name, by rw [position, same], by simpa using named, by simpa [same] using spelled⟩

theorem rule_of_build {rule : Nat} {entry : IndexedRule κ} (built : build grammar = .ok table)
    (known : table.rules[rule]? = some entry) : ∃ name, table.symbols[entry.symbol]? = some name ∧
      entry.rule ∈ grammar.rulesOf name ∧
      entry.slots.map (table.symbols[·]?) = entry.rule.slots.map fun slot => some slot.symbol := by
  obtain ⟨name, position, named, spelled⟩ := entry_of_build built known
  exact ⟨name, named, Grammar.mem_allRules.1 (List.mem_of_getElem? position), spelled⟩

/-- The symbols of a table are those that its grammar has rules for, and its start is among them. -/
theorem symbols_of_build (built : build grammar = .ok table) :
    table.symbols = grammar.rules.keys.toArray ∧
      table.symbols[table.start]? = some grammar.start ∧
      table.rules.size = grammar.allRules.length := by
  simp only [build] at built
  split at built
  · cases built
  · rename_i start found
    cases mapped : mapAll (indexRule grammar.rules.keys) grammar.allRules with
    | error cause => simp [mapped, bind, Except.bind] at built
    | ok rules =>
        simp only [mapped, bind, Except.bind, Except.ok.injEq] at built
        subst built
        obtain ⟨inside, same, -⟩ := List.findIdx?_eq_some_iff_getElem.1 found
        exact ⟨rfl, by simp [List.getElem?_eq_getElem inside, beq_iff_eq.1 same],
          by simp [length_of_mapAll mapped]⟩

/-- The name that goes with a number. -/
def nameOf (table : Table κ) (id : Nat) : String :=
  table.symbols[id]?.getD ""

theorem unaryStep_of_build (built : build grammar = .ok table)
    (step : table.UnaryStep first second) :
    grammar.UnaryStep (table.nameOf first) (table.nameOf second) := by
  obtain ⟨rule, entry, known, rfl, slots⟩ := step
  obtain ⟨name, named, member, spelled⟩ := rule_of_build built known
  rw [slots] at spelled
  obtain ⟨slot, single, same⟩ := List.map_eq_singleton_iff.1 spelled.symm
  refine ⟨entry.rule, by simpa [nameOf, named] using member, slot, single, ?_⟩
  simp [nameOf, ← same]

theorem hasNoUnaryCycle_of_build (built : build grammar = .ok table)
    (noCycle : grammar.HasNoUnaryCycle) : table.HasNoUnaryCycle :=
  fun symbol cycle => noCycle (table.nameOf symbol)
    (TransGen.lift table.nameOf (fun _ _ => unaryStep_of_build built) _ _ cycle)

theorem hasNoUnaryCycle_of_compile [Cost κ] (compiled : compile grammar = .ok table)
    (noCycle : (grammar.withEdits.toOption.any fun edited => edited.HasNoUnaryCycle) = true) :
    table.HasNoUnaryCycle := by
  obtain ⟨-, edited, derived, built⟩ := stages_of_compile compiled
  obtain ⟨again, derivedAgain, acyclic⟩ := exists_ok_of_any noCycle
  cases derived.symm.trans derivedAgain
  exact hasNoUnaryCycle_of_build built (of_decide_eq_true acyclic)

end QueryGrammar.Table
