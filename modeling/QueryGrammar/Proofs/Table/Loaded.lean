import QueryGrammar.Artifact.Table
import QueryGrammar.Proofs.Data.Dictionary
import QueryGrammar.Proofs.Table.Recognition
import QueryGrammar.Proofs.Table.Rules

namespace QueryGrammar

/-! What the check of a table that is read makes sure of.

Main statements: a table has no flaw exactly if every number in it is the number of something, and
then every reference that is followed leads somewhere; and a table that was built has no flaw.
-/

open Automaton

namespace Table

variable {κ : Type} {table : Table κ}

/-- Every number in a table is the number of something. -/
structure Closed (table : Table κ) : Prop where
  start : table.start < table.symbols.size
  initial : 0 < table.states.size
  symbol : ∀ entry ∈ table.rules, ∀ symbol ∈ entry.symbol :: entry.slots,
    symbol < table.symbols.size
  reduction : ∀ state ∈ table.states, ∀ rule ∈ state.reductions, rule < table.rules.size
  shift : ∀ state ∈ table.states, ∀ shift ∈ state.shifts,
    shift.1 < table.symbols.size ∧ shift.2 < table.states.size
  literal : ∀ rules ∈ table.literals.values, ∀ rule ∈ rules, rule < table.rules.size

theorem findFlaw?_eq_none {flaw? : Nat → α → Option TableFlaw} {Fine : α → Prop}
    (exact : ∀ index value, flaw? index value = none ↔ Fine value) {index : Nat}
    {values : List α} :
    findFlaw? flaw? index values = none ↔ ∀ value ∈ values, Fine value := by
  induction values generalizing index with
  | nil => simp [findFlaw?]
  | cons value rest ih =>
      rw [List.forall_mem_cons, ← exact index value, ← @ih (index + 1), findFlaw?]
      cases flaw? index value <;> simp

theorem ruleFlaw?_eq_none {id : Nat} {entry : IndexedRule κ} : table.ruleFlaw? id entry = none ↔
    ∀ symbol ∈ entry.symbol :: entry.slots, symbol < table.symbols.size := by
  simp [ruleFlaw?]

theorem stateFlaw?_eq_none {id : Nat} {state : State} : table.stateFlaw? id state = none ↔
    (∀ rule ∈ state.reductions, rule < table.rules.size) ∧
      ∀ shift ∈ state.shifts,
        shift.1 < table.symbols.size ∧ shift.2 < table.states.size := by
  unfold stateFlaw?
  split
  · rename_i outside
    simp only [Bool.not_eq_true', Bool.eq_false_iff, ne_eq, List.all_eq_true,
      decide_eq_true_eq] at outside
    exact ⟨nofun, fun inside => absurd inside.1 outside⟩
  · rename_i reductions
    simp only [Bool.not_eq_true', Bool.not_eq_false, List.all_eq_true,
      decide_eq_true_eq] at reductions
    split
    · rename_i outside
      simp only [Bool.not_eq_true', Bool.eq_false_iff, ne_eq, List.all_eq_true, Bool.and_eq_true,
        decide_eq_true_eq, Array.mem_toList_iff] at outside
      exact ⟨nofun, fun inside => absurd inside.2 outside⟩
    · rename_i shifts
      simp only [Bool.not_eq_true', Bool.not_eq_false, List.all_eq_true, Bool.and_eq_true,
        decide_eq_true_eq, Array.mem_toList_iff] at shifts
      exact ⟨fun _ => ⟨reductions, shifts⟩, fun _ => rfl⟩

/-- The check finds no flaw exactly where nothing is out of range. -/
theorem flaw?_eq_none_iff : table.flaw? = none ↔ table.Closed := by
  have rules : findFlaw? table.ruleFlaw? 0 table.rules.toList = none ↔
      ∀ entry ∈ table.rules.toList, ∀ symbol ∈ entry.symbol :: entry.slots,
        symbol < table.symbols.size := by
    apply findFlaw?_eq_none
    exact fun _ _ => ruleFlaw?_eq_none
  have states : findFlaw? table.stateFlaw? 0 table.states.toList = none ↔
      ∀ state ∈ table.states.toList, (∀ rule ∈ state.reductions, rule < table.rules.size) ∧
        ∀ shift ∈ state.shifts,
          shift.1 < table.symbols.size ∧ shift.2 < table.states.size := by
    apply findFlaw?_eq_none
    exact fun _ _ => stateFlaw?_eq_none
  have literals : table.literals.values.flatten.all (· < table.rules.size) = true ↔
      ∀ rules ∈ table.literals.values, ∀ rule ∈ rules, rule < table.rules.size := by
    simp only [List.all_eq_true, List.mem_flatten, decide_eq_true_eq]
    exact ⟨fun all rules member rule among => all rule ⟨rules, member, among⟩,
      fun all rule ⟨rules, member, among⟩ => all rules member rule among⟩
  simp only [Array.mem_toList_iff] at rules states
  unfold flaw?
  split
  · rename_i missing
    rw [Bool.or_eq_true, decide_eq_true_eq, Array.isEmpty_iff_size_eq_zero] at missing
    refine ⟨nofun, fun closed => ?_⟩
    have start := closed.start
    have initial := closed.initial
    omega
  · rename_i present
    rw [Bool.or_eq_true, decide_eq_true_eq, Array.isEmpty_iff_size_eq_zero] at present
    have tail : (if table.literals.values.flatten.all (· < table.rules.size) then none
        else some TableFlaw.unknownLiteralRule) = none ↔
        ∀ rules ∈ table.literals.values, ∀ rule ∈ rules, rule < table.rules.size := by
      rw [← literals]
      cases table.literals.values.flatten.all (· < table.rules.size) <;> simp
    simp only [Option.orElse_eq_orElse, Option.orElse_eq_or, Option.or_eq_none_iff, rules, states,
      tail]
    constructor
    · intro fine
      obtain ⟨symbol, state, literal⟩ := fine
      exact ⟨by omega, by omega, symbol, fun _ member => (state _ member).1,
        fun _ member => (state _ member).2, literal⟩
    · intro closed
      exact ⟨closed.symbol, fun state member =>
        ⟨closed.reduction state member, closed.shift state member⟩, closed.literal⟩

theorem Closed.inRange (closed : table.Closed) : table.InRange where
  start := closed.start
  initial := closed.initial
  symbol _ entry present :=
    closed.symbol entry (Array.mem_of_getElem? present) _ (List.mem_cons_self ..)
  reduction _ state present := closed.reduction state (Array.mem_of_getElem? present)
  target _ state present _ _ leads :=
    (closed.shift state (Array.mem_of_getElem? present) _
      (Array.mem_toList_iff.1 (State.mem_shifts_of_target? leads))).2
  literal text rule listed := by
    unfold literalRules at listed
    cases found : table.literals.get? text with
    | none => simp [found] at listed
    | some rules =>
        rw [found] at listed
        exact closed.literal rules
          (List.mem_map.2 ⟨_, Dictionary.mem_entries_iff.2 found, rfl⟩) rule listed

theorem closed_of_ofArtifact {text : String} {table : Table Amount}
    (loaded : ofArtifact text = .ok table) : table.Closed := by
  unfold ofArtifact at loaded
  split at loaded
  · cases loaded
  · split at loaded
    · rename_i fine
      cases loaded
      exact flaw?_eq_none_iff.1 fine
    · cases loaded

theorem slots_of_build {grammar : Grammar κ} (built : build grammar = .ok table)
    {entry : IndexedRule κ} (member : entry ∈ table.rules) :
    ∀ slot ∈ entry.slots, slot < table.symbols.size := by
  intro slot among
  obtain ⟨rule, present⟩ := Array.mem_iff_getElem?.1 member
  obtain ⟨-, -, -, spelled⟩ := rule_of_build built present
  have named : table.symbols[slot]? ∈ entry.rule.slots.map fun slot => some slot.symbol :=
    spelled ▸ List.mem_map.2 ⟨slot, among, rfl⟩
  obtain ⟨given, -, same⟩ := List.mem_map.1 named
  exact (Array.getElem?_eq_some_iff.1 same.symm).1

/-- Whatever symbol may come next is a symbol of the table. -/
theorem next_of_build {grammar : Grammar κ} (built : build grammar = .ok table) {item : Item}
    {symbol : Nat} (next : table.skeleton.next? item = some symbol) :
    symbol < table.symbols.size := by
  obtain ⟨kernels, compiled⟩ := build_compiled built
  obtain ⟨itemRule, position⟩ := item
  cases itemRule with
  | none =>
      have own := List.mem_singleton.1 (List.mem_of_getElem? next)
      rw [own]
      exact compiled.start
  | some rule =>
      cases known : table.rules[rule]? with
      | none =>
          have nothing : table.skeleton.slotsOf ⟨some rule, position⟩ = [] := by
            simp [skeleton, Skeleton.ofRules, Skeleton.slotsOf, known]
          rw [Skeleton.next?, nothing] at next
          cases next
      | some entry =>
          rw [next?_rule known] at next
          exact slots_of_build built (Array.mem_of_getElem? known) symbol
            (List.mem_of_getElem? next)

theorem closed_of_build {grammar : Grammar κ} (built : build grammar = .ok table) :
    table.Closed := by
  obtain ⟨kernels, compiled⟩ := build_compiled built
  have inRange := compiled.inRange
  refine ⟨inRange.start, inRange.initial, fun entry member => ?_, fun state member => ?_,
    fun state member shift among => ?_, fun rules member rule among => ?_⟩
  · obtain ⟨id, present⟩ := Array.mem_iff_getElem?.1 member
    exact List.forall_mem_cons.2 ⟨compiled.symbol id entry present, slots_of_build built member⟩
  · obtain ⟨id, present⟩ := Array.mem_iff_getElem?.1 member
    exact inRange.reduction id state present
  · obtain ⟨id, present⟩ := Array.mem_iff_getElem?.1 member
    obtain ⟨kernel, -, describes⟩ := compiled.described present
    obtain ⟨target, found, nonempty, goto⟩ :=
      describes.shift shift.1 shift.2 (Array.mem_toList_iff.2 among)
    obtain ⟨item, inside⟩ := List.exists_mem_of_ne_nil target nonempty
    obtain ⟨before, -, next, -⟩ := (goto item).1 inside
    exact ⟨next_of_build built next,
      compiled.states.size ▸ (Array.getElem?_eq_some_iff.1 found).1⟩
  · obtain ⟨⟨literal, _⟩, listed, rfl⟩ := List.mem_map.1 member
    refine inRange.literal literal rule ?_
    rw [literalRules, Dictionary.mem_entries_iff.1 listed]
    exact among

end Table

end QueryGrammar
