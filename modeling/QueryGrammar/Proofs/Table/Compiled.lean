import Mathlib.Algebra.BigOperators.Ring.Finset
import QueryGrammar.Proofs.Table.Lookup
import QueryGrammar.Proofs.Table.States
import QueryGrammar.Table.Compile

namespace QueryGrammar

/-! What holds of every compiled table: its references lead somewhere, its literals are indexed, and
its states are those of the automaton of its rules. -/

open Automaton

variable {κ : Type}

namespace Automaton.Skeleton

variable {start symbolCount symbol rule : Nat} {rules : Array (IndexedRule κ)}

theorem sum_filter_le {belongs : Nat → Nat → Bool} {symbols : Finset Nat}
    (exclusive : ∀ first second value, belongs first value → belongs second value →
      first = second) (values : List Nat) :
    ∑ symbol ∈ symbols, (values.filter (belongs symbol)).length ≤ values.length := by
  induction values with
  | nil => simp
  | cons first rest ih =>
      have once : ∑ symbol ∈ symbols, (if belongs symbol first then 1 else 0) ≤ 1 := by
        rw [Finset.sum_boole, Nat.cast_id]
        refine Finset.card_le_one.2 fun one oneMember other otherMember => ?_
        exact exclusive one other first (Finset.mem_filter.1 oneMember).2
          (Finset.mem_filter.1 otherMember).2
      have split : ∀ symbol, ((first :: rest).filter (belongs symbol)).length =
          (if belongs symbol first then 1 else 0) + (rest.filter (belongs symbol)).length := by
        intro symbol
        by_cases here : belongs symbol first <;> simp [here, Nat.add_comm]
      simp only [split, Finset.sum_add_distrib, List.length_cons]
      omega

theorem getElem?_expansions (inside : symbol < symbolCount) :
    (ofRules start symbolCount rules).expansions[symbol]? =
      some ((List.range rules.size).filter fun id =>
        match rules[id]? with
        | some rule => rule.symbol == symbol && !rule.rule.isLiteral
        | none => false) := by
  have present : (Array.range symbolCount)[symbol]? = some symbol := by
    simp [inside]
  exact Array.getElem?_map.trans (congrArg (Option.map _) present)

theorem mem_beginnings {item : Item} :
    item ∈ (ofRules start symbolCount rules).beginnings symbol ↔
      symbol < symbolCount ∧ item.position = 0 ∧ ∃ rule entry, item.rule = some rule ∧
        rules[rule]? = some entry ∧ entry.symbol = symbol ∧ entry.rule.isLiteral = false := by
  by_cases inside : symbol < symbolCount
  · simp only [beginnings, getElem?_expansions inside, Option.getD_some, List.mem_map,
      List.mem_filter, List.mem_range, inside, true_and]
    constructor
    · intro given
      obtain ⟨rule, ⟨known, belongs⟩, rfl⟩ := given
      rw [Array.getElem?_eq_getElem known] at belongs
      simp only [Bool.and_eq_true, beq_iff_eq, Bool.not_eq_true'] at belongs
      exact ⟨rfl, rule, _, rfl, Array.getElem?_eq_getElem known, belongs⟩
    · intro given
      obtain ⟨first, rule, entry, same, found, symbolSame, production⟩ := given
      refine ⟨rule, ⟨(Array.getElem?_eq_some_iff.1 found).1, ?_⟩, ?_⟩
      · simp [found, symbolSame, production]
      · cases item
        simp_all
  · have outside : (ofRules start symbolCount rules).expansions[symbol]? = none := by
      simp [ofRules, Nat.le_of_not_lt inside]
    simp [beginnings, outside, inside]

theorem ofRules_bounded (start symbolCount : Nat) (rules : Array (IndexedRule κ)) :
    (ofRules start symbolCount rules).Bounded := by
  have sizes : (ofRules start symbolCount rules).slots.size = rules.size := by simp [ofRules]
  have symbols : (ofRules start symbolCount rules).expansions.size = symbolCount := by
    simp [ofRules]
  unfold Bounded unopened
  rw [sizes, symbols]
  simp only [List.not_mem_nil, not_false_eq_true, Finset.filter_true]
  calc ∑ symbol ∈ Finset.range symbolCount,
        ((ofRules start symbolCount rules).beginnings symbol).length
      = ∑ symbol ∈ Finset.range symbolCount, ((List.range rules.size).filter fun id =>
          match rules[id]? with
          | some rule => rule.symbol == symbol && !rule.rule.isLiteral
          | none => false).length := by
        refine Finset.sum_congr rfl fun symbol member => ?_
        rw [beginnings, getElem?_expansions (Finset.mem_range.1 member), List.length_map,
          Option.getD_some]
    _ ≤ (List.range rules.size).length := by
        refine sum_filter_le (fun first second id => ?_) _
        cases rules[id]? with
        | none => simp
        | some rule =>
            simp only [Bool.and_eq_true, beq_iff_eq]
            intro one other
            exact one.1.symm.trans other.1
    _ = rules.size := List.length_range

theorem next?_rule {position : Nat} {entry : IndexedRule κ} (found : rules[rule]? = some entry) :
    (ofRules start symbolCount rules).next? ⟨some rule, position⟩ = entry.slots[position]? := by
  simp [next?, slotsOf, ofRules, found]

end Automaton.Skeleton

namespace Table

variable {table : Table κ}

/-- The automaton a table should have. -/
def skeleton (table : Table κ) : Skeleton :=
  .ofRules table.start table.symbols.size table.rules

/-- A compiled table: literals are indexed, and the states are those of the automaton. -/
structure Compiled (table : Table κ) (kernels : Array Kernel) : Prop where
  start : table.start < table.symbols.size
  symbol : ∀ (id : Nat) entry, table.rules[id]? = some entry → entry.symbol < table.symbols.size
  arity : ∀ (id : Nat) entry, table.rules[id]? = some entry →
    entry.slots.length = entry.rule.slots.length
  literal : ∀ literal rule, rule ∈ table.literalRules literal ↔ ∃ entry text,
    table.rules[rule]? = some entry ∧ entry.rule.production = .literal text ∧
      Text.normalize text = literal
  states : table.skeleton.Collection table.states kernels

theorem lt_of_idOf {symbols : List String} {symbol usedBy : String} {id : Nat}
    (found : idOf symbols symbol usedBy = .ok id) : id < symbols.length := by
  unfold idOf at found
  split at found
  · rename_i position
    cases found
    exact (List.findIdx?_eq_some_iff_getElem.1 position).1
  · cases found

theorem indexRule_ok {symbols : List String} {entry : String × Rule κ} {indexed : IndexedRule κ}
    (made : indexRule symbols entry = .ok indexed) :
    indexed.rule = entry.2 ∧ indexed.symbol < symbols.length ∧
      indexed.slots.length = entry.2.slots.length := by
  unfold indexRule at made
  cases own : idOf symbols entry.1 entry.1 with
  | error cause => simp [own, bind, Except.bind] at made
  | ok symbol =>
      cases others : mapAll (fun slot => idOf symbols slot.symbol entry.1) entry.2.slots with
      | error cause => simp [own, others, bind, Except.bind] at made
      | ok slots =>
          simp only [own, others, bind, Except.bind, Except.ok.injEq] at made
          subst made
          exact ⟨rfl, lt_of_idOf own, length_of_mapAll others⟩

theorem mem_foldl_literals {entries : List (Rule κ × Nat)} {index : Dictionary (List Nat)}
    {literal : String} {id : Nat} :
    id ∈ ((entries.foldl (fun index (rule, id) =>
        match rule.production with
        | .literal text => index.alter (Text.normalize text) fun ids => ids.getD [] ++ [id]
        | .symbols _ => index) index).get? literal).getD [] ↔
      id ∈ (index.get? literal).getD [] ∨ ∃ rule text, (rule, id) ∈ entries ∧
        rule.production = .literal text ∧ Text.normalize text = literal := by
  induction entries generalizing index with
  | nil => simp
  | cons first rest ih =>
      obtain ⟨rule, number⟩ := first
      simp only [List.foldl_cons, ih, List.mem_cons, Prod.mk.injEq]
      cases production : rule.production with
      | symbols slots =>
          simp only
          constructor
          · intro given
            rcases given with before | ⟨other, text, member, rest⟩
            · exact .inl before
            · exact .inr ⟨other, text, .inr member, rest⟩
          · intro given
            rcases given with before | ⟨other, text, ⟨rfl, -⟩ | member, isLiteral, same⟩
            · exact .inl before
            · rw [production] at isLiteral
              cases isLiteral
            · exact .inr ⟨other, text, member, isLiteral, same⟩
      | literal text =>
          simp only [Dictionary.get?_alter]
          by_cases here : literal = Text.normalize text
          · subst here
            simp only [if_true, Option.getD_some, List.mem_append, List.mem_singleton]
            constructor
            · intro given
              rcases given with (before | rfl) | ⟨other, text, member, rest⟩
              · exact .inl before
              · exact .inr ⟨rule, text, .inl ⟨rfl, rfl⟩, production, rfl⟩
              · exact .inr ⟨other, text, .inr member, rest⟩
            · intro given
              rcases given with before | ⟨other, own, ⟨-, rfl⟩ | member, isLiteral, same⟩
              · exact .inl (.inl before)
              · exact .inl (.inr rfl)
              · exact .inr ⟨other, own, member, isLiteral, same⟩
          · simp only [here, if_false]
            constructor
            · intro given
              rcases given with before | ⟨other, own, member, rest⟩
              · exact .inl before
              · exact .inr ⟨other, own, .inr member, rest⟩
            · intro given
              rcases given with before | ⟨other, own, ⟨rfl, -⟩ | member, isLiteral, same⟩
              · exact .inl before
              · rw [production] at isLiteral
                cases isLiteral
                exact absurd same.symm here
              · exact .inr ⟨other, own, member, isLiteral, same⟩

theorem mem_literalIndex {rules : List (Rule κ)} {literal : String} {id : Nat} :
    id ∈ ((literalIndex rules).get? literal).getD [] ↔ ∃ rule text,
      rules[id]? = some rule ∧ rule.production = .literal text ∧
        Text.normalize text = literal := by
  have nothing : id ∉ ((({} : Dictionary (List Nat)).get? literal).getD []) := by
    have absent : ({} : Dictionary (List Nat)).get? literal = none := rfl
    simp [absent]
  rw [literalIndex]
  refine mem_foldl_literals.trans ?_
  simp only [nothing, false_or, List.mk_mem_zipIdx_iff_getElem?]

theorem build_compiled {grammar : Grammar κ} (built : build grammar = .ok table) :
    ∃ kernels, table.Compiled kernels := by
  simp only [build] at built
  split at built
  · cases built
  · rename_i start found
    cases mapped : mapAll (indexRule grammar.rules.keys) grammar.allRules with
    | error cause => simp [mapped, bind, Except.bind] at built
    | ok rules =>
        simp only [mapped, bind, Except.bind, Except.ok.injEq] at built
        subst built
        obtain ⟨kernels, collection⟩ := states_collection
          (Skeleton.ofRules_bounded start grammar.rules.keys.length rules.toArray)
        have ruleSame : ∀ (id : Nat) entry, rules[id]? = some entry →
            ∃ given, grammar.allRules[id]? = some given ∧ entry.rule = given.2 ∧
              entry.symbol < grammar.rules.keys.length ∧
              entry.slots.length = entry.rule.slots.length := by
          intro id entry present
          obtain ⟨given, position, indexed⟩ := getElem?_of_mapAll mapped present
          obtain ⟨same, inside, arity⟩ := indexRule_ok indexed
          exact ⟨given, position, same, inside, same ▸ arity⟩
        refine ⟨kernels, ?_, fun id entry present => ?_, fun id entry present => ?_,
          fun literal rule => ?_, ?_⟩
        · simpa using (List.findIdx?_eq_some_iff_getElem.1 found).1
        · obtain ⟨-, -, -, inside, -⟩ := ruleSame id entry (by simpa using present)
          simpa using inside
        · obtain ⟨-, -, -, -, arity⟩ := ruleSame id entry (by simpa using present)
          exact arity
        · simp only [literalRules, mem_literalIndex, List.getElem?_map, Option.map_eq_some_iff,
            List.getElem?_toArray]
          constructor
          · intro premise
            obtain ⟨_, text, ⟨given, position, rfl⟩, production, same⟩ := premise
            have bound : rule < rules.length := by
              rw [length_of_mapAll mapped]
              exact (List.getElem?_eq_some_iff.1 position).1
            obtain ⟨other, otherPosition, sameRule, -⟩ := ruleSame rule rules[rule]
              (List.getElem?_eq_getElem bound)
            rw [position] at otherPosition
            cases otherPosition
            exact ⟨rules[rule], text, List.getElem?_eq_getElem bound, sameRule ▸ production, same⟩
          · intro premise
            obtain ⟨entry, text, present, production, same⟩ := premise
            obtain ⟨given, position, sameRule, -⟩ := ruleSame rule entry present
            exact ⟨_, text, ⟨given, position, rfl⟩, sameRule ▸ production, same⟩
        · simpa [skeleton] using collection

theorem states_of_build {grammar : Grammar κ} (built : build grammar = .ok table) :
    table.states = Automaton.states table.skeleton := by
  simp only [build] at built
  split at built
  · cases built
  · cases mapped : mapAll (indexRule grammar.rules.keys) grammar.allRules with
    | error cause => simp [mapped, bind, Except.bind] at built
    | ok rules =>
        simp only [mapped, bind, Except.bind, Except.ok.injEq] at built
        subst built
        simp [skeleton]

/-- A grammar is checked, its rules for edits are derived, and the result is compiled. -/
theorem stages_of_compile [Cost κ] {grammar : Grammar κ} (compiled : compile grammar = .ok table) :
    grammar.validate = .ok () ∧
      ∃ edited, grammar.withEdits = .ok edited ∧ build edited = .ok table := by
  unfold compile at compiled
  cases valid : grammar.validate with
  | error cause => simp [valid, bind, Except.bind] at compiled
  | ok _ =>
      cases derived : grammar.withEdits with
      | error cause => simp [valid, derived, bind, Except.bind] at compiled
      | ok edited =>
          exact ⟨rfl, edited, rfl, by simpa [valid, derived, bind, Except.bind] using compiled⟩

theorem compile_compiled [Cost κ] {grammar : Grammar κ} (compiled : compile grammar = .ok table) :
    ∃ kernels, table.Compiled kernels := by
  obtain ⟨-, edited, -, built⟩ := stages_of_compile compiled
  exact build_compiled built

end Table

end QueryGrammar
