import QueryGrammar.Proofs.Grammar.Rules

namespace QueryGrammar

/-! Well-formed grammars.

Main statement: a grammar is accepted just if it is well formed, and the two searches of its symbols
end and find what lies at the end of a path.
-/

open Relation

variable {κ : Type}

namespace Grammar

variable {grammar : Grammar κ} {symbol other : String} {rules : List (Rule κ)}

/-- A symbol has a rule with another one on its right. -/
def Mentions (grammar : Grammar κ) (symbol other : String) : Prop :=
  ∃ rule ∈ grammar.rulesOf symbol, ∃ slot ∈ rule.slots, slot.symbol = other

/-- What is asked of a grammar, without an order in which to look for it. -/
structure WellFormed [Cost κ] (grammar : Grammar κ) : Prop where
  start : ∃ rule, rule ∈ grammar.rulesOf grammar.start
  inhabited : ∀ symbol ∈ grammar.rules.keys, ∃ rule, rule ∈ grammar.rulesOf symbol
  checked : ∀ symbol, ∀ rule ∈ grammar.rulesOf symbol, rule.check symbol = .ok ()
  defined : ∀ symbol, ∀ rule ∈ grammar.rulesOf symbol, ∀ slot ∈ rule.slots,
    ∃ other, other ∈ grammar.rulesOf slot.symbol
  apart : ∀ symbol, (grammar.rulesOf symbol).Pairwise Rule.Apart
  reachable : ∀ symbol ∈ grammar.rules.keys, ReflTransGen grammar.Mentions grammar.start symbol
  acyclic : grammar.HasNoUnaryCycle

theorem leads_mentions : grammar.mentions.Leads symbol other ↔ grammar.Mentions symbol other := by
  simp only [Edges.Leads, mentions, List.mem_flatMap, List.mem_map, Prod.exists, mem_allRules,
    Prod.mk.injEq, Mentions]
  constructor
  · intro given
    obtain ⟨_, rule, member, slot, own, rfl, same⟩ := given
    exact ⟨rule, member, slot, own, same⟩
  · intro given
    obtain ⟨rule, member, slot, own, same⟩ := given
    exact ⟨symbol, rule, member, slot, own, rfl, same⟩

theorem mem_reachable_mentions :
    other ∈ grammar.mentions.reachable symbol ↔ ReflTransGen grammar.Mentions symbol other := by
  have same : grammar.mentions.Leads = grammar.Mentions :=
    funext fun first => funext fun second => propext leads_mentions
  rw [Edges.mem_reachable, same]

theorem reaches_unaryEdges_iff :
    grammar.unaryEdges.reaches symbol other = true ↔ TransGen grammar.UnaryStep symbol other := by
  have same : grammar.unaryEdges.Leads = grammar.UnaryStep :=
    funext fun first => funext fun second => propext leads_unaryEdges
  rw [Edges.reaches_iff, same]

theorem checkReachable_ok_iff : grammar.checkReachable = .ok () ↔
    ∀ symbol ∈ grammar.rules.keys, ReflTransGen grammar.Mentions grammar.start symbol := by
  have none : (grammar.rules.keys.find? fun symbol =>
      !(grammar.mentions.reachable grammar.start).contains symbol) = none ↔
      ∀ symbol ∈ grammar.rules.keys, ReflTransGen grammar.Mentions grammar.start symbol := by
    simp [List.find?_eq_none, mem_reachable_mentions]
  rw [← none, checkReachable]
  split <;> simp_all

theorem rulesOf_of_get? (found : grammar.rules.get? symbol = some rules) :
    grammar.rulesOf symbol = rules := by
  simp [rulesOf, found]

/-- A property of rules that no rules have is one of all symbols if it is one of those that the
grammar knows. -/
theorem forall_rulesOf_iff (holds : String → List (Rule κ) → Prop) (empty : ∀ symbol, holds symbol []) :
    (∀ entry ∈ grammar.rules.entries, holds entry.1 entry.2) ↔
      ∀ symbol, holds symbol (grammar.rulesOf symbol) := by
  constructor
  · intro all symbol
    cases found : grammar.rules.get? symbol with
    | none => simpa [rulesOf, found] using empty symbol
    | some rules =>
        rw [rulesOf_of_get? found]
        exact all (symbol, rules) (Dictionary.mem_entries_iff.2 found)
  · intro all entry member
    have own := all entry.1
    rwa [rulesOf_of_get? (Dictionary.mem_entries_iff.1 member)] at own

theorem entries_inhabited_iff : (∀ entry ∈ grammar.rules.entries, entry.2 ≠ []) ↔
    ∀ symbol ∈ grammar.rules.keys, ∃ rule, rule ∈ grammar.rulesOf symbol := by
  simp only [Dictionary.keys, List.forall_mem_map]
  refine forall₂_congr fun entry member => ?_
  rw [rulesOf_of_get? (Dictionary.mem_entries_iff.1 member), ← List.isEmpty_eq_false_iff,
    List.isEmpty_eq_false_iff_exists_mem]

variable [Cost κ]

/-- Every rule is checked, wherever it stands among the rules of its symbol. -/
theorem checkSymbols_ok_iff :
    (∀ entry ∈ grammar.rules.entries, grammar.checkSymbol entry = .ok ()) ↔
      (∀ symbol ∈ grammar.rules.keys, ∃ rule, rule ∈ grammar.rulesOf symbol) ∧
      ∀ symbol, (∀ rule ∈ grammar.rulesOf symbol, rule.check symbol = .ok () ∧
        ∀ slot ∈ rule.slots, grammar.isDefined slot.symbol = true) ∧
        (grammar.rulesOf symbol).Pairwise Rule.Apart := by
  rw [← entries_inhabited_iff, ← forall_rulesOf_iff (fun symbol rules =>
    (∀ rule ∈ rules, rule.check symbol = .ok () ∧
      ∀ slot ∈ rule.slots, grammar.isDefined slot.symbol = true) ∧ rules.Pairwise Rule.Apart)
    (by simp), ← forall₂_and]
  refine forall₂_congr fun ⟨symbol, rules⟩ member => ?_
  rw [checkSymbol_ok_iff, checkRules_ok_iff]
  simp

/-- A grammar is accepted just if it is well formed.  The searches on which that rests find what
lies at the end of a path of symbols, whatever cycles there are.  Along whatever edges, they go from
turn to turn until nothing waits, or until the goal is met, and what they end with is their result. -/
theorem validate_iff_wellFormed (grammar : Grammar κ) :
    (grammar.validate = .ok () ↔ grammar.WellFormed) ∧
      (∀ symbol other, other ∈ grammar.mentions.reachable symbol ↔
        ReflTransGen grammar.Mentions symbol other) ∧
      (∀ symbol other, grammar.unaryEdges.reaches symbol other = true ↔
        TransGen grammar.UnaryStep symbol other) ∧
      ∀ (edges : Edges) (start goal : String),
        (∃ turns ≤ edges.length + 2,
          Halts edges.spreadTurn turns ([start], [start]) (edges.reachable start)) ∧
        ∃ turns ≤ (edges.targets start).length + edges.length + 1,
          Halts (edges.chaseTurn goal) turns ((edges.targets start).reverse, [])
            (edges.reaches start goal) := by
  refine ⟨?_, fun _ _ => mem_reachable_mentions, fun _ _ => reaches_unaryEdges_iff,
    fun edges start goal => ⟨edges.reachable_halts start, edges.reaches_halts start goal⟩⟩
  rw [validate_ok_iff, isDefined_iff, checkSymbols_ok_iff, checkReachable_ok_iff,
    checkUnaryCycles_ok_iff]
  constructor
  · intro given
    obtain ⟨start, ⟨inhabited, symbols⟩, reachable, acyclic⟩ := given
    exact ⟨start, inhabited, fun symbol rule member => ((symbols symbol).1 rule member).1,
      fun symbol rule member slot own =>
        isDefined_iff.1 (((symbols symbol).1 rule member).2 slot own),
      fun symbol => (symbols symbol).2, reachable, acyclic⟩
  · intro wellFormed
    exact ⟨wellFormed.start, ⟨wellFormed.inhabited, fun symbol =>
      ⟨fun rule member => ⟨wellFormed.checked symbol rule member, fun slot own =>
        isDefined_iff.2 (wellFormed.defined symbol rule member slot own)⟩, wellFormed.apart symbol⟩⟩,
      wellFormed.reachable, wellFormed.acyclic⟩

end Grammar

end QueryGrammar
