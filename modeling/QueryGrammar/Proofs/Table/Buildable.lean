import QueryGrammar.Amount
import QueryGrammar.Proofs.Edits.Offers
import QueryGrammar.Proofs.Edits.Supported
import QueryGrammar.Table.Compile

namespace QueryGrammar

/-! Grammars that can be compiled.

Main statement: what is left of a grammar after its edits were derived and pruned can be compiled
unless its start is gone, so that compiling a valid grammar fails for no other reason.
-/

variable {κ : Type} [Cost κ]

namespace Table

variable {symbols : List String} {symbol : String} {entry : String × Rule κ}
  {grammar : Grammar κ}

theorem exists_ok_idOf (known : symbol ∈ symbols) (usedBy : String) :
    ∃ id, idOf symbols symbol usedBy = .ok id := by
  have found : (symbols.findIdx? (· == symbol)).isSome = true :=
    List.findIdx?_isSome.trans (List.any_eq_true.2 ⟨symbol, known, beq_self_eq_true symbol⟩)
  obtain ⟨id, position⟩ := Option.isSome_iff_exists.1 found
  exact ⟨id, by rw [idOf, position]⟩

omit [Cost κ] in
theorem exists_ok_indexRule (known : entry.1 ∈ symbols)
    (mentioned : ∀ slot ∈ entry.2.slots, slot.symbol ∈ symbols) :
    ∃ indexed, indexRule symbols entry = .ok indexed := by
  obtain ⟨id, own⟩ := exists_ok_idOf known entry.1
  obtain ⟨slots, others⟩ := exists_ok_mapAll fun slot member =>
    exists_ok_idOf (mentioned slot member) entry.1
  exact ⟨⟨id, slots, entry.2⟩, by simp [indexRule, own, others, bind, Except.bind]⟩

omit [Cost κ] in
/-- Only symbols that are missing keep a grammar from being compiled. -/
theorem exists_ok_build (start : grammar.start ∈ grammar.rules.keys)
    (supported : RuleMap.Supported grammar.rules) : ∃ table, build grammar = .ok table := by
  have found : (grammar.rules.keys.findIdx? (· == grammar.start)).isSome = true :=
    List.findIdx?_isSome.trans (List.any_eq_true.2 ⟨_, start, beq_self_eq_true _⟩)
  obtain ⟨id, position⟩ := Option.isSome_iff_exists.1 found
  have each : ∀ entry ∈ grammar.allRules,
      ∃ indexed, indexRule grammar.rules.keys entry = .ok indexed := fun entry member =>
    have own := Grammar.mem_allRules.1 member
    exists_ok_indexRule (RuleMap.mem_keys_of_mem_rulesOf own) (supported.defined entry.1 entry.2 own)
  obtain ⟨rules, indexed⟩ := exists_ok_mapAll each
  simp only [build, position, indexed, bind, Except.bind]
  exact ⟨_, rfl⟩

end Table

namespace Grammar

variable {grammar : Grammar κ} {symbol : String} {rule : Rule κ}

/-- The grammar with the rules for edits, and what is left of them after pruning. -/
def pruned (grammar : Grammar κ) : Grammar κ :=
  { grammar with rules := (Edits.collect grammar).rules.prune }

/-- No rule is on the empty literal, and the start and whatever is mentioned has rules. -/
structure Complete (grammar : Grammar κ) : Prop where
  start : ∃ rule, rule ∈ grammar.rulesOf grammar.start
  inhabited : ∀ symbol ∈ grammar.rules.keys, ∃ rule, rule ∈ grammar.rulesOf symbol
  defined : ∀ symbol, ∀ rule ∈ grammar.rulesOf symbol, ∀ slot ∈ rule.slots,
    ∃ other, other ∈ grammar.rulesOf slot.symbol
  solid : ∀ symbol, ∀ rule ∈ grammar.rulesOf symbol, rule.production.isEmptyLiteral = false

theorem pruned_supported (grammar : Grammar κ) : RuleMap.Supported grammar.pruned.rules :=
  RuleMap.prune_supported _

theorem pruned_complete (start : grammar.start ∈ grammar.pruned.rules.keys) :
    grammar.pruned.Complete where
  start := grammar.pruned_supported.inhabited _ start
  inhabited := grammar.pruned_supported.inhabited
  defined _ _ member _ own := grammar.pruned_supported.exists_rule member own
  solid _ _ member :=
    (Edits.collect_origin (RuleMap.mem_of_mem_prune member)).isEmptyLiteral_eq_false

/-- Deriving edits fails just if the start has no rule left. -/
theorem withEdits_eq (grammar : Grammar κ) : grammar.withEdits =
    if grammar.start ∈ grammar.pruned.rules.keys then .ok grammar.pruned
    else .error (.missingStart grammar.start) := by
  have empty : (grammar.pruned.rulesOf grammar.start).isEmpty = true ↔
      grammar.start ∉ grammar.pruned.rules.keys := by
    rw [List.isEmpty_iff]
    constructor
    · intro nothing known
      obtain ⟨rule, member⟩ := grammar.pruned_supported.inhabited _ known
      exact absurd (nothing ▸ member : rule ∈ []) List.not_mem_nil
    · intro missing
      refine List.eq_nil_iff_forall_not_mem.2 fun rule member => missing ?_
      exact RuleMap.mem_keys_of_mem_rulesOf member
  by_cases known : grammar.start ∈ grammar.pruned.rules.keys
  · rw [if_pos known]
    exact if_neg fun nothing => empty.1 nothing known
  · rw [if_neg known]
    exact if_pos (empty.2 known)

theorem compile_eq (valid : grammar.validate = .ok ()) :
    Table.compile grammar = grammar.withEdits >>= Table.build := by
  rw [Table.compile, valid]
  rfl

/-- Pruning ends with the largest part of the rules in which every symbol has a rule and every
symbol on the right of a rule is there.  So deriving edits fails just if the start is not in that
part; otherwise nothing is missing in the grammar that it returns, which can always be compiled. -/
theorem withEdits_builds (rules : RuleMap κ) (grammar : Grammar κ) :
    (rules.prune.Supported ∧ rules.prune.Within rules ∧
      (∀ part : RuleMap κ, part.Supported → part.Within rules → part.Within rules.prune) ∧
      (∃ rounds ≤ rules.count + 1, Halts RuleMap.pruneTurn rounds rules rules.prune) ∧
      ∀ more, RuleMap.pruneRounds (rules.count + 1 + more) rules = rules.prune) ∧
    (grammar.start ∉ grammar.pruned.rules.keys ∧
        grammar.withEdits = .error (.missingStart grammar.start) ∧
        (grammar.validate = .ok () →
          Table.compile grammar = .error (.missingStart grammar.start)) ∨
      grammar.start ∈ grammar.pruned.rules.keys ∧ grammar.withEdits = .ok grammar.pruned ∧
        grammar.pruned.Complete ∧ ∃ table, Table.build grammar.pruned = .ok table ∧
          (grammar.validate = .ok () → Table.compile grammar = .ok table)) := by
  refine ⟨⟨rules.prune_supported, rules.prune_within, fun part supported within =>
    within.prune supported, rules.prune_halts, RuleMap.pruneRounds_add (Nat.lt_succ_self _)⟩, ?_⟩
  by_cases start : grammar.start ∈ grammar.pruned.rules.keys
  · have derived : grammar.withEdits = .ok grammar.pruned := by rw [withEdits_eq, if_pos start]
    obtain ⟨table, built⟩ := Table.exists_ok_build start grammar.pruned_supported
    exact .inr ⟨start, derived, pruned_complete start, table, built, fun valid => by
      rw [compile_eq valid, derived]
      exact built⟩
  · have refused : grammar.withEdits = .error (.missingStart grammar.start) := by
      rw [withEdits_eq, if_neg start]
    exact .inl ⟨start, refused, fun valid => by rw [compile_eq valid, refused]; rfl⟩

/-- Rules on two symbols that need each other, and on two that lose theirs one after the other. -/
def cascade : RuleMap Amount :=
  ⟨[("A", [.symbols ["B"]]), ("B", [.symbols ["A"], .symbols ["C"]]), ("C", [.symbols ["D"]]),
    ("D", [])], by decide⟩

/-- The symbols of the cascade that need each other. -/
def circle : RuleMap Amount :=
  ⟨[("A", [.symbols ["B"]]), ("B", [.symbols ["A"]])], by decide⟩

theorem circle_supported : circle.Supported where
  inhabited symbol known := by
    have all : ∀ symbol ∈ circle.keys, (circle.rulesOf symbol).isEmpty = false := by decide
    exact List.isEmpty_eq_false_iff_exists_mem.1 (all symbol known)
  defined symbol rule member := by
    have all : ∀ symbol ∈ circle.keys, ∀ rule ∈ circle.rulesOf symbol, ∀ slot ∈ rule.slots,
        slot.symbol ∈ circle.keys := by decide
    exact all symbol (RuleMap.mem_keys_of_mem_rulesOf member) rule member

theorem circle_within : circle.Within cascade where
  keys := by decide
  rules := by
    simp [circle, cascade, Dictionary.keys, RuleMap.rulesOf, Dictionary.get?, Dictionary.valueOf?]

/-- A word that may be missing before another one. -/
def stopping : Grammar Amount where
  start := "S"
  rules := ⟨[("Noun", [.literal "x"]), ("S", [.symbols ["Stop", "Noun"]]),
    ("Stop", [.literal emptyLiteral, .literal "the"])], by decide⟩
  concepts := {}

set_option maxRecDepth 100000 in
theorem withEdits_builds_cascade : circle.Supported ∧ circle.Within cascade ∧
    circle.Within cascade.prune ∧ stopping.validate = .ok () ∧
    ∃ table, Table.compile stopping = .ok table := by
  have checked : stopping.validate.toOption.any (fun _ => true) = true := by decide +kernel
  obtain ⟨_, valid, -⟩ := exists_ok_of_any checked
  have start : stopping.start ∈ stopping.pruned.rules.keys := by decide +kernel
  obtain ⟨⟨-, -, largest, -⟩, derived⟩ := withEdits_builds cascade stopping
  rcases derived with ⟨missing, -⟩ | ⟨-, -, -, table, -, compiled⟩
  · exact absurd start missing
  · exact ⟨circle_supported, circle_within, largest circle circle_supported circle_within, valid,
      table, compiled valid⟩

end Grammar

end QueryGrammar
