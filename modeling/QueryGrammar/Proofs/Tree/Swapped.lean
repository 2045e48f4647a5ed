import QueryGrammar.Proofs.Edits.Offers
import QueryGrammar.Proofs.Meaning.Permuted
import QueryGrammar.Proofs.Table.Canonical
import QueryGrammar.Proofs.Tree.Grounded
import QueryGrammar.Proofs.Tree.Meaning

namespace QueryGrammar

open Automaton

/-! Swapped symbols put back in place.

Main statement: the rule that another one swaps the symbols of is there as well, and a derivation
has the same meaning and is displayed in the same words, whichever of its swaps are undone.
-/

variable {κ : Type} [Cost κ]

namespace IndexedRule

/-- The first rule has the symbols of the second one the other way round. -/
inductive Swaps : IndexedRule κ → IndexedRule κ → Prop
  | intro {symbol left right : Nat} {base : Rule κ} {first second : Slot} {penalty : κ} :
      base.isBase = true → base.slots = [first, second] → base.transpositionCost = some penalty →
      Swaps ⟨symbol, [right, left], Edits.swapping base first second penalty⟩
        ⟨symbol, [left, right], base⟩

variable {entry original : IndexedRule κ}

theorem Swaps.symbol_eq (swaps : entry.Swaps original) : original.symbol = entry.symbol := by
  cases swaps with
  | intro => rfl

theorem Swaps.slots_eq (swaps : entry.Swaps original) :
    ∃ left right, original.slots = [left, right] ∧ entry.slots = [right, left] := by
  cases swaps with
  | intro => exact ⟨_, _, rfl, rfl⟩

theorem Swaps.meaning_eq (swaps : entry.Swaps original) :
    entry.rule.meaning = original.rule.meaning := by
  cases swaps with
  | intro => rfl

theorem Swaps.person_eq (swaps : entry.Swaps original) :
    entry.rule.person = original.rule.person := by
  cases swaps with
  | intro => rfl

/-- Neither rule inserts anything, and only the first one is swapped. -/
theorem Swaps.edits (swaps : entry.Swaps original) :
    entry.rule.insertion = none ∧ original.rule.insertion = none ∧
      entry.rule.transposed = true ∧ original.rule.transposed = false := by
  cases swaps with
  | intro base =>
      obtain ⟨insertion, transposed⟩ := Bool.and_eq_true_iff.1 base
      exact ⟨rfl, Option.isNone_iff_eq_none.1 insertion, rfl, by simpa using transposed⟩

theorem Swaps.formAt_eq (swaps : entry.Swaps original) :
    entry.rule.formAt 0 = original.rule.formAt 1 ∧
      entry.rule.formAt 1 = original.rule.formAt 0 := by
  cases swaps with
  | intro _ slots => simp [Rule.formAt, slots]

end IndexedRule

namespace Edits

variable {grammar : Grammar κ} {symbol : String} {rule base : Rule κ} {first second : Slot}

theorem Origin.swap_of_transposed (origin : Origin grammar symbol rule)
    (given : ∀ symbol, ∀ rule ∈ grammar.rulesOf symbol, rule.isBase = true)
    (swapped : rule.transposed = true) :
    ∃ base ∈ grammar.rulesOf symbol, ∃ first second penalty, base.slots = [first, second] ∧
      base.transpositionCost = some penalty ∧ rule = swapping base first second penalty := by
  cases origin with
  | given member =>
      have own := given symbol rule member
      simp [Rule.isBase, swapped] at own
  | omission => cases swapped
  | swap member slots priced => exact ⟨_, member, _, _, _, slots, priced, rfl⟩

/-- No rule takes the place of one on two symbols. -/
theorem mem_collect_of_pair (valid : grammar.validate = .ok ())
    (given : ∀ symbol, ∀ rule ∈ grammar.rulesOf symbol, rule.isBase = true)
    (member : base ∈ grammar.rulesOf symbol) (slots : base.slots = [first, second]) :
    base ∈ (collect grammar).rulesOf symbol := by
  have production : base.production = .symbols [first, second] := Rule.production_of_slots slots
  obtain ⟨kept, inside, key⟩ := (collect_has member (by rw [production]; rfl)).1
  have spelled := congrArg Key.production key
  have straight := congrArg Key.transposed key
  cases collect_origin inside with
  | given also =>
      have same : kept.production.sameAs base.production = true := by
        cases other : kept.production with
        | literal text => simp [Key.ofRule, production, other] at spelled
        | symbols slots => simpa [Key.ofRule, production, other, Production.sameAs] using spelled
      exact Grammar.eq_of_sameAs valid also member (given symbol kept also) (given symbol base member)
        same ▸ inside
  | omission => simp [Key.ofRule, omitting, derived, production] at spelled
  | swap =>
      have own := given symbol base member
      simp only [Key.ofRule, swapping] at straight
      simp [Rule.isBase, ← straight] at own

end Edits

namespace Table

variable {grammar edited : Grammar κ} {table : Table κ} {name : String} {rule : Rule κ}
  {entry : IndexedRule κ} {first second : Slot}

omit [Cost κ] in
theorem exists_entry (built : build grammar = .ok table) (member : rule ∈ grammar.rulesOf name) :
    ∃ (id : Nat) (entry : IndexedRule κ), table.rules[id]? = some entry ∧ entry.rule = rule ∧
      table.symbols[entry.symbol]? = some name ∧
      entry.slots.map (table.symbols[·]?) = rule.slots.map fun slot => some slot.symbol := by
  obtain ⟨id, position⟩ := List.mem_iff_getElem?.1 (Grammar.mem_allRules.2 member)
  have inside : id < table.rules.size := by
    rw [(symbols_of_build built).2.2]
    exact (List.getElem?_eq_some_iff.1 position).1
  obtain ⟨other, again, named, spelled⟩ := entry_of_build built (Array.getElem?_eq_getElem inside)
  cases position.symm.trans again
  exact ⟨id, _, Array.getElem?_eq_getElem inside, rfl, named, spelled⟩

omit [Cost κ] in
theorem slots_eq_pair (spelled : entry.slots.map (table.symbols[·]?) =
      [first, second].map fun slot => some slot.symbol) :
    ∃ left right, entry.slots = [left, right] ∧ table.symbols[left]? = some first.symbol ∧
      table.symbols[right]? = some second.symbol := by
  obtain ⟨left, rest, slots, one, others⟩ := List.map_eq_cons_iff.1 spelled
  obtain ⟨right, rfl, two⟩ := List.map_eq_singleton_iff.1 others
  exact ⟨left, right, slots, one, two⟩

/-- With a rule that swaps symbols comes the one that it swaps them of. -/
theorem exists_swaps (compiled : compile grammar = .ok table)
    (given : ∀ symbol, ∀ rule ∈ grammar.rulesOf symbol, rule.isBase = true) {id : Nat}
    (known : table.rules[id]? = some entry) (swapped : entry.rule.transposed = true) :
    ∃ (base : Nat) (original : IndexedRule κ), table.rules[base]? = some original ∧
      entry.Swaps original := by
  obtain ⟨valid, edited, derived, built⟩ := stages_of_compile compiled
  obtain ⟨name, named, member, spelled⟩ := rule_of_build built known
  obtain ⟨base, own, first, second, penalty, slots, priced, same⟩ :=
    (Grammar.origin_of_withEdits derived member).swap_of_transposed given swapped
  have kept : base ∈ edited.rulesOf name := by
    rw [Grammar.rulesOf_withEdits derived] at member ⊢
    refine RuleMap.mem_prune_of_slots (Edits.mem_collect_of_pair valid given own slots) member ?_
    simp [same, slots]
  obtain ⟨position, original, found, rfl, namedAlso, spelledAlso⟩ := exists_entry built kept
  rw [same, Edits.slots_swapping] at spelled
  rw [slots] at spelledAlso
  obtain ⟨right, left, around, ofSecond, ofFirst⟩ := slots_eq_pair spelled
  obtain ⟨leftAlso, rightAlso, straight, ofFirstAlso, ofSecondAlso⟩ := slots_eq_pair spelledAlso
  obtain rfl := symbols_inj built ofFirst ofFirstAlso
  obtain rfl := symbols_inj built ofSecond ofSecondAlso
  have symbols := symbols_inj built named namedAlso
  obtain ⟨symbol, _, _⟩ := entry
  obtain ⟨_, _, _⟩ := original
  simp only at symbols around straight same
  subst symbols around straight same
  exact ⟨position, _, found, .intro (given name _ own) slots priced⟩

end Table

namespace Tree

variable {table : Table κ} {forest : Forest} {tree other : Tree} {symbol : Nat}

omit [Cost κ] in
/-- Trees by the rules of a table over the matches of a forest. -/
inductive Over (table : Table κ) (forest : Forest) : Nat → Tree → Prop
  | literal {node rule found : Nat} {span inner : Span} {entry : IndexedRule κ} {hit : Match} :
      table.rules[rule]? = some entry → entry.rule.isLiteral = true →
      forest.found[found]? = some hit →
      Over table forest entry.symbol (.branch node rule span [.leaf found inner])
  | single {node rule slot : Nat} {span : Span} {entry : IndexedRule κ} {part : Tree} :
      table.rules[rule]? = some entry → entry.slots = [slot] → Over table forest slot part →
      Over table forest entry.symbol (.branch node rule span [part])
  | pair {node rule first second : Nat} {span : Span} {entry : IndexedRule κ} {left right : Tree} :
      table.rules[rule]? = some entry → entry.slots = [first, second] →
      Over table forest first left → Over table forest second right →
      Over table forest entry.symbol (.branch node rule span [left, right])

/-- Undoes some of the swaps in a tree, or all, or none. -/
inductive Restores (table : Table κ) : Tree → Tree → Prop
  | literal {node rule found : Nat} {span inner : Span} :
      Restores table (.branch node rule span [.leaf found inner])
        (.branch node rule span [.leaf found inner])
  | single {node rule : Nat} {span : Span} {part restored : Tree} : Restores table part restored →
      Restores table (.branch node rule span [part]) (.branch node rule span [restored])
  | pair {node rule : Nat} {span : Span} {left right first second : Tree} :
      Restores table left first → Restores table right second →
      Restores table (.branch node rule span [left, right]) (.branch node rule span [first, second])
  | swap {node rule base : Nat} {span : Span} {entry original : IndexedRule κ}
      {left right first second : Tree} :
      table.rules[rule]? = some entry → table.rules[base]? = some original →
      entry.Swaps original → Restores table left second → Restores table right first →
      Restores table (.branch node rule span [left, right]) (.branch node base span [first, second])

omit [Cost κ] in
theorem Over.isBranch (spans : tree.Over table forest symbol) :
    ∃ node rule span children, tree = .branch node rule span children := by
  cases spans <;> exact ⟨_, _, _, _, rfl⟩

omit [Cost κ] in
theorem Over.grounded {kernels : Array Kernel} (compiled : table.Compiled kernels)
    (spans : tree.Over table forest symbol) : tree.Grounded table forest := by
  induction spans with
  | literal known _ found =>
      exact .branch known (compiled.symbol _ _ known) (List.forall_mem_singleton.2 (.leaf found))
  | single known _ _ ih =>
      exact .branch known (compiled.symbol _ _ known) (List.forall_mem_singleton.2 ih)
  | pair known _ _ _ ihLeft ihRight =>
      exact .branch known (compiled.symbol _ _ known)
        (List.forall_mem_cons.2 ⟨ihLeft, List.forall_mem_singleton.2 ihRight⟩)

theorem Restores.over (restores : Restores table tree other)
    (spans : tree.Over table forest symbol) : other.Over table forest symbol := by
  induction restores generalizing symbol with
  | literal => exact spans
  | single inner ih =>
      cases spans with
      | literal => cases inner
      | single known slots part => exact .single known slots (ih part)
  | pair _ _ ihLeft ihRight =>
      cases spans with
      | pair known slots left right => exact .pair known slots (ihLeft left) (ihRight right)
  | swap present found swaps _ _ ihLeft ihRight =>
      cases spans with
      | pair known slots left right =>
          cases present.symm.trans known
          obtain ⟨first, second, straight, around⟩ := swaps.slots_eq
          cases around.symm.trans slots
          exact swaps.symbol_eq ▸ .pair found straight (ihRight right) (ihLeft left)

/-! What it means. -/

section

variable {left right first second : Tree}

theorem yields?_one : yields? table forest [first] = first.yield? table forest := by
  rw [yields?, yields?]
  cases first.yield? table forest with
  | none => rfl
  | some own => simp

theorem yields?_two : yields? table forest [first, second] =
    (first.yield? table forest).bind fun own =>
      (second.yield? table forest).map fun others => own ++ others := by
  rw [yields?, yields?_one]
  cases first.yield? table forest <;> cases second.yield? table forest <;> rfl

theorem yields?_two_perm (one : Option.Rel List.Perm (left.yield? table forest)
      (first.yield? table forest))
    (two : Option.Rel List.Perm (right.yield? table forest) (second.yield? table forest)) :
    Option.Rel List.Perm (yields? table forest [left, right]) (yields? table forest [first, second]) ∧
      Option.Rel List.Perm (yields? table forest [left, right])
        (yields? table forest [second, first]) := by
  simp only [yields?_two]
  generalize left.yield? table forest = ofLeft at one ⊢
  generalize right.yield? table forest = ofRight at two ⊢
  generalize first.yield? table forest = ofFirst at one ⊢
  generalize second.yield? table forest = ofSecond at two ⊢
  cases one with
  | none => cases two <;> exact ⟨.none, .none⟩
  | some own =>
      cases two with
      | none => exact ⟨.none, .none⟩
      | some others =>
          exact ⟨.some (own.append others),
            .some ((own.append others).trans List.perm_append_comm)⟩

/-- Rules of one meaning that insert the same make the same of what they are given in any order. -/
theorem yield?_branch_perm {node rule base : Nat} {span : Span} {parts others : List Tree}
    {entry original : IndexedRule κ} (known : table.rules[rule]? = some entry)
    (found : table.rules[base]? = some original) (meaning : entry.rule.meaning = original.rule.meaning)
    (insertion : entry.rule.insertion = original.rule.insertion)
    (branches : ∀ part ∈ parts, ∃ id rule span children, part = .branch id rule span children)
    (branchesAlso : ∀ part ∈ others, ∃ id rule span children, part = .branch id rule span children)
    (same : Option.Rel List.Perm (yields? table forest parts) (yields? table forest others)) :
    Option.Rel List.Perm ((branch node rule span parts).yield? table forest)
      ((branch node base span others).yield? table forest) := by
  rw [yield?_branch known branches, yield?_branch found branchesAlso, meaning, insertion]
  generalize yields? table forest parts = first at same ⊢
  generalize yields? table forest others = second at same ⊢
  cases same with
  | none => exact .none
  | some perm => exact Frame.close?_perm (perm.append_left _)

theorem Restores.yield?_perm (restores : Restores table tree other)
    (spans : tree.Over table forest symbol) :
    Option.Rel List.Perm (tree.yield? table forest) (other.yield? table forest) := by
  induction restores generalizing symbol with
  | @literal node rule found span inner =>
      cases (branch node rule span [.leaf found inner]).yield? table forest with
      | none => exact .none
      | some own => exact .some (.refl own)
  | single inner ih =>
      cases spans with
      | literal => cases inner
      | single known slots part =>
          refine yield?_branch_perm known known rfl rfl
            (List.forall_mem_singleton.2 part.isBranch)
            (List.forall_mem_singleton.2 (inner.over part).isBranch) ?_
          rw [yields?_one, yields?_one]
          exact ih part
  | pair one two ihLeft ihRight =>
      cases spans with
      | pair known slots left right =>
          exact yield?_branch_perm known known rfl rfl
            (List.forall_mem_cons.2 ⟨left.isBranch, List.forall_mem_singleton.2 right.isBranch⟩)
            (List.forall_mem_cons.2 ⟨(one.over left).isBranch,
              List.forall_mem_singleton.2 (two.over right).isBranch⟩)
            (yields?_two_perm (ihLeft left) (ihRight right)).1
  | swap present found swaps one two ihLeft ihRight =>
      cases spans with
      | pair known slots left right =>
          cases present.symm.trans known
          exact yield?_branch_perm known found swaps.meaning_eq
            (swaps.edits.1.trans swaps.edits.2.1.symm)
            (List.forall_mem_cons.2 ⟨left.isBranch, List.forall_mem_singleton.2 right.isBranch⟩)
            (List.forall_mem_cons.2 ⟨(two.over right).isBranch,
              List.forall_mem_singleton.2 (one.over left).isBranch⟩)
            (yields?_two_perm (ihLeft left) (ihRight right)).2

theorem Restores.interpretation?_eq (restores : Restores table tree other)
    (spans : tree.Over table forest symbol) :
    other.interpretation? table forest = tree.interpretation? table forest := by
  have same := restores.yield?_perm spans
  unfold interpretation?
  generalize tree.yield? table forest = first at same ⊢
  generalize other.yield? table forest = second at same ⊢
  cases same with
  | none => rfl
  | @some args others perm =>
      have closed : Option.Rel List.Perm (Frame.close? ⟨none, args⟩)
          (Frame.close? ⟨none, others⟩) := Frame.close?_perm perm
      simp only
      generalize Frame.close? ⟨none, args⟩ = one at closed ⊢
      generalize Frame.close? ⟨none, others⟩ = two at closed ⊢
      cases closed with
      | none => rfl
      | some roots => exact (Interpretation.ofRoots?_eq_of_perm roots).symm

/-! How it is displayed. -/

omit [Cost κ] in
/-- The last child of a swapped rule is displayed first. -/
theorem phraseAll_swap {base swapped : Rule κ} (straight : base.transposed = false)
    (around : swapped.transposed = true) (one : swapped.formAt 0 = base.formAt 1)
    (two : swapped.formAt 1 = base.formAt 0)
    (ofLeft : ∀ form person, second.phrase table forest form person =
      left.phrase table forest form person)
    (ofRight : ∀ form person, first.phrase table forest form person =
      right.phrase table forest form person) (form : Option Form) (person : Option Person) :
    phraseAll table forest base form 0 [first, second] person =
      phraseAll table forest swapped form 0 [left, right] person := by
  simp only [phraseAll, straight, around, Bool.false_eq_true, if_true, if_false, ofLeft, ofRight,
    Nat.zero_add, one, two, bind, Except.bind]
  cases right.phrase table forest (base.formAt 0 <|> form) person with
  | error fault => rfl
  | ok early =>
      simp only [List.nil_append]
      cases left.phrase table forest (base.formAt 1 <|> form) early.2 with
      | error fault => rfl
      | ok late => simp only [List.append_nil]

theorem Restores.phrase_eq {kernels : Array Kernel} (compiled : table.Compiled kernels)
    (restores : Restores table tree other) (spans : tree.Over table forest symbol) :
    ∀ form person, other.phrase table forest form person =
      tree.phrase table forest form person := by
  have onSymbols : ∀ {id : Nat} {entry : IndexedRule κ}, table.rules[id]? = some entry →
      entry.slots ≠ [] → entry.rule.isLiteral = false := by
    intro id entry known several
    rw [← Bool.not_eq_true]
    intro isLiteral
    have arity := compiled.arity id entry known
    rw [Rule.slots_of_isLiteral isLiteral] at arity
    exact several (List.length_eq_zero_iff.1 arity)
  induction restores generalizing symbol with
  | literal => exact fun _ _ => rfl
  | single inner ih =>
      cases spans with
      | literal => cases inner
      | single known slots part =>
          intro form person
          have solid := onSymbols known (by simp [slots])
          simp only [phrase, phraseAll, Table.ruleAt, Fault.lookUp, known, bind, Except.bind, solid,
            Bool.false_eq_true, if_false, ih part]
  | pair _ _ ihLeft ihRight =>
      cases spans with
      | pair known slots left right =>
          intro form person
          have solid := onSymbols known (by simp [slots])
          simp only [phrase, phraseAll, Table.ruleAt, Fault.lookUp, known, bind, Except.bind, solid,
            Bool.false_eq_true, if_false, ihLeft left, ihRight right]
  | swap present found swaps _ _ ihLeft ihRight =>
      cases spans with
      | pair known slots left right =>
          cases present.symm.trans known
          intro form person
          obtain ⟨first, second, straight, around⟩ := swaps.slots_eq
          obtain ⟨inserts, insertsAlso, transposed, untransposed⟩ := swaps.edits
          obtain ⟨one, two⟩ := swaps.formAt_eq
          have solid := onSymbols known (by simp [around])
          have solidAlso := onSymbols found (by simp [straight])
          have parts := phraseAll_swap untransposed transposed one two (ihLeft left) (ihRight right)
          simp only [phrase, Table.ruleAt, Fault.lookUp, known, found, bind, Except.bind, solid,
            solidAlso, inserts, insertsAlso, swaps.person_eq, Bool.false_eq_true, if_false, parts]

end

end Tree

/-- A rule that swaps symbols comes with the one it swaps them of, and a derivation in which any of
its swaps are undone is a derivation of the same symbol that displays the same text and means the
same. -/
theorem Table.swaps_undone {grammar : Grammar κ} {table : Table κ}
    (compiled : compile grammar = .ok table)
    (given : ∀ symbol, ∀ rule ∈ grammar.rulesOf symbol, rule.isBase = true) :
    (∀ (id : Nat) entry, table.rules[id]? = some entry → entry.rule.transposed = true →
      ∃ (base : Nat) (original : IndexedRule κ), table.rules[base]? = some original ∧
        entry.Swaps original) ∧
    ∀ forest symbol tree other, Tree.Over table forest symbol tree →
      Tree.Restores table tree other →
      Tree.Over table forest symbol other ∧
        (∃ text, tree.phrasing table forest = .ok text ∧ other.phrasing table forest = .ok text) ∧
        tree.interpretation? table forest = other.interpretation? table forest := by
  obtain ⟨kernels, automaton⟩ := compile_compiled compiled
  refine ⟨fun id entry known swapped => exists_swaps compiled given known swapped,
    fun forest symbol tree other spans restores => ⟨restores.over spans, ?_,
      (restores.interpretation?_eq spans).symm⟩⟩
  obtain ⟨text, displayed⟩ := Tree.exists_phrasing (spans.grounded automaton)
  refine ⟨text, displayed, ?_⟩
  rw [← displayed, Tree.phrasing, Tree.phrasing, restores.phrase_eq automaton spans]

/-- A verb and an object that may be swapped, both of which mean something. -/
def Grammar.request : Grammar Amount where
  start := "S"
  rules :=
    let both : Meaning Amount := .leaf ⟨"both", 0, .function 1 2 false false⟩
    .ofList [
      ("O", [{ Rule.literal "cats" with meaning := some (.leaf ⟨"cats", 0, .argument⟩) }]),
      ("S", [{ Rule.symbols ["V", "O"] with
        transpositionCost := some (.known 1)
        meaning := some both }]),
      ("V", [{ Rule.literal "see" with meaning := some (.leaf ⟨"see", 0, .argument⟩) }])]
  concepts := {}

set_option maxRecDepth 100000 in
theorem Table.swaps_undone_request : ∃ (table : Table Amount) (forest : Forest) (tree other : Tree),
    compile Grammar.request = .ok table ∧
    (∀ symbol, ∀ rule ∈ Grammar.request.rulesOf symbol, rule.isBase = true) ∧
    Tree.Over table forest 1 tree ∧ Tree.Restores table tree other ∧ tree.rules ≠ other.rules ∧
    Tree.Over table forest 1 other ∧
    (∃ text, tree.phrasing table forest = .ok text ∧ other.phrasing table forest = .ok text) ∧
    tree.interpretation? table forest = other.interpretation? table forest := by
  have listed : ∀ entry ∈ Grammar.request.allRules, entry.2.isBase = true := by decide +kernel
  have given : ∀ symbol, ∀ rule ∈ Grammar.request.rulesOf symbol, rule.isBase = true :=
    fun symbol rule member => listed (symbol, rule) (Grammar.mem_allRules.2 member)
  have numbered : ((compile Grammar.request).toOption.any fun table =>
      (table.rules[0]?.any fun entry => entry.rule.isLiteral && entry.symbol == 0) &&
      (table.rules[2]?.any fun entry => entry.rule.transposed && entry.symbol == 1 &&
        entry.slots == [0, 2]) &&
      table.rules[3]?.any fun entry => entry.rule.isLiteral && entry.symbol == 2) = true := by
    decide +kernel
  obtain ⟨table, compiled, rules⟩ := exists_ok_of_any numbered
  simp only [Bool.and_eq_true, Option.any_eq_true, beq_iff_eq] at rules
  obtain ⟨⟨⟨object, ofObject, isObject, own⟩, swap, ofSwap, ⟨swapped, start⟩, slots⟩, verb, ofVerb,
    isVerb, also⟩ := rules
  obtain ⟨base, original, found, swaps⟩ := (swaps_undone compiled given).1 2 swap ofSwap swapped
  let forest := Forest.ofMatches #[⟨"cats", 0, 1, "cats", none⟩, ⟨"see", 1, 2, "see", none⟩]
  let first : Tree := .branch 0 0 ⟨0, 1⟩ [.leaf 0 ⟨0, 1⟩]
  let second : Tree := .branch 1 3 ⟨1, 2⟩ [.leaf 1 ⟨1, 2⟩]
  have left : Tree.Over table forest object.symbol first := .literal ofObject isObject rfl
  have right : Tree.Over table forest verb.symbol second := .literal ofVerb isVerb rfl
  rw [own] at left
  rw [also] at right
  have spans : Tree.Over table forest swap.symbol (.branch 2 2 ⟨0, 2⟩ [first, second]) :=
    .pair ofSwap slots left right
  rw [start] at spans
  have restores : Tree.Restores table (.branch 2 2 ⟨0, 2⟩ [first, second])
      (.branch 2 base ⟨0, 2⟩ [second, first]) :=
    .swap ofSwap found swaps .literal .literal
  refine ⟨table, forest, _, _, compiled, given, spans, restores, ?_,
    (swaps_undone compiled given).2 forest 1 _ _ spans restores⟩
  simp [Tree.rules, Tree.rulesAll, first, second]

end QueryGrammar
