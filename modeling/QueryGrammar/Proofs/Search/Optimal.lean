import Mathlib.Algebra.Order.BigOperators.Group.List
import Mathlib.Tactic.Linarith
import Mathlib.Tactic.Ring
import QueryGrammar.Proofs.Search.Complete
import QueryGrammar.Proofs.Tree.Cost
import QueryGrammar.Proofs.Tree.Grounded

namespace QueryGrammar

/-! What a search finds first.

Main statement: without rounding, results are the cheapest trees of their meanings, in order, and
whatever was not found costs at least as much.
-/

open Std

/-- The costs of a result and of its duplicates, in the order in which they were found. -/
def Derivation.costs {κ : Type} (result : Derivation κ) : List κ :=
  result.cost :: result.duplicates.map Duplicate.cost

namespace Search

variable {search : Search ℚ} {lattice : Lattice} {kindOf : String → ConceptKind}
  {InUse : Pool ℚ → Prop} {root id index : Nat} {limits : Limits} {before after last : Progress ℚ}
  {candidate successor : Candidate ℚ} {steps : List Step} {choices : List Choice}
  {nodes : List Nat} {trees : List Tree} {node : Node} {alternative : Alternative}
  {entry : IndexedRule ℚ} {cost : ℚ}

def costOf (search : Search ℚ) (choice : Choice) : ℚ :=
  match (Tree.ruleOf? search.forest choice).bind fun rule => search.table.rules[rule]? with
  | some entry => entry.rule.cost
  | none => 0

theorem Costs.eq_sum (costs : search.Costs choices cost) :
    cost = (choices.map search.costOf).sum := by
  obtain ⟨rules, same, total⟩ := costs
  have folded : ∀ (rules : List Nat) (choices : List Choice) (start : ℚ),
      choices.map (Tree.ruleOf? search.forest) = rules.map some →
      rules.foldlM (fun total rule => do
        let ruleCost ← search.table.costOf rule
        .ok (total + ruleCost)) start = .ok cost →
      cost = start + (choices.map search.costOf).sum := by
    intro rules
    induction rules with
    | nil =>
        intro choices start same total
        rw [List.map_nil, List.map_eq_nil_iff] at same
        cases total
        simp [same]
    | cons rule rest ih =>
        intro choices start same total
        cases choices with
        | nil => cases same
        | cons choice others =>
            obtain ⟨own, tail⟩ := List.cons.inj same
            rw [List.foldlM_cons] at total
            cases known : search.table.rules[rule]? with
            | none =>
                simp [Table.costOf, Table.ruleAt, Fault.lookUp, known, bind, Except.bind] at total
            | some entry =>
                have first : search.costOf choice = entry.rule.cost := by
                  simp [costOf, own, known]
                have after := ih others (start + entry.rule.cost) tail (by
                  simpa [Table.costOf, Table.ruleAt, Fault.lookUp, known, bind, Except.bind]
                    using total)
                rw [after, List.map_cons, List.sum_cons, first]
                exact add_assoc start entry.rule.cost _
  rw [folded rules choices 0 same total]
  exact zero_add _

/-- An alternative costs what its rule costs and what its nodes are said to. -/
theorem eq_sum_of_amounts (amounts : Forest.Amounts search.table
      (fun id cost => search.cheapest[id]? = some cost) alternative cost)
    (known : search.table.rules[alternative.rule]? = some entry) :
    cost = entry.rule.cost + (alternative.children.map search.cheapestAt).sum := by
  obtain ⟨again, parts, knownAgain, children, total⟩ := amounts
  cases known.symm.trans knownAgain
  have same : alternative.children.map search.cheapestAt = parts := by
    refine List.forall₂_eq_eq_eq ▸ List.forall₂_map_left_iff.2 (children.imp ?_)
    intro child cost given
    simp [cheapestAt, given]
  rw [same]
  exact total.trans (Cost.foldl_add parts _)

/-- No alternative of a node costs less than the node is said to. -/
theorem cheapestAt_le
    (settled : search.forest.Settles search.table fun id cost => search.cheapest[id]? = some cost)
    (size : search.cheapest.size = search.forest.nodes.size)
    (has : search.forest.Has id alternative)
    (known : search.table.rules[alternative.rule]? = some entry) :
    search.cheapestAt id ≤
      entry.rule.cost + (alternative.children.map search.cheapestAt).sum := by
  obtain ⟨node, found, member⟩ := has
  have bound : id < search.cheapest.size := size ▸ (Array.getElem?_eq_some_iff.1 found).1
  obtain ⟨again, costs, foundAgain, each, least⟩ :=
    settled id _ (Array.getElem?_eq_getElem bound)
  cases found.symm.trans foundAgain
  obtain ⟨index, inside, rfl⟩ := List.getElem_of_mem member
  have last : index < costs.length := each.length_eq ▸ inside
  have amounts : Forest.Amounts search.table (fun id cost => search.cheapest[id]? = some cost)
      node.alternatives[index] costs[index] := each.get inside last
  have own : search.cheapestAt id = Cost.least costs := by
    simp [cheapestAt, Array.getElem?_eq_getElem bound, least]
  rw [own, ← eq_sum_of_amounts amounts known]
  exact Cost.least_le (List.getElem_mem last)

/-- What the search was told of nodes is at most what their trees cost. -/
theorem sum_cheapestAt_le (ready : search.Ready lattice kindOf InUse)
    (settled : search.forest.Settles search.table fun id cost => search.cheapest[id]? = some cost)
    (spells : search.forest.Spells nodes choices trees) :
    (nodes.map search.cheapestAt).sum ≤ (choices.map search.costOf).sum := by
  induction spells with
  | nil => simp
  | @node id index node alternative rest inner outer _ _ found chosen _ _ ihInner ihOuter =>
      have has := Forest.has_of_getElem? found chosen
      obtain ⟨entry, known⟩ := ready.presents.rule_known has
      have least := cheapestAt_le settled ready.cheapest has known
      have own : search.costOf (id, index) = entry.rule.cost := by
        simp [costOf, Tree.ruleOf?, found, chosen, known]
      simp only [List.map_cons, List.map_append, List.sum_cons, List.sum_append, own]
      have step : search.cheapestAt id + (rest.map search.cheapestAt).sum ≤
          entry.rule.cost + (inner.map search.costOf).sum + (outer.map search.costOf).sum :=
        add_le_add (least.trans (add_le_add_right ihInner _)) ihOuter
      linarith

/-- The bound of a candidate adds to its cost what its nodes are said to cost at least. -/
def Bounded (search : Search ℚ) (candidate : Candidate ℚ) : Prop :=
  candidate.bound =
    candidate.cost + ((pending candidate.steps).map search.cheapestAt).sum

/-- No derivation that begins with the choices of a candidate costs less than its bound. -/
theorem Bounded.le (bounded : Bounded search candidate)
    (ready : search.Ready lattice kindOf InUse)
    (settled : search.forest.Settles search.table fun id cost => search.cheapest[id]? = some cost)
    (stands : candidate.Stands search kindOf root) {suffix : List Choice} {tree : Tree}
    (spells : search.forest.Spells [root] (candidate.choices.reverse ++ suffix) [tree])
    (costs : search.Costs (candidate.choices.reverse ++ suffix) cost) : candidate.bound ≤ cost := by
  obtain ⟨trees, below⟩ := stands.reached suffix tree spells
  have rest := sum_cheapestAt_le ready settled below
  have own := stands.cost.eq_sum
  have whole := costs.eq_sum
  rw [List.map_append, List.sum_append, ← own] at whole
  rw [bounded, whole]
  exact add_le_add_right rest _

theorem Bounded.eq_cost (bounded : Bounded search candidate) (done : candidate.steps = []) :
    candidate.bound = candidate.cost := by
  rw [bounded, done]
  exact add_zero candidate.cost

/-- Successors keep track of what is left, and their bounds are no lower. -/
theorem Succeeds.bounded (succeeds : Succeeds search kindOf root candidate id index steps successor)
    (bounded : Bounded search candidate) (ready : search.Ready lattice kindOf InUse)
    (settled : search.forest.Settles search.table fun id cost => search.cheapest[id]? = some cost)
    (next : candidate.steps = .expand id :: steps) :
    Bounded search successor ∧ candidate.bound ≤ successor.bound := by
  obtain ⟨node, alternative, entry, found, chosen, known, priced⟩ := succeeds.priced
  have least := cheapestAt_le settled ready.cheapest (Forest.has_of_getElem? found chosen) known
  have before : candidate.bound =
      candidate.cost + (search.cheapestAt id + ((pending steps).map search.cheapestAt).sum) := by
    rw [bounded, next, pending, List.map_cons, List.sum_cons]
  have after : successor.bound = candidate.bound - search.cheapestAt id + entry.rule.cost +
      (alternative.children.map search.cheapestAt).sum := priced.bound
  have cost : successor.cost = candidate.cost + entry.rule.cost := priced.cost
  constructor
  · have whole : successor.bound = successor.cost +
        ((alternative.children.map search.cheapestAt).sum +
          ((pending steps).map search.cheapestAt).sum) := by
      rw [after, cost, before]
      ring
    rw [Bounded, priced.pending, List.map_append, List.sum_append]
    exact whole
  · rw [after]
    linarith

theorem Expands.bounded {alternatives : List Alternative} {successors : List (Candidate ℚ)}
    (expands : Expands search kindOf root candidate id steps index alternatives successors)
    (bounded : Bounded search candidate) (ready : search.Ready lattice kindOf InUse)
    (settled : search.forest.Settles search.table fun id cost => search.cheapest[id]? = some cost)
    (next : candidate.steps = .expand id :: steps) :
    ∀ successor ∈ successors, Bounded search successor ∧ candidate.bound ≤ successor.bound := by
  induction expands with
  | nil => simp
  | chosen succeeds _ ih =>
      exact List.forall_mem_cons.2 ⟨succeeds.bounded bounded ready settled next, ih⟩
  | dropped _ _ ih => exact ih

/-- Whatever was found costs no more than what is still to come, and was found in order. -/
structure InOrder (search : Search ℚ) (progress : Progress ℚ) : Prop where
  bounded : ∀ candidate ∈ progress.waiting, Bounded search candidate
  later : ∀ result ∈ progress.results, ∀ cost ∈ result.costs, ∀ candidate ∈ progress.waiting,
    cost ≤ candidate.bound
  ascending : progress.results.Pairwise fun first second => first.cost ≤ second.cost
  duplicates : ∀ result ∈ progress.results, result.costs.Pairwise (· ≤ ·)

theorem InOrder.waiting (inOrder : InOrder search before)
    (fewer : ∀ candidate ∈ after.waiting, candidate ∈ before.waiting ∨
      Bounded search candidate ∧ ∃ earlier ∈ before.waiting, earlier.bound ≤ candidate.bound)
    (same : after.results = before.results) : InOrder search after where
  bounded candidate member := (fewer candidate member).elim (inOrder.bounded candidate) And.left
  later result found cost listed candidate member := by
    rw [same] at found
    rcases fewer candidate member with waited | ⟨-, earlier, waited, lower⟩
    · exact inOrder.later result found cost listed candidate waited
    · exact (inOrder.later result found cost listed earlier waited).trans lower
  ascending := same ▸ inOrder.ascending
  duplicates := same ▸ inOrder.duplicates

/-- A cost between what was found before a turn and what waits after it. -/
structure Divides (before after : Progress ℚ) (cost : ℚ) : Prop where
  earlier : ∀ result ∈ before.results, ∀ found ∈ result.costs, found ≤ cost
  left : ∀ other ∈ after.waiting, other ∈ before.waiting ∧ cost ≤ other.bound

/-- A complete candidate costs its bound, which no candidate left behind falls below. -/
theorem Takes.divides {others : List (Candidate ℚ)} (inOrder : InOrder search before)
    (takes : Takes limits before after candidate [] others) (done : candidate.steps = []) :
    Divides before after candidate.cost := by
  have waited := takes.waited.mem_iff.2 (List.mem_cons_self ..)
  have own := (inOrder.bounded candidate waited).eq_cost done
  refine ⟨fun result found cost listed => ?_, fun other member => ?_⟩
  · exact own ▸ inOrder.later result found cost listed candidate waited
  · have left := takes.waits.mem_iff.1 member
    exact ⟨takes.waited.mem_iff.2 (List.mem_cons_of_mem _ left),
      own ▸ Cost.isLE_order.1 (takes.lowest other left)⟩

/-- A result comes behind all others. -/
theorem InOrder.found {meaning : Interpretation ℚ} (inOrder : InOrder search before)
    (divides : Divides before after cost)
    (same : after.results = before.results ++ [⟨cost, meaning, choices, []⟩]) :
    InOrder search after := by
  refine ⟨fun other member => inOrder.bounded other (divides.left other member).1, ?_, ?_, ?_⟩
  · intro result found cost listed other member
    rw [same] at found
    rcases List.mem_append.1 found with known | last
    · exact inOrder.later result known cost listed other (divides.left other member).1
    · rw [List.mem_singleton.1 last] at listed
      rw [List.mem_singleton.1 listed]
      exact (divides.left other member).2
  · rw [same]
    refine List.pairwise_append.2 ⟨inOrder.ascending, List.pairwise_singleton .., ?_⟩
    intro result known new last
    rw [List.mem_singleton.1 last]
    exact divides.earlier result known result.cost (List.mem_cons_self ..)
  · intro result found
    rw [same] at found
    rcases List.mem_append.1 found with known | last
    · exact inOrder.duplicates result known
    · rw [List.mem_singleton.1 last]
      exact List.pairwise_singleton ..

theorem costs_of_extended {first rest : List (Derivation ℚ)} {result other : Derivation ℚ}
    {duplicates : List (Duplicate ℚ)}
    (listed : other ∈
      first ++ { result with duplicates := result.duplicates ++ duplicates } :: rest) :
    other ∈ first ++ result :: rest ∨
      other.costs = result.costs ++ duplicates.map Duplicate.cost := by
  rcases List.mem_append.1 listed with known | later
  · exact .inl (List.mem_append_left _ known)
  · rcases List.mem_cons.1 later with rfl | known
    · exact .inr (by simp [Derivation.costs])
    · exact .inl (List.mem_append_right _ (List.mem_cons_of_mem _ known))

/-- A duplicate comes behind those of its result. -/
theorem InOrder.repeated {first rest : List (Derivation ℚ)} {result : Derivation ℚ}
    {duplicates : List (Duplicate ℚ)} (inOrder : InOrder search before)
    (divides : Divides before after cost) (split : before.results = first ++ result :: rest)
    (same : after.results =
      first ++ { result with duplicates := result.duplicates ++ duplicates } :: rest)
    (only : ∀ repeated ∈ duplicates.map Duplicate.cost, repeated = cost) :
    InOrder search after := by
  have present : result ∈ before.results := by simp [split]
  have extended : ∀ other ∈ after.results, other ∈ before.results ∨
      other.costs = result.costs ++ duplicates.map Duplicate.cost := by
    rw [same, split]
    exact fun other => costs_of_extended
  refine ⟨fun other member => inOrder.bounded other (divides.left other member).1, ?_, ?_, ?_⟩
  · intro other found cost listed waits member
    rcases extended other found with known | costs
    · exact inOrder.later other known cost listed waits (divides.left waits member).1
    · rw [costs] at listed
      rcases List.mem_append.1 listed with old | new
      · exact inOrder.later result present cost old waits (divides.left waits member).1
      · rw [only cost new]
        exact (divides.left waits member).2
  · have ascending := inOrder.ascending
    rw [split] at ascending
    rw [same]
    simpa [List.pairwise_append] using ascending
  · intro other found
    rcases extended other found with known | costs
    · exact inOrder.duplicates other known
    · rw [costs]
      refine List.pairwise_append.2 ⟨inOrder.duplicates result present, ?_, ?_⟩
      · exact List.pairwise_of_forall_mem_list fun first firstMember second secondMember => by
          rw [only first firstMember, only second secondMember]
      · intro old member new listed
        rw [only new listed]
        exact divides.earlier result present old member

theorem Turn.inOrder (turn : Turn search limits kindOf root before after)
    (inOrder : InOrder search before) (ready : search.Ready lattice kindOf InUse)
    (settled : search.forest.Settles search.table fun id cost =>
      search.cheapest[id]? = some cost) : InOrder search after := by
  cases turn with
  | @expanded candidate successors others id steps node takes stands next found expands same =>
      have waited := takes.waited.mem_iff.2 (List.mem_cons_self ..)
      have bounds := expands.bounded (inOrder.bounded candidate waited) ready settled next
      refine inOrder.waiting (fun other member => ?_) same
      rcases List.mem_append.1 (takes.waits.mem_iff.1 member) with new | old
      · exact .inr ⟨(bounds other new).1, candidate, waited, (bounds other new).2⟩
      · exact .inl (takes.waited.mem_iff.2 (List.mem_cons_of_mem _ old))
  | illegal takes stands done spells nothing same =>
      exact inOrder.waiting
        (fun other member => .inl ((takes.divides inOrder done).left other member).1) same
  | found takes stands done means alike fresh same =>
      exact inOrder.found (takes.divides inOrder done) same
  | repeated takes stands done means alike split same only =>
      refine inOrder.repeated (takes.divides inOrder done) split same fun cost listed => ?_
      obtain ⟨duplicate, member, rfl⟩ := List.mem_map.1 listed
      rw [only duplicate member]

theorem firstProgress_inOrder :
    InOrder search (firstProgress root (search.cheapestAt root)) where
  bounded candidate member := by
    rw [List.mem_singleton.1 (firstProgress_waiting.mem_iff.1 member)]
    have alone : search.cheapestAt root = 0 + ([root].map search.cheapestAt).sum := by simp
    exact alone
  later result found := absurd found (List.not_mem_nil)
  ascending := .nil
  duplicates result found := absurd found (List.not_mem_nil)

/-- A result costs no more than a list of choices. -/
def NoDearer (search : Search ℚ) (cost : ℚ) (choices : List Choice) : Prop :=
  ∀ whole, search.Costs choices whole → cost ≤ whole

theorem turns_inOrder (ready : search.Ready lattice kindOf InUse)
    (settled : search.forest.Settles search.table fun id cost => search.cheapest[id]? = some cost)
    (turns : Relation.ReflTransGen (Turn search limits kindOf root)
      (firstProgress root (search.cheapestAt root)) last) :
    InOrder search last ∧ Covers search root (NoDearer search) last := by
  have same : ∀ {candidate : Candidate ℚ}, candidate.Stands search kindOf root →
      ∀ whole, search.Costs candidate.choices.reverse whole → candidate.cost = whole :=
    fun stands whole costs => stands.cost.eq_sum.trans costs.eq_sum.symm
  induction turns with
  | refl => exact ⟨firstProgress_inOrder, firstProgress_covers⟩
  | tail _ turn ih =>
      obtain ⟨inOrder, covers⟩ := ih
      refine ⟨turn.inOrder inOrder ready settled, turn.covers covers ?_ ?_⟩
      · intro candidate member stands done whole costs
        exact (same stands whole costs).le
      · intro result found candidate member stands done whole costs
        have lower := inOrder.later result found result.cost (List.mem_cons_self ..) candidate member
        rw [(inOrder.bounded candidate member).eq_cost done] at lower
        exact lower.trans (same stands whole costs).le

theorem isCheaper_iff {first second : Derivation ℚ} :
    isCheaper first second = true ↔ first.cost ≤ second.cost := by
  rw [← Cost.isLE_order, isCheaper, Ordering.isLE_iff_ne_gt, bne_iff_ne]

/-- A tree with a meaning that has not come up costs at least as much as every result. -/
theorem cost_of_tree (ready : search.Ready lattice kindOf InUse)
    (settled : search.forest.Settles search.table fun id cost => search.cheapest[id]? = some cost)
    (sound : Sound search kindOf InUse root last) (inOrder : InOrder search last)
    (covers : Covers search root (NoDearer search) last) {tree : Tree} {own : Interpretation ℚ}
    (spells : search.forest.Spells [root] choices [tree])
    (known : tree.interpretation? search.table search.forest = some own)
    (total : tree.cost search.table = .ok cost) :
    (∃ result ∈ last.results, result.meaning.costless = own.costless ∧ result.cost ≤ cost) ∨
      ∀ result ∈ last.results, result.cost ≤ cost := by
  have costs := costs_of_spells spells ((Tree.preorderCost_eq_cost search.table tree).trans total)
  rcases covers choices own ⟨tree, spells, known⟩ with
    ⟨result, member, same, cheaper⟩ | ⟨candidate, waits, suffix, rfl⟩
  · exact .inl ⟨result, member, same, cheaper cost costs⟩
  · refine .inr fun result member => ?_
    have lower := inOrder.later result member result.cost (List.mem_cons_self ..) candidate waits
    exact lower.trans ((inOrder.bounded candidate waits).le ready settled
      (sound.stands candidate waits) spells costs)

end Search

namespace Forest

variable {grammar : Grammar ℚ} {gazetteer : Gazetteer} {query : String} {table : Table ℚ}
  {lattice : Lattice} {forest : Forest}

/-- What trees of a meaning cost. -/
def costsOf (forest : Forest) (table : Table ℚ) (root : Nat) (meaning : Interpretation Unit) :
    Set ℚ :=
  { cost | ∃ tree ∈ forest.trees root, ∃ own, tree.interpretation? table forest = some own ∧
    own.costless = meaning ∧ tree.cost table = .ok cost }

/-- Searches are optimal where costs are exact, whether or not they are cut short. Results are in the
order of their costs, and each costs as little as any tree of its meaning. Trees of other meanings
cost at least as much as all results. Duplicates are in the order of their costs, none of which is
below that of the result. -/
theorem search_optimal (parsed : forest.Parsed grammar gazetteer query table lattice)
    (limits : Limits) :
    ∃ root results stats, forest.root = some root ∧
      forest.search table limits = .ok (results, stats) ∧
      (∀ tree ∈ forest.trees root, ∃ cost, tree.cost table = .ok cost) ∧
      results.Pairwise (fun first second => first.cost ≤ second.cost) ∧
      (∀ result ∈ results,
        IsLeast (forest.costsOf table root result.meaning.costless) result.cost) ∧
      (∀ meaning, (∀ result ∈ results, result.meaning.costless ≠ meaning) →
        ∀ cost ∈ forest.costsOf table root meaning, ∀ result ∈ results, result.cost ≤ cost) ∧
      ∀ result ∈ results, result.costs.Pairwise (· ≤ ·) := by
  obtain ⟨search, kindOf, root, rfl, rfl, ready, settled, top, -, runs⟩ := parsed.search_spec
  obtain ⟨final, searching, outcome⟩ := runs limits
  have priced : ∀ tree ∈ search.forest.trees root, ∃ cost, tree.cost search.table = .ok cost := by
    intro tree member
    obtain ⟨choices, spells⟩ := member
    exact Tree.exists_cost tree (spells.grounded ready.presents tree (List.mem_singleton_self tree))
  refine ⟨root, _, _, top, searching, priced, ?_⟩
  rcases outcome with ⟨-, rfl⟩ | ⟨-, concludes⟩
  · simp [Search.emptyProgress]
  obtain ⟨-, distinct, confirmed⟩ := concludes.results
  obtain ⟨last, turns, sound, ends⟩ := concludes
  have results : final.results = last.results := by
    rcases ends with ⟨rfl, -⟩ | ⟨rfl, -⟩ <;> rfl
  rw [results] at distinct confirmed
  obtain ⟨inOrder, covers⟩ := Search.turns_inOrder ready settled turns
  have unchanged : final.results.mergeSort Search.isCheaper = last.results := by
    rw [results]
    exact List.mergeSort_of_pairwise (inOrder.ascending.imp Search.isCheaper_iff.2)
  rw [unchanged]
  refine ⟨inOrder.ascending, fun result member => ⟨?_, ?_⟩, ?_, inOrder.duplicates⟩
  · obtain ⟨tree, own, spells, -, total, known, alike⟩ := (confirmed result member).own
    exact ⟨tree, ⟨_, spells⟩, own, known, alike, Tree.preorderCost_eq_cost search.table tree ▸ total⟩
  · intro cost priced
    obtain ⟨tree, ⟨choices, spells⟩, own, known, alike, total⟩ := priced
    rcases Search.cost_of_tree ready settled sound inOrder covers spells known total with
      ⟨other, found, same, cheaper⟩ | cheaper
    · exact distinct.eq found member (same.trans alike) ▸ cheaper
    · exact cheaper result member
  · intro meaning missing cost priced
    obtain ⟨tree, ⟨choices, spells⟩, own, known, alike, total⟩ := priced
    rcases Search.cost_of_tree ready settled sound inOrder covers spells known total with
      ⟨other, found, same, -⟩ | cheaper
    · exact absurd (same.trans alike) (missing other found)
    · exact cheaper

end Forest

/-- A grammar in which it costs less than nothing to swap two words. -/
def Grammar.swapping : Grammar ℚ :=
  let pair : Rule ℚ := { Rule.symbols ["A", "B"] with cost := 2, transpositionCost := some (-3) }
  { start := "S"
    rules := .ofList [("A", [.literal "x", .literal "y"]), ("B", [.literal "x", .literal "y"]),
      ("S", [pair])]
    concepts := {} }

set_option maxRecDepth 100000 in
theorem Forest.search_optimal_swapping : ∃ table lattice forest,
    Forest.Parsed Grammar.swapping .empty "x y" table lattice forest ∧
      ∃ root results stats, forest.root = some root ∧
        forest.search table ⟨1, 100, true, fun _ => false⟩ = .ok (results, stats) ∧
        (∀ tree ∈ forest.trees root, ∃ cost, tree.cost table = .ok cost) ∧
        results.Pairwise (fun first second => first.cost ≤ second.cost) ∧
        (∀ result ∈ results,
          IsLeast (forest.costsOf table root result.meaning.costless) result.cost) ∧
        (∀ meaning, (∀ result ∈ results, result.meaning.costless ≠ meaning) →
          ∀ cost ∈ forest.costsOf table root meaning, ∀ result ∈ results, result.cost ≤ cost) ∧
        ∀ result ∈ results, result.costs.Pairwise (· ≤ ·) := by
  have reads : Grammar.swapping.reads .empty "x y" = true := by decide +kernel
  obtain ⟨table, lattice, forest, parsed⟩ := Grammar.exists_parsed reads
  exact ⟨table, lattice, forest, parsed,
    Forest.search_optimal parsed ⟨1, 100, true, fun _ => false⟩⟩

end QueryGrammar
