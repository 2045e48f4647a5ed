import QueryGrammar.Proofs.Forest.Acyclic
import QueryGrammar.Proofs.Search.Expand
import QueryGrammar.Search.Run

namespace QueryGrammar.Search

/-! The successors of a candidate, and the meaning of one that is complete. -/

variable {κ : Type} [Cost κ] {search : Search κ} {lattice : Lattice}
  {kindOf : String → ConceptKind} {InUse : Pool κ → Prop} {pool : Pool κ} {root id index : Nat}
  {node : Node} {alternative : Alternative} {entry : IndexedRule κ} {steps : List Step}
  {candidate successor : Candidate κ} {choices : List Choice} {cost : κ}

/-- The cost of the cheapest derivation of a node, as the search was told. -/
def cheapestAt (search : Search κ) (id : Nat) : κ :=
  (search.cheapest[id]?).getD 0

/-- No derivation that begins with the choices has a meaning. -/
def Hopeless (search : Search κ) (root : Nat) (choices : List Choice) : Prop :=
  ∀ suffix tree, search.forest.Spells [root] (choices ++ suffix) [tree] →
    tree.interpretation? search.table search.forest = none

/-- What the choice of an alternative adds to the cost of a candidate and to its bound. -/
structure Priced (search : Search κ) (candidate : Candidate κ) (id : Nat)
    (alternative : Alternative) (entry : IndexedRule κ) (steps : List Step)
    (successor : Candidate κ) : Prop where
  cost : successor.cost = candidate.cost + entry.rule.cost
  bound : successor.bound = candidate.bound - search.cheapestAt id + entry.rule.cost +
    Cost.total (alternative.children.map search.cheapestAt)
  pending : pending successor.steps = alternative.children ++ pending steps

/-- A successor takes one more choice, and stands for the derivations that take it as well. -/
structure Succeeds (search : Search κ) (kindOf : String → ConceptKind) (root : Nat)
    (candidate : Candidate κ) (id index : Nat) (steps : List Step) (successor : Candidate κ) :
    Prop where
  stands : successor.Stands search kindOf root
  choices : successor.choices = (id, index) :: candidate.choices
  priced : ∃ node alternative entry, search.forest.nodes[id]? = some node ∧
    node.alternatives[index]? = some alternative ∧
    search.table.rules[alternative.rule]? = some entry ∧
    Priced search candidate id alternative entry steps successor

/-- Successors for the alternatives from an index on, some of which were dropped. -/
inductive Expands (search : Search κ) (kindOf : String → ConceptKind) (root : Nat)
    (candidate : Candidate κ) (id : Nat) (steps : List Step) :
    Nat → List Alternative → List (Candidate κ) → Prop
  | nil {index : Nat} : Expands search kindOf root candidate id steps index [] []
  | chosen {index : Nat} {alternative : Alternative} {rest : List Alternative}
      {successor : Candidate κ} {successors : List (Candidate κ)} :
      Succeeds search kindOf root candidate id index steps successor →
      Expands search kindOf root candidate id steps (index + 1) rest successors →
      Expands search kindOf root candidate id steps index (alternative :: rest)
        (successor :: successors)
  | dropped {index : Nat} {alternative : Alternative} {rest : List Alternative}
      {successors : List (Candidate κ)} :
      Hopeless search root (candidate.choices.reverse ++ [(id, index)]) →
      Expands search kindOf root candidate id steps (index + 1) rest successors →
      Expands search kindOf root candidate id steps index (alternative :: rest) successors

theorem Costs.concat {rule : Nat} {choice : Choice} (costs : search.Costs choices cost)
    (own : Tree.ruleOf? search.forest choice = some rule)
    (known : search.table.rules[rule]? = some entry) :
    search.Costs (choices ++ [choice]) (cost + entry.rule.cost) := by
  obtain ⟨rules, same, total⟩ := costs
  refine ⟨rules ++ [rule], by simp [same, own], ?_⟩
  rw [List.foldlM_append, total]
  simp [Table.costOf, Table.ruleAt, Fault.lookUp, known, bind, Except.bind, pure, Except.pure]

/-- An inversion for the choices of a node and those that follow. -/
theorem spells_cons {forest : Forest} {rest : List Nat} {suffix : List Choice}
    {trees : List Tree} (found : forest.nodes[id]? = some node)
    (chosen : node.alternatives[index]? = some alternative) :
    forest.Spells (id :: rest) ((id, index) :: suffix) trees ↔ ∃ inner outer parts others,
      suffix = inner ++ outer ∧ trees = node.tree id alternative parts :: others ∧
        forest.Spells alternative.children inner parts ∧ forest.Spells rest outer others := by
  constructor
  · intro spells
    obtain - | ⟨foundAlso, chosenAlso, inside, after⟩ := spells
    cases found.symm.trans foundAlso
    cases chosen.symm.trans chosenAlso
    exact ⟨_, _, _, _, rfl, rfl, inside, after⟩
  · intro given
    obtain ⟨inner, outer, parts, others, rfl, rfl, inside, after⟩ := given
    exact .node found chosen inside after

theorem lookUp_cheapest (ready : search.Ready lattice kindOf InUse)
    (inside : id < search.forest.nodes.size) :
    search.cheapestOf id = .ok (search.cheapestAt id) := by
  have bound : id < search.cheapest.size := ready.cheapest ▸ inside
  simp [cheapestOf, cheapestAt, Fault.lookUp, bound]

theorem mapM_cheapest (ready : search.Ready lattice kindOf InUse) {nodes : List Nat}
    (inside : ∀ id ∈ nodes, id < search.forest.nodes.size) :
    nodes.mapM search.cheapestOf = .ok (nodes.map search.cheapestAt) := by
  induction nodes with
  | nil => rfl
  | cons first rest ih =>
      obtain ⟨own, others⟩ := List.forall_mem_cons.1 inside
      rw [List.mapM_cons, lookUp_cheapest ready own, ih others]
      rfl

theorem choose_spec (ready : search.Ready lattice kindOf InUse) (inUse : InUse pool)
    (stands : candidate.Stands search kindOf root) (next : candidate.steps = .expand id :: steps)
    (found : search.forest.nodes[id]? = some node)
    (chosen : node.alternatives[index]? = some alternative) :
    ∃ result after, search.choose candidate id steps pool alternative index =
        .ok (result, after) ∧ InUse after ∧
      (result = none → Hopeless search root (candidate.choices.reverse ++ [(id, index)])) ∧
      ∀ successor, result = some successor →
        Succeeds search kindOf root candidate id index steps successor := by
  have has := Forest.has_of_getElem? found chosen
  obtain ⟨entry, known⟩ := ready.presents.rule_known has
  have children : ∀ child ∈ alternative.children, child < search.forest.nodes.size :=
    fun child member => ready.presents.child_inside (Forest.child_of_has has member)
  have own : Tree.ruleOf? search.forest (id, index) = some alternative.rule := by
    simp [Tree.ruleOf?, found, chosen]
  obtain ⟨result, after, entering, still, dead, entered⟩ := enter_spec node steps
    ready inUse stands.kinded has known
  have spelled := stands.spelled
  have reached := stands.reached
  rw [next] at spelled reached
  have costs := mapM_cheapest ready children
  have nodeCost := lookUp_cheapest ready (Array.getElem?_eq_some_iff.1 found).1
  have ruleFound : search.table.ruleAt alternative.rule = .ok entry := by
    simp [Table.ruleAt, Fault.lookUp, known]
  cases result with
  | none =>
      refine ⟨none, after, ?_, still, fun _ suffix tree spells => ?_, by simp⟩
      · simp only [choose, ruleFound, costs, nodeCost, entering, bind, Except.bind]
      · rw [List.append_assoc, List.singleton_append] at spells
        obtain ⟨trees, below⟩ := reached _ tree spells
        obtain ⟨inner, outer, parts, others, rfl, rfl, inside, rest⟩ :=
          (spells_cons found chosen).1 below
        obtain ⟨again, same, meaning⟩ := spelled _ _ below
        cases spells.trees_unique same
        rw [dead rfl inner parts others inside, Option.map_none, Option.map_eq_none_iff] at meaning
        exact meaning
  | some outcome =>
      obtain ⟨steps', frames'⟩ := outcome
      have made := entered steps' frames' rfl
      have choosing : search.choose candidate id steps pool alternative index = .ok (some {
          cost := candidate.cost + entry.rule.cost
          bound := candidate.bound - search.cheapestAt id + entry.rule.cost +
            Cost.total (alternative.children.map search.cheapestAt)
          steps := steps'
          frames := frames'
          choices := (id, index) :: candidate.choices }, after) := by
        simp only [choose, ruleFound, costs, nodeCost, entering, bind, Except.bind]
      refine ⟨_, after, choosing, still, by simp, fun successor given => ?_⟩
      cases given
      refine ⟨⟨made.kinded, made.settled, fun other member => ?_, fun suffix trees spells => ?_,
        fun suffix tree spells => ?_, ?_⟩, rfl, node, alternative, entry, found, chosen, known,
        rfl, rfl, made.pending⟩
      · rw [made.pending, List.mem_append] at member
        rcases member with inner | outer
        · exact children other inner
        · exact stands.inside other (by rw [next]; exact List.mem_cons_of_mem _ outer)
      · rw [made.pending] at spells
        obtain ⟨inner, outer, parts, others, rfl, rfl, inside, rest⟩ := spells.split
        obtain ⟨tree, whole, meaning⟩ := spelled _ _
          ((spells_cons found chosen).2 ⟨inner, outer, parts, others, rfl, rfl, inside, rest⟩)
        refine ⟨tree, by simpa using whole, meaning.trans ?_⟩
        exact made.resume inner parts others inside
      · rw [List.reverse_cons, List.append_assoc, List.singleton_append] at spells
        obtain ⟨trees, below⟩ := reached _ tree spells
        obtain ⟨inner, outer, parts, others, rfl, rfl, inside, rest⟩ :=
          (spells_cons found chosen).1 below
        refine ⟨parts ++ others, ?_⟩
        rw [made.pending]
        exact inside.append rest
      · rw [List.reverse_cons]
        exact stands.cost.concat own known

theorem expandWith_spec {alternatives : List Alternative}
    (ready : search.Ready lattice kindOf InUse) (inUse : InUse pool)
    (stands : candidate.Stands search kindOf root) (next : candidate.steps = .expand id :: steps)
    (found : search.forest.nodes[id]? = some node)
    (from_ : node.alternatives.drop index = alternatives) :
    ∃ expansion, search.expandWith candidate id steps alternatives index pool = .ok expansion ∧
      InUse expansion.pool ∧
      Expands search kindOf root candidate id steps index alternatives expansion.successors := by
  induction alternatives generalizing index pool with
  | nil => exact ⟨⟨[], 0, pool⟩, rfl, inUse, .nil⟩
  | cons alternative rest ih =>
      have chosen : node.alternatives[index]? = some alternative := by
        rw [← List.head?_drop, from_]
        rfl
      have others : node.alternatives.drop (index + 1) = rest := by
        rw [← List.tail_drop, from_]
        rfl
      obtain ⟨result, after, choosing, still, dead, lives⟩ :=
        choose_spec ready inUse stands next found chosen
      obtain ⟨expansion, expanding, inUseLast, expands⟩ := ih still others
      cases result with
      | none =>
          refine ⟨{ expansion with dropped := expansion.dropped + 1 }, ?_, inUseLast,
            .dropped (dead rfl) expands⟩
          simp only [expandWith, choosing, expanding, bind, Except.bind]
      | some successor =>
          refine ⟨{ expansion with successors := successor :: expansion.successors }, ?_, inUseLast,
            .chosen (lives successor rfl) expands⟩
          simp only [expandWith, choosing, expanding, bind, Except.bind]

theorem expand_spec (ready : search.Ready lattice kindOf InUse) (inUse : InUse pool)
    (stands : candidate.Stands search kindOf root)
    (next : candidate.steps = .expand id :: steps) :
    ∃ node expansion, search.forest.nodes[id]? = some node ∧
      search.expand candidate id steps pool = .ok expansion ∧ InUse expansion.pool ∧
      Expands search kindOf root candidate id steps 0 node.alternatives expansion.successors := by
  have inside := stands.inside id (by rw [next]; exact List.mem_cons_self ..)
  have found := Array.getElem?_eq_getElem inside
  obtain ⟨expansion, expanding, still, expands⟩ :=
    expandWith_spec ready inUse stands next found rfl
  refine ⟨_, expansion, found, ?_, still, expands⟩
  simp only [expand, Forest.nodeAt, Fault.lookUp, found, bind, Except.bind]
  exact expanding

theorem Expands.stands {alternatives : List Alternative} {successors : List (Candidate κ)}
    (expands : Expands search kindOf root candidate id steps index alternatives successors) :
    ∀ successor ∈ successors, successor.Stands search kindOf root := by
  induction expands with
  | nil => simp
  | chosen succeeds _ ih => exact List.forall_mem_cons.2 ⟨succeeds.stands, ih⟩
  | dropped _ _ ih => exact ih

/-- A candidate without steps spells a tree, and its meaning is that of the tree. -/
theorem finish_spec (ready : search.Ready lattice kindOf InUse) (inUse : InUse pool)
    (stands : candidate.Stands search kindOf root) (complete : candidate.steps = []) :
    ∃ tree outcome after, finish search.share pool candidate = (outcome, after) ∧
      search.forest.Spells [root] candidate.choices.reverse [tree] ∧
      outcome.map Interpretation.costless =
        (tree.interpretation? search.table search.forest).map Interpretation.costless ∧
      (∀ meaning, outcome = some meaning → ∀ root ∈ meaning.roots, root.Kinded kindOf) ∧
      InUse after := by
  have spelled := stands.spelled [] []
  rw [complete, List.append_nil] at spelled
  obtain ⟨tree, spells, meaning⟩ := spelled .nil
  have kinded := stands.kinded
  cases frames : candidate.frames with
  | nil =>
      rw [frames] at meaning
      exact ⟨tree, none, pool, by simp only [finish, frames], spells, meaning.symm, by simp, inUse⟩
  | cons frame outer =>
      rw [frames] at kinded meaning
      simp only [resume] at meaning
      cases closed : frame.close? with
      | none =>
          rw [closed] at meaning
          exact ⟨tree, none, pool, by simp only [finish, frames, closed], spells, meaning.symm,
            by simp, inUse⟩
      | some roots =>
          rw [closed] at meaning
          have rootsKinded := Frame.close?_kinded closed (List.forall_mem_cons.1 kinded).1
          obtain ⟨same, shared, later⟩ := ready.faithful.shareAll inUse rootsKinded
          refine ⟨tree, _, _, by simp only [finish, frames, closed], spells, ?_,
            fun meaning made => Interpretation.ofRoots?_kinded made shared, later⟩
          rw [meaning, Option.bind_some, ← Interpretation.ofRoots?_costless, same,
            Interpretation.ofRoots?_costless]

end QueryGrammar.Search
