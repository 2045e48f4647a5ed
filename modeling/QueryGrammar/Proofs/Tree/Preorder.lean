import QueryGrammar.Proofs.Tree.Choices
import QueryGrammar.Proofs.Tree.Grounded

namespace QueryGrammar

/-! Choices as a code for trees.

Main statement: choices are built into a tree just if they are the choices of that tree in
pre-order.  This takes no more than that no node has an alternative twice, so a forest may go round
in circles.
-/

namespace Forest

/-- Forests that come about by adding nodes and alternatives, which may be put in order, and by
naming a root. -/
inductive Built : Forest → Prop
  | ofMatches (found : Array Match) : Built (ofMatches found)
  | ensure {forest : Forest} (symbol start stop : Nat) : Built forest →
      Built (forest.ensure symbol start stop).2
  | addAlternative {forest after : Forest} {new : Bool} (id : Nat) (alternative : Alternative) :
      Built forest → forest.addAlternative id alternative = .ok (new, after) → Built after
  | sorted {forest : Forest} : Built forest → Built forest.sorted
  | withRoot {forest : Forest} (root : Option Nat) : Built forest → Built { forest with root }

theorem Built.packed {forest : Forest} (built : forest.Built) : forest.Packed := by
  induction built with
  | ofMatches found => exact packed_ofMatches found
  | ensure symbol start stop _ packed => exact (ensure_spec packed symbol start stop).2.2.2
  | @addAlternative forest after new id alternative _ added packed =>
      have inside : id < forest.nodes.size := by
        by_contra outside
        have missing : forest.nodes[id]? = none := Array.getElem?_eq_none (Nat.le_of_not_lt outside)
        simp [Forest.addAlternative, nodeAt, Fault.lookUp, missing, bind, Except.bind] at added
      obtain ⟨_, _, again, -, -, -, packed⟩ := addAlternative_spec packed inside alternative
      cases added.symm.trans again
      exact packed
  | sorted _ packed => exact packed.sorted
  | withRoot root _ packed => exact packed.withRoot root

/-- Trees for nodes in order, each of which takes one alternative at every node in it. -/
inductive Bears (forest : Forest) : List Nat → List Tree → Prop
  | nil : forest.Bears [] []
  | node {id : Nat} {node : Node} {alternative : Alternative} {rest : List Nat}
      {parts trees : List Tree} :
      forest.nodes[id]? = some node → alternative ∈ node.alternatives →
      forest.Bears alternative.children parts → forest.Bears rest trees →
      forest.Bears (id :: rest) (node.tree id alternative parts :: trees)

/-- Where a node has an alternative. -/
def positionOf (forest : Forest) (id : Nat) (alternative : Alternative) : Nat :=
  match forest.nodes[id]? with
  | some node => node.alternatives.idxOf alternative
  | none => 0

end Forest

namespace Tree

def node? : Tree → Option Nat
  | .leaf _ _ => none
  | .branch node _ _ _ => some node

/-- The alternative that a branch by a rule takes. -/
def alternative (rule : Nat) : List Tree → Alternative
  | [.leaf found _] => .terminal rule found
  | children => .branch rule (children.filterMap node?)

mutual

/-- The nodes of a tree in pre-order, each with the position of the alternative that is taken. -/
def preorder (forest : Forest) : Tree → List Choice
  | .leaf _ _ => []
  | .branch node rule _ children =>
      (node, forest.positionOf node (alternative rule children)) :: preorderAll forest children

def preorderAll (forest : Forest) : List Tree → List Choice
  | [] => []
  | first :: rest => preorder forest first ++ preorderAll forest rest

end

end Tree

@[simp] theorem Node.node?_tree (node : Node) (id : Nat) (alternative : Alternative)
    (parts : List Tree) : (node.tree id alternative parts).node? = some id := by
  cases alternative <;> rfl

namespace Forest

variable {forest : Forest} {nodes : List Nat} {choices others rest : List Choice}
  {trees : List Tree} {tree : Tree} {id root index fuel : Nat}

/-! Trees of a forest and their choices in pre-order. -/

theorem Spells.bears (spells : forest.Spells nodes choices trees) : forest.Bears nodes trees := by
  induction spells with
  | nil => exact .nil
  | node found chosen _ _ ihInner ihOuter =>
      exact .node found (List.mem_of_getElem? chosen) ihInner ihOuter

theorem Bears.exists_spells (bears : forest.Bears nodes trees) :
    ∃ choices, forest.Spells nodes choices trees := by
  induction bears with
  | nil => exact ⟨[], .nil⟩
  | node found member _ _ ihInner ihOuter =>
      obtain ⟨index, chosen⟩ := List.getElem?_of_mem member
      obtain ⟨inner, below⟩ := ihInner
      obtain ⟨outer, after⟩ := ihOuter
      exact ⟨_, .node found chosen below after⟩

theorem Spells.filterMap_node? (spells : forest.Spells nodes choices trees) :
    trees.filterMap Tree.node? = nodes := by
  induction spells with
  | nil => rfl
  | node _ _ _ _ _ ihOuter =>
      rw [List.filterMap_cons_some (Node.node?_tree ..), ihOuter]

/-- Only a rule on a literal has a leaf below it. -/
theorem Spells.alternative_eq {rule : Nat} (spells : forest.Spells nodes choices trees) :
    Tree.alternative rule trees = .branch rule nodes := by
  rw [← spells.filterMap_node?]
  unfold Tree.alternative
  split
  · obtain ⟨_, _, _, _, same⟩ := spells.branches _ (List.mem_singleton_self _)
    cases same
  · rfl

theorem Packed.positionOf_eq (packed : forest.Packed) {node : Node} {alternative : Alternative}
    (found : forest.nodes[id]? = some node)
    (chosen : node.alternatives[index]? = some alternative) :
    forest.positionOf id alternative = index := by
  obtain ⟨inside, rfl⟩ := List.getElem?_eq_some_iff.1 chosen
  simp only [positionOf, found]
  exact (packed.distinct id node found).idxOf_getElem index inside

theorem Spells.preorderAll_eq (packed : forest.Packed)
    (spells : forest.Spells nodes choices trees) : Tree.preorderAll forest trees = choices := by
  induction spells with
  | nil => rw [Tree.preorderAll]
  | @node id index node alternative _ _ _ parts _ found chosen inner _ ihInner ihOuter =>
      have position := packed.positionOf_eq found chosen
      rw [Tree.preorderAll, ihOuter, ← List.cons_append]
      congr 1
      cases alternative with
      | terminal rule hit =>
          cases inner
          rw [Node.tree, Tree.preorder, Tree.alternative, position]
          simp [Tree.preorderAll, Tree.preorder]
      | branch rule children =>
          have below : forest.Spells children _ parts := inner
          rw [Node.tree, Tree.preorder, below.alternative_eq, position, ihInner]

theorem Packed.spells_iff (packed : forest.Packed) : forest.Spells [root] choices [tree] ↔
    forest.Bears [root] [tree] ∧ tree.preorder forest = choices := by
  have single : Tree.preorderAll forest [tree] = tree.preorder forest := by
    simp [Tree.preorderAll]
  constructor
  · exact fun spells => ⟨spells.bears, single ▸ spells.preorderAll_eq packed⟩
  · intro given
    obtain ⟨bears, rfl⟩ := given
    obtain ⟨choices, spells⟩ := bears.exists_spells
    rwa [← single, spells.preorderAll_eq packed]

/-! Building goes through the choices from left to right and leaves the rest. -/

theorem spells_of_buildAll
    {build : Nat → List Choice → Except Fault (Option (Tree × List Choice))}
    (sound : ∀ id choices tree rest, build id choices = .ok (some (tree, rest)) →
      ∃ used, choices = used ++ rest ∧ forest.Spells [id] used [tree])
    (built : Tree.buildAll build nodes choices = .ok (some (trees, rest))) :
    ∃ used, choices = used ++ rest ∧ forest.Spells nodes used trees := by
  induction nodes generalizing choices trees with
  | nil =>
      cases built
      exact ⟨[], rfl, .nil⟩
  | cons id nodes ih =>
      rw [Tree.buildAll] at built
      cases first : build id choices with
      | error fault => simp [first, bind, Except.bind] at built
      | ok outcome =>
          obtain - | ⟨tree, left⟩ := outcome
          · simp [first, bind, Except.bind] at built
          cases others : Tree.buildAll build nodes left with
          | error fault => simp [first, others, bind, Except.bind] at built
          | ok outcome =>
              obtain - | ⟨more, last⟩ := outcome
              · simp [first, others, bind, Except.bind] at built
              simp only [first, others, bind, Except.bind, Except.ok.injEq, Option.some.injEq,
                Prod.mk.injEq] at built
              obtain ⟨rfl, rfl⟩ := built
              obtain ⟨used, rfl, spells⟩ := sound _ _ _ _ first
              obtain ⟨also, rfl, after⟩ := ih others
              exact ⟨used ++ also, (List.append_assoc ..).symm, spells.append after⟩

theorem spells_of_build (built : Tree.build forest fuel id choices = .ok (some (tree, rest))) :
    ∃ used, choices = used ++ rest ∧ forest.Spells [id] used [tree] := by
  induction fuel generalizing id choices tree rest with
  | zero => cases built
  | succ fuel ih =>
      obtain - | ⟨⟨chosen, index⟩, choices⟩ := choices
      · cases built
      rw [Tree.build] at built
      split at built
      · cases built
      rename_i same
      obtain rfl := Decidable.of_not_not same
      cases found : forest.nodes[chosen]? with
      | none => simp [nodeAt, Fault.lookUp, found, bind, Except.bind] at built
      | some node =>
          simp only [nodeAt, Fault.lookUp, found, bind, Except.bind] at built
          split at built
          · cases built
          · rename_i rule hit taken
            cases built
            exact ⟨[(chosen, index)], rfl, .node found taken .nil .nil⟩
          · rename_i rule children taken
            cases parts : Tree.buildAll (Tree.build forest fuel) children choices with
            | error fault => simp [parts] at built
            | ok outcome =>
                obtain - | ⟨trees, left⟩ := outcome
                · simp [parts] at built
                simp only [parts, Except.ok.injEq, Option.some.injEq, Prod.mk.injEq] at built
                obtain ⟨rfl, rfl⟩ := built
                obtain ⟨used, rfl, below⟩ :=
                  spells_of_buildAll (fun _ _ _ _ => ih) parts
                refine ⟨(chosen, index) :: used, rfl, spells_one.2 ?_⟩
                exact ⟨node, index, _, used, trees, found, taken, below, rfl, rfl⟩

theorem spells_of_ofChoices (built : Tree.ofChoices forest choices = .ok (some tree)) :
    ∃ root, forest.Spells [root] choices [tree] := by
  obtain - | ⟨⟨root, index⟩, rest⟩ := choices
  · cases built
  rw [Tree.ofChoices] at built
  generalize first : Tree.build forest _ root ((root, index) :: rest) = outcome at built
  obtain fault | - | ⟨own, - | ⟨left, more⟩⟩ := outcome
  · cases built
  · cases built
  · cases built
    obtain ⟨used, split, spells⟩ := spells_of_build first
    rw [List.append_nil] at split
    exact ⟨root, split ▸ spells⟩
  · cases built

/-- Nodes that are there are built into trees or into nothing. -/
theorem exists_buildAll
    {build : Nat → List Choice → Except Fault (Option (Tree × List Choice))}
    (goes : ∀ id ∈ nodes, ∀ choices, ∃ outcome, build id choices = .ok outcome)
    (choices : List Choice) : ∃ outcome, Tree.buildAll build nodes choices = .ok outcome := by
  induction nodes generalizing choices with
  | nil => exact ⟨_, rfl⟩
  | cons id nodes ih =>
      obtain ⟨own, others⟩ := List.forall_mem_cons.1 goes
      rw [Tree.buildAll]
      refine exists_ok_bind (own choices) fun outcome => ?_
      obtain - | ⟨tree, left⟩ := outcome
      · exact ⟨none, rfl⟩
      refine exists_ok_bind (ih others left) fun outcome => ?_
      obtain - | ⟨more, last⟩ := outcome
      · exact ⟨none, rfl⟩
      · exact ⟨_, rfl⟩

theorem exists_build
    (inside : ∀ parent child, forest.Child parent child → child < forest.nodes.size)
    (here : id < forest.nodes.size) (choices : List Choice) :
    ∃ outcome, Tree.build forest fuel id choices = .ok outcome := by
  induction fuel generalizing id choices with
  | zero => exact ⟨none, rfl⟩
  | succ fuel ih =>
      obtain - | ⟨⟨chosen, index⟩, choices⟩ := choices
      · exact ⟨none, rfl⟩
      rw [Tree.build]
      split
      · exact ⟨none, rfl⟩
      simp only [nodeAt, Fault.lookUp_of_lt here, bind, Except.bind]
      split
      · exact ⟨none, rfl⟩
      · exact ⟨_, rfl⟩
      · rename_i rule children taken
        have below : ∀ child ∈ children, child < forest.nodes.size := fun child member =>
          inside id child ⟨rule, children,
            has_of_getElem? (Array.getElem?_eq_getElem here) taken, member⟩
        have parts : ∃ outcome, Tree.buildAll (Tree.build forest fuel) children choices =
            .ok outcome := exists_buildAll (fun child member => ih (below child member)) choices
        obtain ⟨outcome, parts⟩ := parts
        rw [parts]
        obtain - | ⟨trees, left⟩ := outcome <;> exact ⟨_, rfl⟩

theorem exists_ofChoices
    (inside : ∀ parent child, forest.Child parent child → child < forest.nodes.size)
    (here : root < forest.nodes.size) (index : Nat) (rest : List Choice) :
    ∃ outcome, Tree.ofChoices forest ((root, index) :: rest) = .ok outcome := by
  rw [Tree.ofChoices]
  refine exists_ok_bind (exists_build inside here _) fun outcome => ?_
  obtain - | ⟨tree, - | ⟨left, more⟩⟩ := outcome <;> exact ⟨_, rfl⟩

/-- Choices whose first node is there are built into a tree just if they are its choices in
pre-order, and into nothing if there is no such tree.  No two lists of choices are built into one
tree, and every tree of a node is built from its own. -/
theorem ofChoices_preorder (built : forest.Built)
    (inside : ∀ parent child, forest.Child parent child → child < forest.nodes.size) :
    (∀ root index rest, root < forest.nodes.size →
      (∀ tree, Tree.ofChoices forest ((root, index) :: rest) = .ok (some tree) ↔
        forest.Bears [root] [tree] ∧ tree.preorder forest = (root, index) :: rest) ∧
      ((∀ tree, forest.Bears [root] [tree] → tree.preorder forest ≠ (root, index) :: rest) →
        Tree.ofChoices forest ((root, index) :: rest) = .ok none)) ∧
    Tree.ofChoices forest [] = .ok none ∧
    (∀ choices others tree, Tree.ofChoices forest choices = .ok (some tree) →
      Tree.ofChoices forest others = .ok (some tree) → choices = others) ∧
    ∀ root tree, forest.Bears [root] [tree] →
      Tree.ofChoices forest (tree.preorder forest) = .ok (some tree) := by
  have packed := built.packed
  have decodes : ∀ {choices tree}, Tree.ofChoices forest choices = .ok (some tree) →
      ∃ root, forest.Bears [root] [tree] ∧ tree.preorder forest = choices := fun built =>
    (spells_of_ofChoices built).imp fun _ => packed.spells_iff.1
  have encodes : ∀ root tree, forest.Bears [root] [tree] →
      Tree.ofChoices forest (tree.preorder forest) = .ok (some tree) := fun root tree bears =>
    (packed.spells_iff.2 ⟨bears, rfl⟩).ofChoices
  -- The first choice names the node of the tree.
  have first : ∀ {root index rest tree},
      Tree.ofChoices forest ((root, index) :: rest) = .ok (some tree) →
        forest.Bears [root] [tree] ∧ tree.preorder forest = (root, index) :: rest := by
    intro root index rest tree made
    obtain ⟨own, bears, order⟩ := decodes made
    obtain ⟨_, _, _, _, _, -, -, -, same, -⟩ := spells_one.1 (packed.spells_iff.2 ⟨bears, order⟩)
    cases same
    exact ⟨bears, order⟩
  refine ⟨fun root index rest here => ⟨fun tree => ⟨first, fun given => ?_⟩, fun nothing => ?_⟩,
    rfl, fun choices others tree made also => ?_, encodes⟩
  · exact given.2 ▸ encodes root tree given.1
  · obtain ⟨outcome, made⟩ := exists_ofChoices inside here index rest
    cases outcome with
    | none => exact made
    | some tree =>
        obtain ⟨bears, order⟩ := first made
        exact absurd order (nothing tree bears)
  · obtain ⟨_, -, order⟩ := decodes made
    obtain ⟨_, -, orderAlso⟩ := decodes also
    exact order.symm.trans orderAlso

/-- A node that stands for itself, or for two of itself. -/
def looping : Forest where
  nodes := #[⟨0, 0, 1, [.branch 0 [0], .terminal 1 0, .branch 2 [0, 0]]⟩]
  index := [((0, 0, 1), 0)]
  found := #[⟨"x", 0, 1, "x", none⟩]
  root := none

theorem ofChoices_preorder_looping : looping.Built ∧
    (∀ parent child, looping.Child parent child → child < looping.nodes.size) ∧
    (∃ tree, Tree.ofChoices looping [(0, 2), (0, 0), (0, 1), (0, 1)] = .ok (some tree) ∧
      looping.Bears [0] [tree] ∧ tree.preorder looping = [(0, 2), (0, 0), (0, 1), (0, 1)]) ∧
    ∀ tree, looping.Bears [0] [tree] → tree.preorder looping ≠ [(0, 2), (0, 0), (0, 1)] := by
  have built : looping.Built := by
    have made : ((ofMatches looping.found).ensure 0 0 1).2 =
        ⟨#[⟨0, 0, 1, []⟩], looping.index, looping.found, none⟩ := rfl
    have node := made ▸ Built.ensure 0 0 1 (.ofMatches looping.found)
    have once := Built.addAlternative 0 (.branch 0 [0]) node rfl
    have literal := Built.addAlternative 0 (.terminal 1 0) once rfl
    exact .addAlternative 0 (.branch 2 [0, 0]) literal rfl
  have inside : ∀ parent child, looping.Child parent child → child < looping.nodes.size := by
    intro parent child related
    obtain ⟨rule, children, ⟨node, found, member⟩, below⟩ := related
    cases Array.mem_singleton.1 (Array.mem_of_getElem? found)
    simp only [List.mem_cons, Alternative.branch.injEq, reduceCtorEq, false_or, List.not_mem_nil,
      or_false] at member
    have itself : child = 0 := by
      rcases member with ⟨-, rfl⟩ | ⟨-, rfl⟩ <;> simpa using below
    exact itself ▸ Nat.zero_lt_one
  obtain ⟨decodes, -, -, encodes⟩ := ofChoices_preorder built inside
  refine ⟨built, inside, ⟨_, rfl, ?_⟩, fun tree bears short => ?_⟩
  · exact ((decodes 0 2 [(0, 0), (0, 1), (0, 1)] Nat.zero_lt_one).1 _).1 rfl
  · have made := encodes 0 tree bears
    have fails : Tree.ofChoices looping [(0, 2), (0, 0), (0, 1)] = .ok none := rfl
    rw [short, fails] at made
    cases made

end Forest

end QueryGrammar
