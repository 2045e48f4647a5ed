import QueryGrammar.Forest.Display
import QueryGrammar.Proofs.Parse.Run
import QueryGrammar.Proofs.Tree.Grounded

namespace QueryGrammar

/-! Forests whose references lead somewhere.

Main statement: on every table whose references lead somewhere, recognition makes such a forest,
whatever the rules, literals and states of the table have to do with one another; and such a forest
has a text and a graph.
-/

theorem exists_ok_mapM {visit : α → Except ε β} {values : List α}
    (each : ∀ value ∈ values, ∃ result, visit value = .ok result) :
    ∃ results, values.mapM visit = .ok results := by
  induction values with
  | nil => exact ⟨[], rfl⟩
  | cons value rest ih =>
      obtain ⟨own, others⟩ := List.forall_mem_cons.1 each
      rw [List.mapM_cons]
      exact exists_ok_bind own fun _ => exists_ok_bind (ih others) fun _ => ⟨_, rfl⟩

variable {κ : Type} {table : Table κ} {lattice : Lattice}

namespace Alternative.InRange

variable {forest : Forest} {alternative : Alternative}

theorem children (inRange : alternative.InRange table forest) :
    ∀ child ∈ alternative.children, child < forest.nodes.size := by
  cases inRange with
  | terminal => exact fun child member => absurd member List.not_mem_nil
  | branch _ _ inside => exact inside

theorem ruleAt (inRange : alternative.InRange table forest) :
    ∃ entry, table.ruleAt alternative.rule = .ok entry := by
  cases inRange with
  | terminal known => exact ⟨_, by rw [Table.ruleAt, Fault.lookUp, Alternative.rule, known]⟩
  | branch known => exact ⟨_, by rw [Table.ruleAt, Fault.lookUp, Alternative.rule, known]⟩

theorem costOf (inRange : alternative.InRange table forest) :
    ∃ cost, table.costOf alternative.rule = .ok cost :=
  exists_ok_bind inRange.ruleAt fun _ => ⟨_, rfl⟩

theorem mono {after : Forest} (inRange : alternative.InRange table forest)
    (nodes : ∀ id < forest.nodes.size, id < after.nodes.size)
    (found : after.found = forest.found) : alternative.InRange table after := by
  cases inRange with
  | terminal known symbol present => exact .terminal known symbol (found ▸ present)
  | branch known symbol inside =>
      exact .branch known symbol fun child member => nodes child (inside child member)

end Alternative.InRange

namespace Forest

variable {before after : Forest} {id symbol start stop : Nat} {alternative : Alternative}

theorem Recorded.inRange (recorded : Recorded before after id symbol start stop alternative)
    (inRange : before.InRange table) (known : symbol < table.symbols.size)
    (fits : alternative.InRange table before) : after.InRange table := by
  have nodes : ∀ id < before.nodes.size, id < after.nodes.size := by
    intro id inside
    obtain ⟨symbol, start, stop, is⟩ := exists_is inside
    exact Is.lt_size ((recorded.is_iff ..).2 (.inl is))
  refine ⟨fun id symbol start stop is => ?_, fun id alternative has => ?_⟩
  · rcases (recorded.is_iff ..).1 is with earlier | ⟨-, rfl, -, -⟩
    · exact inRange.symbol _ _ _ _ earlier
    · exact known
  · rcases (recorded.has_iff ..).1 has with earlier | ⟨-, rfl⟩
    · exact (inRange.alternative _ _ earlier).mono nodes recorded.found
    · exact fits.mono nodes recorded.found

end Forest

namespace Stack

variable {stack after : Stack} {low symbol start stop : Nat} {alternative : Alternative}

/-- Nothing but the numbers of the table is needed: the nodes on a way back are those of links. -/
theorem Warrants.inRange (inRange : table.InRange) (consistent : stack.Consistent table lattice)
    (warrant : Warrants table lattice stack symbol start stop alternative) :
    alternative.InRange table stack.forest := by
  have node : ∀ vertex link, stack.HasLink vertex link → link.node < stack.forest.nodes.size := by
    intro vertex link has
    obtain ⟨-, symbol, is, -⟩ := consistent.link _ _ has
    exact is.lt_size
  cases warrant with
  | literal found _ known =>
      refine .terminal known (inRange.symbol _ _ known) ?_
      rw [consistent.found]
      exact (Array.getElem?_eq_some_iff.1 found).1
  | @branch vertex origin link state rule entry children has _ _ known path =>
      refine .branch known (inRange.symbol _ _ known) ?_
      generalize entry.slots.length = length at path
      cases path with
      | single => simpa using node _ _ has
      | pair first => simpa using ⟨node _ _ first, node _ _ has⟩

theorem Move.inRange (inRange : table.InRange) (spanning : lattice.Spanning)
    (consistent : stack.Consistent table lattice) (forest : stack.forest.InRange table)
    (move : Move table lattice low stack after) : after.forest.InRange table := by
  cases move with
  | step step =>
      cases step with
      | record warrant recorded =>
          exact recorded.inRange forest (consistent.warranted inRange spanning warrant).1
            (warrant.inRange inRange consistent)
      | link => exact forest
  | take => exact forest

theorem Moves.inRange (inRange : table.InRange) (spanning : lattice.Spanning)
    (consistent : stack.Consistent table lattice) (forest : stack.forest.InRange table)
    (moves : Moves table lattice low stack after) : after.forest.InRange table := by
  induction moves with
  | refl => exact forest
  | tail before move ih =>
      exact move.inRange inRange spanning (Moves.spec inRange spanning consistent before).1 ih

end Stack

namespace Forest

variable {forest : Forest} {node : Node} {alternative : Alternative} {id : Nat}

theorem size_sorted (forest : Forest) : forest.sorted.nodes.size = forest.nodes.size := by
  simp [sorted]

theorem InRange.sorted (inRange : forest.InRange table) : forest.sorted.InRange table where
  symbol _ _ _ _ is := inRange.symbol _ _ _ _ (sorted_is.1 is)
  alternative _ _ has :=
    (inRange.alternative _ _ (sorted_has.1 has)).mono
      (fun _ inside => (size_sorted forest).symm ▸ inside) rfl

theorem InRange.withRoot (inRange : forest.InRange table) (root : Option Nat) :
    Forest.InRange table { forest with root } where
  symbol := inRange.symbol
  alternative _ _ has := (inRange.alternative _ _ has).mono (fun _ inside => inside) rfl

/-- Recognition meets no fault, and the forest it makes leads nowhere out of range. -/
theorem ofLattice_inRange (inRange : table.InRange) (spanning : lattice.Spanning) :
    ∃ outcome, ofLattice table lattice = .ok outcome ∧ ∀ forest, outcome = .ok forest →
      forest.InRange table ∧ ∃ root, forest.root = some root ∧ root < forest.nodes.size := by
  obtain ⟨stack, accepted, moves, -, -, -, recognizing⟩ := recognized_run inRange spanning
  have start : Stack.Consistent table lattice (Stack.initial lattice) :=
    (Stack.initial_done inRange).consistent
  have nothing : Forest.InRange table (Stack.initial lattice).forest := by
    refine ⟨fun _ _ _ _ is => (start.node _ _ _ _ is).1, fun id alternative has => ?_⟩
    obtain ⟨node, found, -⟩ := has
    simp [Stack.initial, ofMatches] at found
  have recognized := moves.inRange inRange spanning start nothing
  have packed := (Stack.Moves.spec inRange spanning start moves).1.packed
  generalize top : (if accepted then stack.forest.find? table.start 0 lattice.length else none) =
    root at recognizing
  unfold ofLattice
  rw [recognizing]
  cases root with
  | none => exact ⟨_, rfl, fun forest same => by cases same⟩
  | some root =>
      refine ⟨_, rfl, fun forest same => ?_⟩
      cases same
      refine ⟨(recognized.withRoot _).sorted, root, rfl, ?_⟩
      rw [size_sorted]
      split at top
      · exact ((packed.indexed ..).1 top).lt_size
      · cases top

/-! Texts and graphs. -/

theorem InRange.of_node (inRange : forest.InRange table)
    (found : forest.nodes[id]? = some node) : node.symbol < table.symbols.size ∧
      ∀ alternative ∈ node.alternatives, alternative.InRange table forest :=
  ⟨inRange.symbol id _ _ _ ⟨node, found, rfl, rfl, rfl⟩,
    fun alternative member => inRange.alternative id alternative ⟨node, found, member⟩⟩

section

variable {table : Table Amount}

theorem nodeName_ok (inRange : forest.InRange table) (inside : id < forest.nodes.size) :
    ∃ name, nodeName table forest.nodes[id] = .ok name := by
  have known := (inRange.of_node (Array.getElem?_eq_getElem inside)).1
  exact exists_ok_bind ⟨_, Fault.lookUp_of_lt known⟩ fun _ => ⟨_, rfl⟩

theorem alternativeText_ok (inRange : forest.InRange table)
    (own : alternative.InRange table forest) :
    ∃ text, alternativeText table forest alternative = .ok text := by
  have cost := own.costOf
  unfold alternativeText
  cases own with
  | terminal _ _ present =>
      refine exists_ok_bind ⟨_, Fault.lookUp_of_lt present⟩ fun hit => ?_
      exact exists_ok_bind ⟨_, rfl⟩ fun parts => exists_ok_bind cost fun _ => ⟨_, rfl⟩
  | branch _ _ inside =>
      refine exists_ok_bind (exists_ok_mapM fun child member => ?_) fun names => ?_
      · have here := inside child member
        simp only [nodeAt, Fault.lookUp_of_lt here, bind, Except.bind]
        exact exists_ok_bind (nodeName_ok inRange here) fun _ => ⟨_, rfl⟩
      · exact exists_ok_bind ⟨_, rfl⟩ fun parts => exists_ok_bind cost fun _ => ⟨_, rfl⟩

theorem alternativeGraph_ok (own : alternative.InRange table forest) (id index : Nat) :
    ∃ graph, alternativeGraph table forest id index alternative = .ok graph := by
  refine exists_ok_bind own.costOf fun cost => ?_
  cases own with
  | terminal _ _ present => exact exists_ok_bind ⟨_, Fault.lookUp_of_lt present⟩ fun _ => ⟨_, rfl⟩
  | branch => exact ⟨_, rfl⟩

theorem InRange.text (inRange : forest.InRange table) : ∃ text, forest.text table = .ok text := by
  refine exists_ok_bind (exists_ok_mapM fun entry member => ?_) fun _ => ⟨_, rfl⟩
  obtain ⟨node, id⟩ := entry
  rw [List.mk_mem_zipIdx_iff_getElem?, Array.getElem?_toList] at member
  obtain ⟨inside, rfl⟩ := Array.getElem?_eq_some_iff.1 member
  refine exists_ok_bind (nodeName_ok inRange inside) fun name => ?_
  refine exists_ok_bind (exists_ok_mapM fun alternative known => ?_) fun _ => ⟨_, rfl⟩
  exact alternativeText_ok inRange ((inRange.of_node member).2 alternative known)

theorem InRange.graph (inRange : forest.InRange table) :
    ∃ graph, forest.graph table = .ok graph := by
  refine exists_ok_bind (exists_ok_mapM fun entry member => ?_) fun _ => ⟨_, rfl⟩
  obtain ⟨node, id⟩ := entry
  rw [List.mk_mem_zipIdx_iff_getElem?, Array.getElem?_toList] at member
  obtain ⟨symbol, alternatives⟩ := inRange.of_node member
  refine exists_ok_bind ⟨_, Fault.lookUp_of_lt symbol⟩ fun name => ?_
  refine exists_ok_bind (exists_ok_mapM fun entry known => ?_) fun _ => ⟨_, rfl⟩
  exact alternativeGraph_ok (alternatives entry.1 (List.fst_mem_of_mem_zipIdx known)) id entry.2

end

end Forest

end QueryGrammar
