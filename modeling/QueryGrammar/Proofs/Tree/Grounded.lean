import QueryGrammar.Proofs.Forest.Acyclic
import QueryGrammar.Tree.Labelled
import QueryGrammar.Tree.Phrasing

namespace QueryGrammar

/-! Trees whose references lead somewhere.

Main statement: such trees have a phrasing, a cost and labels, and the trees of a forest are such
trees.
-/

theorem exists_ok_bind {first : Except ε α} {next : α → Except ε β}
    (succeeds : ∃ value, first = .ok value) (goes : ∀ value, ∃ result, next value = .ok result) :
    ∃ result, (first >>= next) = .ok result := by
  obtain ⟨value, rfl⟩ := succeeds
  exact goes value

namespace Tree

/-- A tree whose references all lead somewhere. -/
inductive Grounded (table : Table κ) (forest : Forest) : Tree → Prop
  | leaf {found : Nat} {hit : Match} {span : Span} : forest.found[found]? = some hit →
      Grounded table forest (.leaf found span)
  | branch {node rule : Nat} {entry : IndexedRule κ} {span : Span} {children : List Tree} :
      table.rules[rule]? = some entry → entry.symbol < table.symbols.size →
      (∀ child ∈ children, Grounded table forest child) →
      Grounded table forest (.branch node rule span children)

section

variable {table : Table κ} {forest : Forest}

theorem Grounded.matchAt {found : Nat} {span : Span}
    (grounded : (Tree.leaf found span).Grounded table forest) :
    ∃ hit, forest.matchAt found = .ok hit := by
  cases grounded with
  | leaf present => exact ⟨_, by rw [Forest.matchAt, Fault.lookUp, present]⟩

theorem Grounded.ruleAt {node rule : Nat} {span : Span} {children : List Tree}
    (grounded : (Tree.branch node rule span children).Grounded table forest) :
    ∃ entry, table.ruleAt rule = .ok entry ∧ entry.symbol < table.symbols.size := by
  cases grounded with
  | branch known symbol _ => exact ⟨_, by rw [Table.ruleAt, Fault.lookUp, known], symbol⟩

theorem Grounded.children {node rule : Nat} {span : Span} {children : List Tree}
    (grounded : (Tree.branch node rule span children).Grounded table forest) :
    ∀ child ∈ children, child.Grounded table forest := by
  cases grounded with
  | branch _ _ inside => exact inside

theorem exists_literalPhrase {children : List Tree}
    (grounded : ∀ child ∈ children, child.Grounded table forest) (rule : Rule κ)
    (form : Option Form) (person : Option Person) :
    ∃ words, literalPhrase forest rule children form person = .ok words := by
  unfold literalPhrase
  split
  · split
    · exact exists_ok_bind (grounded _ (List.mem_cons_self ..)).matchAt fun _ => ⟨_, rfl⟩
    · exact ⟨_, rfl⟩
  · exact ⟨_, rfl⟩

mutual

theorem exists_phrase : (tree : Tree) → tree.Grounded table forest → (form : Option Form) →
    (person : Option Person) → ∃ phrase, tree.phrase table forest form person = .ok phrase
  | .leaf _ _, _, _, person => ⟨([], person), by rw [phrase]⟩
  | .branch _ id _ children, grounded, form, person => by
      rw [phrase]
      obtain ⟨entry, known, -⟩ := grounded.ruleAt
      simp only [known, bind, Except.bind]
      split
      · exact exists_ok_bind (exists_literalPhrase grounded.children ..) fun _ => ⟨_, rfl⟩
      · have inside := exists_phraseAll children grounded.children entry.rule form 0
        split
        · exact exists_ok_bind (inside _) fun _ => ⟨_, rfl⟩
        · split
          · exact exists_ok_bind (inside _) fun _ => ⟨_, rfl⟩
          · exact exists_ok_bind (inside _) fun _ => ⟨_, rfl⟩

theorem exists_phraseAll : (trees : List Tree) → (∀ tree ∈ trees, tree.Grounded table forest) →
    (rule : Rule κ) → (form : Option Form) → (index : Nat) → (person : Option Person) →
    ∃ phrase, phraseAll table forest rule form index trees person = .ok phrase
  | [], _, _, _, _, person => ⟨([], person), by rw [phraseAll]⟩
  | first :: rest, grounded, rule, form, index, person => by
      obtain ⟨own, others⟩ := List.forall_mem_cons.1 grounded
      rw [phraseAll]
      split
      · refine exists_ok_bind (exists_phraseAll rest others ..) fun later => ?_
        exact exists_ok_bind (exists_phrase first own ..) fun _ => ⟨_, rfl⟩
      · refine exists_ok_bind (exists_phrase first own ..) fun words => ?_
        exact exists_ok_bind (exists_phraseAll rest others ..) fun _ => ⟨_, rfl⟩

end

theorem exists_phrasing {tree : Tree} (grounded : tree.Grounded table forest) :
    ∃ text, tree.phrasing table forest = .ok text :=
  exists_ok_bind (exists_phrase tree grounded none none) fun _ => ⟨_, rfl⟩

mutual

theorem exists_cost [Cost κ] : (tree : Tree) → tree.Grounded table forest →
    ∃ cost, tree.cost table = .ok cost
  | .leaf _ _, _ => ⟨0, by rw [cost]⟩
  | .branch _ _ _ children, grounded => by
      rw [cost]
      obtain ⟨entry, known, -⟩ := grounded.ruleAt
      refine exists_ok_bind ⟨entry.rule.cost, by rw [Table.costOf, known]; rfl⟩ fun own => ?_
      exact exists_ok_bind (exists_costs children grounded.children) fun _ => ⟨_, rfl⟩

theorem exists_costs [Cost κ] : (trees : List Tree) →
    (∀ tree ∈ trees, tree.Grounded table forest) → ∃ totals, costs table trees = .ok totals
  | [], _ => ⟨[], by rw [costs]⟩
  | first :: rest, grounded => by
      obtain ⟨own, others⟩ := List.forall_mem_cons.1 grounded
      rw [costs]
      refine exists_ok_bind (exists_cost first own) fun cost => ?_
      exact exists_ok_bind (exists_costs rest others) fun _ => ⟨_, rfl⟩

end

end

section

variable {table : Table Amount} {forest : Forest}

theorem exists_labelOf {node rule : Nat} {span : Span} {children : List Tree}
    (grounded : (branch node rule span children).Grounded table forest) (cost : Amount) :
    ∃ label, labelOf table rule cost = .ok label := by
  obtain ⟨entry, known, symbol⟩ := grounded.ruleAt
  simp only [labelOf, known, Table.symbolName, Fault.lookUp_of_lt symbol, bind, Except.bind]
  exact ⟨_, rfl⟩

mutual

theorem exists_labelled : (tree : Tree) → tree.Grounded table forest →
    ∃ shown, tree.labelled table forest = .ok shown
  | .leaf _ _, grounded => by
      rw [labelled]
      exact exists_ok_bind grounded.matchAt fun _ => ⟨_, rfl⟩
  | .branch _ rule _ children, grounded => by
      rw [labelled]
      refine exists_ok_bind (exists_cost _ grounded) fun cost => ?_
      refine exists_ok_bind (exists_labelOf grounded cost) fun label => ?_
      exact exists_ok_bind (exists_allLabelled children grounded.children) fun _ => ⟨_, rfl⟩

theorem exists_allLabelled : (trees : List Tree) → (∀ tree ∈ trees, tree.Grounded table forest) →
    ∃ shown, allLabelled table forest trees = .ok shown
  | [], _ => ⟨[], by rw [allLabelled]⟩
  | first :: rest, grounded => by
      obtain ⟨own, others⟩ := List.forall_mem_cons.1 grounded
      rw [allLabelled]
      refine exists_ok_bind (exists_labelled first own) fun tree => ?_
      exact exists_ok_bind (exists_allLabelled rest others) fun _ => ⟨_, rfl⟩

end

end

end Tree

/-- What an alternative refers to is there. -/
inductive Alternative.InRange (table : Table κ) (forest : Forest) : Alternative → Prop
  | terminal {rule found : Nat} {entry : IndexedRule κ} : table.rules[rule]? = some entry →
      entry.symbol < table.symbols.size → found < forest.found.size →
      InRange table forest (.terminal rule found)
  | branch {rule : Nat} {entry : IndexedRule κ} {children : List Nat} :
      table.rules[rule]? = some entry → entry.symbol < table.symbols.size →
      (∀ child ∈ children, child < forest.nodes.size) →
      InRange table forest (.branch rule children)

/-- Every reference of a forest leads somewhere, in the forest or in the table. -/
structure Forest.InRange (table : Table κ) (forest : Forest) : Prop where
  symbol : ∀ id symbol start stop, forest.Is id symbol start stop → symbol < table.symbols.size
  alternative : ∀ id alternative, forest.Has id alternative → alternative.InRange table forest

theorem Forest.Spells.grounded_of_inRange {table : Table κ} {forest : Forest} {nodes : List Nat}
    {choices : List Choice} {trees : List Tree} (inRange : forest.InRange table)
    (spells : forest.Spells nodes choices trees) :
    ∀ tree ∈ trees, tree.Grounded table forest := by
  induction spells with
  | nil => simp
  | @node id index node alternative _ _ _ parts _ found chosen _ _ ihInner ihOuter =>
      refine List.forall_mem_cons.2 ⟨?_, ihOuter⟩
      cases inRange.alternative _ _ (Forest.has_of_getElem? found chosen) with
      | terminal known symbol inside =>
          refine .branch known symbol (List.forall_mem_singleton.2 ?_)
          exact .leaf (Array.getElem?_eq_getElem inside)
      | branch known symbol => exact .branch known symbol ihInner

theorem Forest.Presents.inRange {table : Table κ} {lattice : Lattice} {forest : Forest}
    (presents : forest.Presents table lattice) : forest.InRange table where
  symbol _ _ _ _ is := (presents.node _ _ _ _ is).1
  alternative id alternative has := by
    cases alternative with
    | terminal rule index =>
        obtain ⟨hit, entry, present, -, known, is⟩ := presents.terminal _ _ _ has
        refine .terminal known (presents.node _ _ _ _ is).1 ?_
        exact presents.found ▸ (Array.getElem?_eq_some_iff.1 present).1
    | branch rule children =>
        obtain ⟨entry, start, stop, known, is, -⟩ := presents.branch _ _ _ has
        refine .branch known (presents.node _ _ _ _ is).1 fun child member => ?_
        exact presents.child_inside (Forest.child_of_has has member)

theorem Forest.Spells.grounded {table : Table κ} {lattice : Lattice} {forest : Forest}
    {nodes : List Nat} {choices : List Choice} {trees : List Tree}
    (presents : forest.Presents table lattice) (spells : forest.Spells nodes choices trees) :
    ∀ tree ∈ trees, tree.Grounded table forest :=
  spells.grounded_of_inRange presents.inRange

end QueryGrammar
