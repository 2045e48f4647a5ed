import QueryGrammar.Proofs.Parse.Exact
import QueryGrammar.Proofs.Search.Complete
import QueryGrammar.Proofs.Table.Compiled
import QueryGrammar.Proofs.Tree.Preorder
import QueryGrammar.Proofs.Tree.Swapped

namespace QueryGrammar

/-! The order in which printed trees and displayed texts go through children.

Main statement: at every branch the printed tree lists the children in the order of the input, and
the text displays them in the order of the base rule.  The two are the same just if the rule is not
swapped or there is a single child.
-/

namespace Tree

/-- A tree is a part of itself, and the parts of its children are parts of it. -/
inductive HasPart : Tree → Tree → Prop
  | whole (tree : Tree) : HasPart tree tree
  | inside {node rule : Nat} {span : Span} {children : List Tree} {child part : Tree} :
      child ∈ children → HasPart child part → HasPart (.branch node rule span children) part

variable {κ : Type} {table : Table κ} {forest : Forest} {children : List Tree}

/-- The words of trees in turn, the person in force passed on from each to the next. -/
def inTurn (table : Table κ) (forest : Forest) :
    List (Tree × Option Form) → Option Person → Except Fault Phrase
  | [], person => .ok ([], person)
  | (first, form) :: rest, person => do
      let (words, person) ← first.phrase table forest form person
      let (later, person) ← inTurn table forest rest person
      .ok (words ++ later, person)

/-- Children from position `index` on, each with the form that holds in it. -/
def formed (rule : Rule κ) (form : Option Form) (index : Nat) (children : List Tree) :
    List (Tree × Option Form) :=
  (children.zipIdx index).map fun placed => (placed.1, rule.formAt placed.2 <|> form)

/-- Children in the order of display. -/
def inDisplay (rule : Rule κ) (form : Option Form) (index : Nat) (children : List Tree) :
    List (Tree × Option Form) :=
  if rule.transposed then (formed rule form index children).reverse
  else formed rule form index children

theorem formed_cons (rule : Rule κ) (form : Option Form) (index : Nat) (first : Tree)
    (rest : List Tree) : formed rule form index (first :: rest) =
      (first, rule.formAt index <|> form) :: formed rule form (index + 1) rest :=
  rfl

theorem map_fst_formed (rule : Rule κ) (form : Option Form) (index : Nat) (children : List Tree) :
    (formed rule form index children).map Prod.fst = children := by
  rw [formed, List.map_map]
  exact List.zipIdx_map_fst index children

theorem inTurn_concat (front : List (Tree × Option Form)) (last : Tree) (form : Option Form)
    (person : Option Person) : inTurn table forest (front ++ [(last, form)]) person = (do
      let (words, person) ← inTurn table forest front person
      let (later, person) ← last.phrase table forest form person
      .ok (words ++ later, person)) := by
  induction front generalizing person with
  | nil =>
      simp only [List.nil_append, inTurn, bind, Except.bind, List.append_nil]
  | cons first rest ih =>
      simp only [List.cons_append, inTurn, ih, bind, Except.bind]
      cases first.1.phrase table forest first.2 person with
      | error fault => rfl
      | ok early =>
          simp only
          cases inTurn table forest rest early.2 with
          | error fault => rfl
          | ok middle =>
              simp only
              cases last.phrase table forest form middle.2 with
              | error fault => rfl
              | ok late => simp only [List.append_assoc]

theorem phraseAll_eq_inTurn (rule : Rule κ) (form : Option Form) (index : Nat)
    (children : List Tree) (person : Option Person) :
    phraseAll table forest rule form index children person =
      inTurn table forest (inDisplay rule form index children) person := by
  induction children generalizing index person with
  | nil => simp [phraseAll, inDisplay, formed, inTurn]
  | cons first rest ih =>
      cases swapped : rule.transposed with
      | false =>
          have others := ih (index + 1)
          simp only [inDisplay, swapped, Bool.false_eq_true, if_false] at others ⊢
          simp only [phraseAll, swapped, Bool.false_eq_true, if_false, formed_cons, inTurn, others]
      | true =>
          have others := ih (index + 1)
          simp only [inDisplay, swapped, if_true] at others ⊢
          simp only [phraseAll, swapped, if_true, formed_cons, List.reverse_cons, inTurn_concat,
            others]

/-- The words of a rule's children with those of its insertion, on the side where it was left
out. -/
def framed (insertion : Option (Insertion κ)) (form : Option Form)
    (inner : Option Person → Except Fault Phrase) (person : Option Person) :
    Except Fault Phrase :=
  match insertion with
  | none => inner person
  | some insertion =>
      if insertion.index = 0 then do
        let (inserted, person) := insertionPhrase insertion form person
        let (words, person) ← inner person
        .ok (inserted ++ words, person)
      else do
        let (words, person) ← inner person
        let (inserted, person) := insertionPhrase insertion form person
        .ok (words ++ inserted, person)

/-- A rule on symbols displays its children in turn. -/
theorem phrase_branch {node rule : Nat} {span : Span} {entry : IndexedRule κ}
    (found : table.ruleAt rule = .ok entry) (onSymbols : entry.rule.isLiteral = false)
    (form : Option Form) (person : Option Person) :
    phrase table forest (.branch node rule span children) form person = (do
      let (words, last) ← framed entry.rule.insertion form
        (inTurn table forest (inDisplay entry.rule form 0 children)) (entry.rule.person <|> person)
      .ok (words, entry.rule.person <|> last)) := by
  simp only [phrase, found, bind, Except.bind, onSymbols, Bool.false_eq_true, if_false, framed,
    phraseAll_eq_inTurn]
  cases entry.rule.insertion with
  | none => rfl
  | some insertion =>
      simp only
      split <;> cases inTurn table forest _ _ <;> rfl

theorem map_fst_inDisplay (rule : Rule κ) (form : Option Form) (children : List Tree) :
    (inDisplay rule form 0 children).map Prod.fst =
      if rule.transposed then children.reverse else children := by
  unfold inDisplay
  split
  · rw [List.map_reverse, map_fst_formed]
  · rw [map_fst_formed]

section

variable {table : Table Amount}

theorem exists_labelled_each (grounded : ∀ child ∈ children, child.Grounded table forest) :
    ∃ shown, allLabelled table forest children = .ok shown ∧
      List.Forall₂ (fun child line => child.labelled table forest = .ok line) children shown := by
  induction children with
  | nil => exact ⟨[], by rw [allLabelled], .nil⟩
  | cons first rest ih =>
      obtain ⟨own, others⟩ := List.forall_mem_cons.1 grounded
      obtain ⟨line, printed⟩ := exists_labelled first own
      obtain ⟨shown, made, each⟩ := ih others
      refine ⟨line :: shown, ?_, .cons printed each⟩
      rw [allLabelled, printed, made]
      rfl

/-- A printed branch has the printed children below it, in their order. -/
theorem exists_labelled_branch {node rule : Nat} {span : Span}
    (grounded : (branch node rule span children).Grounded table forest) :
    ∃ label shown, labelled table forest (.branch node rule span children) =
        .ok (.branch label span shown) ∧
      List.Forall₂ (fun child line => child.labelled table forest = .ok line) children shown := by
  obtain ⟨cost, priced⟩ := exists_cost _ grounded
  obtain ⟨label, named⟩ := exists_labelOf grounded cost
  obtain ⟨shown, made, each⟩ := exists_labelled_each grounded.children
  refine ⟨label, shown, ?_, each⟩
  rw [labelled, priced]
  simp only [bind, Except.bind, named, made]

end

end Tree

namespace Forest

variable {κ : Type} {table : Table κ} {lattice : Lattice} {forest : Forest} {nodes : List Nat}
  {choices : List Choice} {trees : List Tree} {tree : Tree} {root node rule : Nat} {span : Span}
  {children : List Tree}

theorem Spells.of_mem (spells : forest.Spells nodes choices trees) (member : tree ∈ trees) :
    ∃ id inner, forest.Spells [id] inner [tree] := by
  induction spells with
  | nil => cases member
  | @node id index node alternative _ _ _ parts _ found chosen inner _ _ ihOuter =>
      rcases List.mem_cons.1 member with rfl | later
      · exact ⟨id, _, spells_one.2
          ⟨node, index, alternative, _, parts, found, chosen, inner, rfl, rfl⟩⟩
      · exact ihOuter later

/-- Every branch within a tree of a forest is itself a tree of the forest. -/
theorem Spells.of_hasPart (spells : forest.Spells [root] choices [tree])
    (part : tree.HasPart (.branch node rule span children)) :
    ∃ id inner, forest.Spells [id] inner [.branch node rule span children] := by
  generalize same : Tree.branch node rule span children = whole at part
  induction part generalizing root choices with
  | whole tree => exact ⟨root, choices, spells⟩
  | inside member below ih =>
      obtain ⟨own, index, alternative, inner, parts, found, chosen, inside, -, drawn⟩ :=
        spells_one.1 spells
      cases alternative with
      | terminal rule hit =>
          cases drawn
          cases List.mem_singleton.1 member
          cases below
          cases same
      | branch rule children =>
          cases drawn
          obtain ⟨id, choices, spells⟩ := inside.of_mem member
          exact ih spells same

/-- Two children stand for different stretches, so they are not the same. -/
theorem Presents.reverse_children_iff (presents : forest.Presents table lattice)
    (spells : forest.Spells [root] choices [.branch node rule span children]) :
    children.reverse = children ↔ children.length = 1 := by
  obtain ⟨own, index, alternative, inner, parts, found, chosen, inside, -, drawn⟩ :=
    spells_one.1 spells
  cases alternative with
  | terminal rule hit =>
      cases drawn
      exact iff_of_true rfl rfl
  | branch rule nodes =>
      cases drawn
      have below : forest.Spells nodes inner children := inside
      obtain ⟨entry, start, stop, -, -, covers⟩ :=
        presents.branch _ _ _ (has_of_getElem? found chosen)
      generalize entry.slots = slots at covers
      cases covers with
      | single =>
          obtain - | ⟨-, -, -, last⟩ := below
          cases last
          exact iff_of_true rfl rfl
      | @pair _ _ left right start middle stop isLeft isRight =>
          obtain - | ⟨-, -, -, later⟩ := below
          obtain - | ⟨-, -, -, last⟩ := later
          cases last
          refine iff_of_false (fun same => ?_) (by simp)
          obtain ⟨same, -⟩ := List.cons.inj same
          have alike : right = left := by simpa using congrArg Tree.node? same
          obtain ⟨-, begins, -⟩ := isLeft.same (alike ▸ isRight)
          exact absurd begins (presents.node _ _ _ _ isLeft).2.1.ne

/-- At every branch of a derivation the printed tree lists the children in the order of the input,
while the text goes through them in the order of the base rule, last first if the rule is swapped.
The orders are the same just if the rule is not swapped or there is a single child. -/
theorem parts_displayed {grammar : Grammar Amount} {table : Table Amount} {gazetteer : Gazetteer}
    {query : String} (compiled : Table.compile grammar = .ok table)
    (read : Lattice.ofQuery table gazetteer query = .ok lattice)
    (made : ofLattice table lattice = .ok (.ok forest)) (drawn : tree ∈ forest.trees root)
    (part : tree.HasPart (.branch node rule span children)) :
    ∃ entry label shown, table.ruleAt rule = .ok entry ∧
      Tree.labelled table forest (.branch node rule span children) =
        .ok (.branch label span shown) ∧
      List.Forall₂ (fun child line => child.labelled table forest = .ok line) children shown ∧
      ∀ form, (entry.rule.isLiteral = false → ∀ person, ∃ words last,
          Tree.framed entry.rule.insertion form
            (Tree.inTurn table forest (Tree.inDisplay entry.rule form 0 children))
            (entry.rule.person <|> person) = .ok (words, last) ∧
          Tree.phrase table forest (.branch node rule span children) form person =
            .ok (words, entry.rule.person <|> last)) ∧
        (Tree.inDisplay entry.rule form 0 children).map Prod.fst =
          (if entry.rule.transposed then children.reverse else children) ∧
        ((Tree.inDisplay entry.rule form 0 children).map Prod.fst = children ↔
          entry.rule.transposed = false ∨ children.length = 1) := by
  obtain ⟨kernels, automaton⟩ := Table.compile_compiled compiled
  rcases ofLattice_spec automaton (Lattice.ofQuery_spanning read) with
    ⟨_, _, madeAgain, presents, -⟩ | ⟨failed, -⟩
  · cases made.symm.trans madeAgain
    obtain ⟨choices, whole⟩ := drawn
    obtain ⟨id, inner, spells⟩ := whole.of_hasPart part
    have grounded := spells.grounded presents _ (List.mem_singleton_self _)
    obtain ⟨label, shown, printed, each⟩ := Tree.exists_labelled_branch grounded
    obtain ⟨entry, found, -⟩ := grounded.ruleAt
    refine ⟨entry, label, shown, found, printed, each, fun form =>
      ⟨fun onSymbols person => ?_, Tree.map_fst_inDisplay .., ?_⟩⟩
    · obtain ⟨phrase, displayed⟩ := Tree.exists_phrase _ grounded form person
      rw [Tree.phrase_branch found onSymbols] at displayed ⊢
      generalize Tree.framed _ _ _ _ = inner at displayed ⊢
      obtain fault | ⟨words, last⟩ := inner
      · cases displayed
      · exact ⟨words, last, rfl, rfl⟩
    · rw [Tree.map_fst_inDisplay]
      cases entry.rule.transposed with
      | false => simp
      | true => simpa using presents.reverse_children_iff spells
  · rw [failed] at made
    cases made

/-- An object before its verb, by the rule that swaps the two. -/
def swappedRequest : Tree :=
  .branch 2 2 ⟨0, 2⟩ [.branch 0 0 ⟨0, 1⟩ [.leaf 0 ⟨0, 1⟩], .branch 1 3 ⟨1, 2⟩ [.leaf 1 ⟨1, 2⟩]]

set_option maxRecDepth 100000 in
theorem exists_swappedRequest : ∃ table lattice forest entry shown,
    Table.compile Grammar.request = .ok table ∧
    Lattice.ofQuery table .empty "cats see" = .ok lattice ∧
    ofLattice table lattice = .ok (.ok forest) ∧ swappedRequest ∈ forest.trees 2 ∧
    table.ruleAt 2 = .ok entry ∧ entry.rule.transposed = true ∧
    swappedRequest.phrasing table forest = .ok "see cats" ∧
    swappedRequest.labelled table forest = .ok shown ∧
    shown.text =
      "(0..2: S (1) transposed\n  (0..1: O (0) (0..1: cats))\n  (1..2: V (0) (1..2: see)))" := by
  have parses : ((Table.compile Grammar.request).toOption.any fun table =>
      (Lattice.ofQuery table .empty "cats see").toOption.any fun lattice =>
      (ofLattice table lattice).toOption.any fun outcome => outcome.toOption.any fun forest =>
        decide (forest.nodes = #[⟨0, 0, 1, [.terminal 0 0]⟩, ⟨2, 1, 2, [.terminal 3 1]⟩,
          ⟨1, 0, 2, [.branch 2 [0, 1]]⟩]) &&
        ((table.ruleAt 2).toOption.any fun entry => entry.rule.transposed) &&
        ((swappedRequest.phrasing table forest).toOption.any fun text => text == "see cats") &&
        (swappedRequest.labelled table forest).toOption.any fun shown => shown.text ==
          "(0..2: S (1) transposed\n  (0..1: O (0) (0..1: cats))\n  (1..2: V (0) (1..2: see)))") =
      true := by
    decide +kernel
  obtain ⟨table, compiled, reads⟩ := exists_ok_of_any parses
  obtain ⟨lattice, read, parsed⟩ := exists_ok_of_any reads
  obtain ⟨outcome, made, known⟩ := exists_ok_of_any parsed
  obtain ⟨forest, rfl, facts⟩ := exists_ok_of_any known
  simp only [Bool.and_eq_true, decide_eq_true_eq] at facts
  obtain ⟨⟨⟨nodes, rules⟩, displays⟩, prints⟩ := facts
  obtain ⟨entry, found, swapped⟩ := exists_ok_of_any rules
  obtain ⟨text, phrasing, same⟩ := exists_ok_of_any displays
  obtain ⟨shown, labelled, printed⟩ := exists_ok_of_any prints
  obtain rfl := eq_of_beq same
  have object : forest.nodes[0]? = some ⟨0, 0, 1, [.terminal 0 0]⟩ := by rw [nodes]; rfl
  have verb : forest.nodes[1]? = some ⟨2, 1, 2, [.terminal 3 1]⟩ := by rw [nodes]; rfl
  have whole : forest.nodes[2]? = some ⟨1, 0, 2, [.branch 2 [0, 1]]⟩ := by rw [nodes]; rfl
  have left : forest.Spells [0] [(0, 0)] [.branch 0 0 ⟨0, 1⟩ [.leaf 0 ⟨0, 1⟩]] :=
    spells_one.2 ⟨_, 0, .terminal 0 0, [], [], object, rfl, .nil, rfl, rfl⟩
  have right : forest.Spells [1] [(1, 0)] [.branch 1 3 ⟨1, 2⟩ [.leaf 1 ⟨1, 2⟩]] :=
    spells_one.2 ⟨_, 0, .terminal 3 1, [], [], verb, rfl, .nil, rfl, rfl⟩
  have spells : forest.Spells [2] [(2, 0), (0, 0), (1, 0)] [swappedRequest] :=
    spells_one.2 ⟨_, 0, .branch 2 [0, 1], _, _, whole, rfl, left.append right, rfl, rfl⟩
  exact ⟨table, lattice, forest, entry, shown, compiled, read, made, ⟨_, spells⟩, found, swapped,
    phrasing, labelled, eq_of_beq printed⟩

theorem parts_displayed_swapped : ∃ table lattice forest entry,
    Table.compile Grammar.request = .ok table ∧
    Lattice.ofQuery table .empty "cats see" = .ok lattice ∧
    ofLattice table lattice = .ok (.ok forest) ∧ swappedRequest ∈ forest.trees 2 ∧
    swappedRequest.HasPart swappedRequest ∧ table.ruleAt 2 = .ok entry ∧
    (Tree.inDisplay entry.rule none 0
        [.branch 0 0 ⟨0, 1⟩ [.leaf 0 ⟨0, 1⟩], .branch 1 3 ⟨1, 2⟩ [.leaf 1 ⟨1, 2⟩]]).map Prod.fst =
      [.branch 1 3 ⟨1, 2⟩ [.leaf 1 ⟨1, 2⟩], .branch 0 0 ⟨0, 1⟩ [.leaf 0 ⟨0, 1⟩]] := by
  obtain ⟨table, lattice, forest, entry, -, compiled, read, made, drawn, found, swapped, -⟩ :=
    exists_swappedRequest
  obtain ⟨own, -, -, same, -, -, orders⟩ :=
    parts_displayed compiled read made drawn (.whole swappedRequest)
  cases found.symm.trans same
  obtain ⟨-, order, -⟩ := orders none
  rw [swapped] at order
  exact ⟨table, lattice, forest, entry, compiled, read, made, drawn, .whole _, found, order⟩

/-- The printed tree of a swapped derivation lists last what the text displays first. -/
theorem labelled_against_phrasing : ∃ table lattice forest shown,
    Table.compile Grammar.request = .ok table ∧
    Lattice.ofQuery table .empty "cats see" = .ok lattice ∧
    ofLattice table lattice = .ok (.ok forest) ∧ swappedRequest ∈ forest.trees 2 ∧
    swappedRequest.phrasing table forest = .ok "see cats" ∧
    swappedRequest.labelled table forest = .ok shown ∧
    shown.text =
      "(0..2: S (1) transposed\n  (0..1: O (0) (0..1: cats))\n  (1..2: V (0) (1..2: see)))" := by
  obtain ⟨table, lattice, forest, -, shown, compiled, read, made, drawn, -, -, displays, prints⟩ :=
    exists_swappedRequest
  exact ⟨table, lattice, forest, shown, compiled, read, made, drawn, displays, prints⟩

end Forest

end QueryGrammar
