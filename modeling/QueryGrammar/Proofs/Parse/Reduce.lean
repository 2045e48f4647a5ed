import QueryGrammar.Proofs.Parse.Step

namespace QueryGrammar

/-! What the operations of recognition do, as steps: advancing, and following rules back.

Main statement: a vertex is reduced along a link without a fault, and everything its rules derive
over a way back is there afterwards.
-/

namespace Stack

variable {κ : Type} {table : Table κ} {lattice : Lattice} {stack after : Stack}
  {vertex source origin : Vertex} {link : Link} {low symbol stop length : Nat}
  {alternative : Alternative} {children : List Nat}

/-- An alternative that was recorded, its node followed where it leads. -/
def Over (table : Table κ) (stack : Stack) (symbol : Nat) (origin : Vertex) (stop : Nat)
    (alternative : Alternative) : Prop :=
  ∃ id, stack.forest.Is id symbol origin.position stop ∧ stack.forest.Has id alternative ∧
    ∀ target, table.shift origin.state symbol = .ok (some target) →
      stack.HasLink ⟨target, stop⟩ ⟨id, origin⟩

/-- All that rules derive at a vertex over the ways back along a link. -/
def Completed (table : Table κ) (stack : Stack) (vertex : Vertex) (link : Link)
    (rules : List Nat) : Prop :=
  ∀ rule ∈ rules, ∀ entry, table.rules[rule]? = some entry → ∀ origin children,
    stack.Path link entry.slots.length origin children →
      stack.Over table entry.symbol origin vertex.position (.branch rule children)

def Reduced (table : Table κ) (stack : Stack) (vertex : Vertex) (link : Link) : Prop :=
  ∀ state, table.states[vertex.state]? = some state →
    stack.Completed table vertex link state.reductions

theorem Over.mono (hit : stack.Over table symbol origin stop alternative)
    (extended : stack.Extends low after) : after.Over table symbol origin stop alternative := by
  obtain ⟨id, is, has, leads⟩ := hit
  exact ⟨id, extended.is _ _ _ _ is, extended.has _ _ has,
    fun target shifted => extended.link _ _ (leads target shifted)⟩

theorem Path.mono (path : stack.Path link length origin children)
    (extended : stack.Extends low after) : after.Path link length origin children := by
  cases path with
  | single => exact .single
  | pair before => exact .pair (extended.link _ _ before)

theorem Path.of_extends (path : after.Path link length origin children)
    (extended : stack.Extends low after) (below : link.source.position < low) :
    stack.Path link length origin children := by
  cases path with
  | single => exact .single
  | pair before => exact .pair ((extended.hasLink_iff below).1 before)

/-- What starts before the links that are made later stays completed. -/
theorem Completed.mono {rules : List Nat} (completed : stack.Completed table vertex link rules)
    (extended : stack.Extends low after) (below : link.source.position < low) :
    after.Completed table vertex link rules :=
  fun rule member entry found _ _ path =>
    (completed rule member entry found _ _ (path.of_extends extended below)).mono extended

theorem Reduced.mono (reduced : stack.Reduced table vertex link)
    (extended : stack.Extends low after) (below : link.source.position < low) :
    after.Reduced table vertex link :=
  fun state found => (reduced state found).mono extended below

theorem linksOf_spec (consistent : stack.Consistent table lattice)
    (known : stack.HasVertex vertex) : ∃ links, stack.linksOf vertex = .ok links ∧
      ∀ link, link ∈ links ↔ stack.HasLink vertex link := by
  obtain ⟨column, found, member⟩ := known
  have tidy := consistent.tidy _ _ found
  obtain ⟨links, listed⟩ := tidy.exists_linksOf? member
  refine ⟨links, ?_, fun link => ?_⟩
  · simp [linksOf, columnAt, Fault.lookUp, found, listed, bind, Except.bind]
  · rw [tidy.mem_of_linksOf? listed]
    simp [HasLink, found]

theorem paths_spec (consistent : stack.Consistent table lattice) (has : stack.HasLink vertex link)
    (length : Nat) :
    ∃ found, stack.paths length link = .ok found ∧
      ∀ origin children, (origin, children) ∈ found ↔ stack.Path link length origin children := by
  unfold paths
  split
  · refine ⟨_, rfl, fun origin children => ?_⟩
    rw [List.mem_singleton, Prod.mk.injEq]
    constructor
    · intro given
      obtain ⟨rfl, rfl⟩ := given
      exact .single
    · intro given
      cases given
      exact ⟨rfl, rfl⟩
  · obtain ⟨links, found, mem⟩ := linksOf_spec consistent (consistent.link _ _ has).1
    refine ⟨_, by simp only [found, bind, Except.bind]; rfl, fun origin children => ?_⟩
    simp only [List.mem_map, Prod.mk.injEq]
    constructor
    · intro given
      obtain ⟨before, member, rfl, rfl⟩ := given
      exact .pair ((mem before).1 member)
    · intro given
      cases given
      rename_i before known
      exact ⟨before, (mem before).2 known, rfl, rfl⟩
  · rename_i notOne notTwo
    refine ⟨[], rfl, fun origin children => ⟨by simp, ?_⟩⟩
    intro given
    cases given
    · exact absurd rfl notOne
    · exact absurd rfl notTwo

section

variable (inRange : table.InRange) (spanning : lattice.Spanning)
include inRange

theorem advance_spec {id : Nat} (consistent : stack.Consistent table lattice)
    (known : stack.HasVertex source) (is : stack.forest.Is id symbol source.position stop)
    (beyond : low ≤ stop) :
    ∃ after, advance table stack source id = .ok after ∧ Steps table lattice low stack after ∧
      ∀ target, table.shift source.state symbol = .ok (some target) →
        after.HasLink ⟨target, stop⟩ ⟨id, source⟩ := by
  have given := is
  obtain ⟨node, found, rfl, starts, rfl⟩ := given
  obtain ⟨next, shifted, -⟩ := inRange.shift_ok (consistent.vertex _ known) node.symbol
  have node_ok : stack.forest.nodeAt id = .ok node := by
    simp [Forest.nodeAt, Fault.lookUp, found]
  cases next with
  | none =>
      refine ⟨stack, ?_, .refl, fun target other => ?_⟩
      · simp only [advance, node_ok, shifted, bind, Except.bind]
      · rw [shifted] at other
        cases other
  | some target =>
      have inside : node.stop < stack.columns.size := by
        rw [consistent.size]
        exact Nat.lt_succ_of_le (consistent.node _ _ _ _ is).2.2
      have column := Array.getElem?_eq_getElem inside
      refine ⟨_, ?_, .single (.link known is beyond shifted column), fun other also => ?_⟩
      · simp only [advance, node_ok, shifted, columnAt, Fault.lookUp, column, bind, Except.bind]
      · rw [shifted] at also
        cases also
        exact (hasLink_link column (consistent.tidy _ _ column)).2 (.inl ⟨rfl, rfl⟩)

include spanning

theorem completePaths_spec {state : State} {rule : Nat} {entry : IndexedRule κ}
    {paths : List (Vertex × List Nat)} (consistent : stack.Consistent table lattice)
    (has : stack.HasLink vertex link) (present : table.states[vertex.state]? = some state)
    (reduces : rule ∈ state.reductions) (known : table.rules[rule]? = some entry)
    (arePaths : ∀ origin children, (origin, children) ∈ paths →
      stack.Path link entry.slots.length origin children) :
    ∃ after, completePaths table rule entry.symbol vertex.position paths stack = .ok after ∧
      Steps table lattice vertex.position stack after ∧
      ∀ origin children, (origin, children) ∈ paths →
        after.Over table entry.symbol origin vertex.position (.branch rule children) := by
  induction paths generalizing stack with
  | nil => exact ⟨stack, rfl, .refl, by simp⟩
  | cons first rest ih =>
      obtain ⟨origin, children⟩ := first
      have path := arePaths origin children (List.mem_cons_self ..)
      obtain ⟨new, forest, added, recorded⟩ := Forest.record_spec consistent.packed
        entry.symbol origin.position vertex.position (.branch rule children)
      rcases ensured : stack.forest.ensure entry.symbol origin.position vertex.position
        with ⟨id, grown⟩
      rw [ensured] at added recorded
      have record : Step table lattice vertex.position stack { stack with forest } :=
        .record (.branch has present reduces known path) recorded
      have afterRecord := record.consistent inRange spanning consistent
      obtain ⟨next, advanced, moved, leads⟩ := advance_spec inRange
        afterRecord (consistent.origin_before has path).1 recorded.is (Nat.le_refl _)
      have steps : Steps table lattice vertex.position stack next := .head record moved
      obtain ⟨nextConsistent, extended⟩ := Steps.spec inRange spanning consistent steps
      obtain ⟨last, completed, more, others⟩ := ih nextConsistent (extended.link _ _ has)
        fun origin children member =>
          (arePaths origin children (List.mem_cons_of_mem _ member)).mono extended
      have onward := (Steps.spec inRange spanning nextConsistent more).2
      have done : next.Over table entry.symbol origin vertex.position (.branch rule children) := by
        have further := (Steps.spec inRange spanning afterRecord moved).2
        exact ⟨id, further.is _ _ _ _ recorded.is, further.has _ _ recorded.has, leads⟩
      refine ⟨last, ?_, steps.trans more, fun other parts member => ?_⟩
      · simp only [completePaths, ensured, added, advanced, bind, Except.bind]
        exact completed
      · rcases List.mem_cons.1 member with same | member
        · cases same
          exact done.mono onward
        · exact others other parts member

theorem completeRules_spec {state : State} {rules : List Nat}
    (consistent : stack.Consistent table lattice) (has : stack.HasLink vertex link)
    (present : table.states[vertex.state]? = some state)
    (reduce : ∀ rule ∈ rules, rule ∈ state.reductions) :
    ∃ after, completeRules table vertex.position link rules stack = .ok after ∧
      Steps table lattice vertex.position stack after ∧ after.Completed table vertex link rules := by
  induction rules generalizing stack with
  | nil => exact ⟨stack, rfl, .refl, fun rule member => absurd member (List.not_mem_nil)⟩
  | cons rule rest ih =>
      have reduces := reduce rule (List.mem_cons_self ..)
      have inside := inRange.reduction _ _ present rule reduces
      have known := Array.getElem?_eq_getElem inside
      obtain ⟨paths, found, mem⟩ := paths_spec consistent has
        table.rules[rule].slots.length
      obtain ⟨next, completed, steps, hit⟩ := completePaths_spec inRange spanning consistent has
        present reduces known fun origin children => (mem origin children).1
      obtain ⟨nextConsistent, extended⟩ := Steps.spec inRange spanning consistent steps
      obtain ⟨last, others, more, rest⟩ := ih nextConsistent (extended.link _ _ has)
        fun rule member => reduce rule (List.mem_cons_of_mem _ member)
      have onward := (Steps.spec inRange spanning nextConsistent more).2
      have before := consistent.source_before has
      refine ⟨last, ?_, steps.trans more, fun other member entry entryFound origin children path => ?_⟩
      · simp only [completeRules, Table.ruleAt, Fault.lookUp, known, found, completed, bind,
          Except.bind]
        exact others
      · rcases List.mem_cons.1 member with rfl | member
        · cases known.symm.trans entryFound
          have given := path.of_extends (extended.trans onward) before
          exact (hit origin children ((mem origin children).2 given)).mono onward
        · exact rest other member entry entryFound origin children path

theorem reduce_spec (consistent : stack.Consistent table lattice) (has : stack.HasLink vertex link) :
    ∃ after, reduce table stack vertex link = .ok after ∧
      Steps table lattice vertex.position stack after ∧ after.Reduced table vertex link := by
  have present := Array.getElem?_eq_getElem (consistent.vertex _ has.hasVertex)
  obtain ⟨after, completed, steps, done⟩ := completeRules_spec inRange spanning consistent has
    present fun _ member => member
  refine ⟨after, ?_, steps, fun state found => ?_⟩
  · simp only [reduce, Table.stateAt, Fault.lookUp, present, bind, Except.bind]
    exact completed
  · cases present.symm.trans found
    exact done

end

end Stack

end QueryGrammar
