import Mathlib.Logic.Relation
import QueryGrammar.Proofs.Forest.Record
import QueryGrammar.Proofs.Parse.Column
import QueryGrammar.Proofs.Table.Recognition

namespace QueryGrammar

/-! Single steps of recognition, apart from the order in which they are taken.

A step records an alternative for which there is a warrant, or makes a link over a node.  Taking a
link from those that wait changes nothing else.  What every step preserves holds of all stacks.
-/

/-- Matches go forward, and lie within the tokens. -/
def Lattice.Spanning (lattice : Lattice) : Prop :=
  ∀ hit ∈ lattice.found, hit.start < hit.stop ∧ hit.stop ≤ lattice.length

namespace Stack

variable {κ : Type} {table : Table κ} {lattice : Lattice} {stack after : Stack}
  {vertex source : Vertex} {link : Link} {low symbol start stop : Nat} {alternative : Alternative}

def HasVertex (stack : Stack) (vertex : Vertex) : Prop :=
  ∃ column, stack.columns[vertex.position]? = some column ∧ vertex.state ∈ column.states

def HasLink (stack : Stack) (vertex : Vertex) (link : Link) : Prop :=
  ∃ column, stack.columns[vertex.position]? = some column ∧
    (vertex.state, link) ∈ column.allLinks

def Waits (stack : Stack) (vertex : Vertex) (link : Link) : Prop :=
  ∃ column, stack.columns[vertex.position]? = some column ∧ (vertex.state, link) ∈ column.waiting

/-- A way back along a link. -/
inductive Path (stack : Stack) (link : Link) : Nat → Vertex → List Nat → Prop
  | single : stack.Path link 1 link.source [link.node]
  | pair {before : Link} : stack.HasLink link.source before →
      stack.Path link 2 before.source [before.node, link.node]

/-- What entitles a symbol to an alternative over a stretch. -/
inductive Warrants (table : Table κ) (lattice : Lattice) (stack : Stack) :
    Nat → Nat → Nat → Alternative → Prop
  | literal {rule found : Nat} {hit : Match} {entry : IndexedRule κ} :
      lattice.found[found]? = some hit → rule ∈ table.literalRules hit.literal →
      table.rules[rule]? = some entry →
      Warrants table lattice stack entry.symbol hit.start hit.stop (.terminal rule found)
  | branch {vertex origin : Vertex} {link : Link} {state : State} {rule : Nat}
      {entry : IndexedRule κ} {children : List Nat} :
      stack.HasLink vertex link → table.states[vertex.state]? = some state →
      rule ∈ state.reductions → table.rules[rule]? = some entry →
      stack.Path link entry.slots.length origin children →
      Warrants table lattice stack entry.symbol origin.position vertex.position
        (.branch rule children)

/-- A step that makes no link before `low`. -/
inductive Step (table : Table κ) (lattice : Lattice) (low : Nat) (stack : Stack) : Stack → Prop
  | record {forest : Forest} {id symbol start stop : Nat} {alternative : Alternative} :
      Warrants table lattice stack symbol start stop alternative →
      Forest.Recorded stack.forest forest id symbol start stop alternative →
      Step table lattice low stack { stack with forest }
  | link {source : Vertex} {id symbol stop target : Nat} {column : Column} :
      stack.HasVertex source → stack.forest.Is id symbol source.position stop → low ≤ stop →
      table.shift source.state symbol = .ok (some target) →
      stack.columns[stop]? = some column →
      Step table lattice low stack (stack.setColumn stop (column.link target ⟨id, source⟩))

abbrev Steps (table : Table κ) (lattice : Lattice) (low : Nat) : Stack → Stack → Prop :=
  Relation.ReflTransGen (Step table lattice low)

/-- A step, or taking a link from those that wait. -/
inductive Move (table : Table κ) (lattice : Lattice) (low : Nat) (stack : Stack) : Stack → Prop
  | step {after : Stack} : Step table lattice low stack after → Move table lattice low stack after
  | take {position : Nat} {column : Column} {first : Nat × Link} {waiting : List (Nat × Link)} :
      low ≤ position → stack.columns[position]? = some column →
      column.waiting = first :: waiting →
      Move table lattice low stack (stack.setColumn position { column with waiting })

abbrev Moves (table : Table κ) (lattice : Lattice) (low : Nat) : Stack → Stack → Prop :=
  Relation.ReflTransGen (Move table lattice low)

/-- What holds of every stack. -/
structure Consistent (table : Table κ) (lattice : Lattice) (stack : Stack) : Prop where
  size : stack.columns.size = lattice.length + 1
  tidy : ∀ (position : Nat) column, stack.columns[position]? = some column → column.Tidy
  packed : stack.forest.Packed
  found : stack.forest.found = lattice.found
  node : ∀ id symbol start stop, stack.forest.Is id symbol start stop →
    symbol < table.symbols.size ∧ start < stop ∧ stop ≤ lattice.length
  vertex : ∀ vertex, stack.HasVertex vertex → vertex.state < table.states.size
  link : ∀ vertex link, stack.HasLink vertex link → stack.HasVertex link.source ∧
    ∃ symbol, stack.forest.Is link.node symbol link.source.position vertex.position ∧
      table.shift link.source.state symbol = .ok (some vertex.state)

/-- What stays when links are made from `low` on. -/
structure Extends (low : Nat) (stack after : Stack) : Prop where
  is : ∀ id symbol start stop, stack.forest.Is id symbol start stop →
    after.forest.Is id symbol start stop
  has : ∀ id alternative, stack.forest.Has id alternative → after.forest.Has id alternative
  vertex : ∀ vertex, stack.HasVertex vertex → after.HasVertex vertex
  link : ∀ vertex link, stack.HasLink vertex link → after.HasLink vertex link
  below : ∀ position < low, after.columns[position]? = stack.columns[position]?

theorem Extends.refl : stack.Extends low stack :=
  ⟨fun _ _ _ _ is => is, fun _ _ has => has, fun _ vertex => vertex, fun _ _ link => link,
    fun _ _ => rfl⟩

theorem Extends.trans {last : Stack} (first : stack.Extends low after)
    (second : after.Extends low last) : stack.Extends low last where
  is _ _ _ _ is := second.is _ _ _ _ (first.is _ _ _ _ is)
  has _ _ has := second.has _ _ (first.has _ _ has)
  vertex _ before := second.vertex _ (first.vertex _ before)
  link _ _ before := second.link _ _ (first.link _ _ before)
  below position less := (second.below position less).trans (first.below position less)

theorem Extends.mono {high : Nat} (extended : stack.Extends high after) (less : low ≤ high) :
    stack.Extends low after :=
  { extended with
    below := fun position below => extended.below position (Nat.lt_of_lt_of_le below less) }

theorem Extends.hasVertex_iff (extended : stack.Extends low after) (below : vertex.position < low) :
    after.HasVertex vertex ↔ stack.HasVertex vertex := by
  unfold HasVertex
  rw [extended.below _ below]

theorem Extends.hasLink_iff (extended : stack.Extends low after) (below : vertex.position < low) :
    after.HasLink vertex link ↔ stack.HasLink vertex link := by
  unfold HasLink
  rw [extended.below _ below]

theorem getElem?_setColumn {position other : Nat} {column new : Column}
    (found : stack.columns[position]? = some column) :
    (stack.setColumn position new).columns[other]? =
      if other = position then some new else stack.columns[other]? := by
  have inside := (Array.getElem?_eq_some_iff.1 found).1
  unfold setColumn
  simp only [Array.getElem?_setIfInBounds, inside, if_true, eq_comm (a := position)]

theorem HasLink.hasVertex (has : stack.HasLink vertex link) : stack.HasVertex vertex := by
  obtain ⟨column, found, member⟩ := has
  exact ⟨column, found, Column.mem_states_of_mem_allLinks member⟩

section

variable {position target : Nat} {column new : Column}
  (found : stack.columns[position]? = some column)
include found

theorem hasVertex_setColumn : (stack.setColumn position new).HasVertex vertex ↔
    vertex.position = position ∧ vertex.state ∈ new.states ∨
      vertex.position ≠ position ∧ stack.HasVertex vertex := by
  unfold HasVertex
  rw [getElem?_setColumn found]
  by_cases here : vertex.position = position <;> simp [here]

theorem hasLink_setColumn : (stack.setColumn position new).HasLink vertex link ↔
    vertex.position = position ∧ (vertex.state, link) ∈ new.allLinks ∨
      vertex.position ≠ position ∧ stack.HasLink vertex link := by
  unfold HasLink
  rw [getElem?_setColumn found]
  by_cases here : vertex.position = position <;> simp [here]

theorem hasVertex_link (tidy : column.Tidy) :
    (stack.setColumn position (column.link target link)).HasVertex vertex ↔
      vertex = ⟨target, position⟩ ∨ stack.HasVertex vertex := by
  rw [hasVertex_setColumn found, Column.mem_link_states tidy]
  obtain ⟨state, index⟩ := vertex
  by_cases here : index = position
  · subst here
    simp [HasVertex, found]
  · simp [here]

theorem hasLink_link {made : Link} (tidy : column.Tidy) :
    (stack.setColumn position (column.link target made)).HasLink vertex link ↔
      (vertex = ⟨target, position⟩ ∧ link = made) ∨ stack.HasLink vertex link := by
  rw [hasLink_setColumn found, Column.mem_link tidy]
  obtain ⟨state, index⟩ := vertex
  by_cases here : index = position
  · subst here
    simp [HasLink, found]
  · simp [here]

theorem hasVertex_take {waiting : List (Nat × Link)} :
    (stack.setColumn position { column with waiting }).HasVertex vertex ↔
      stack.HasVertex vertex := by
  rw [hasVertex_setColumn found]
  by_cases here : vertex.position = position
  · simp [HasVertex, here, found, Column.states]
  · simp [here]

theorem hasLink_take {waiting : List (Nat × Link)} :
    (stack.setColumn position { column with waiting }).HasLink vertex link ↔
      stack.HasLink vertex link := by
  rw [hasLink_setColumn found]
  by_cases here : vertex.position = position
  · simp [HasLink, here, found, Column.allLinks]
  · simp [here]

end

theorem Step.mono {high : Nat} (step : Step table lattice high stack after) (less : low ≤ high) :
    Step table lattice low stack after := by
  cases step with
  | record warrant recorded => exact .record warrant recorded
  | link known is beyond shifted found =>
      exact .link known is (Nat.le_trans less beyond) shifted found

theorem Moves.mono {high : Nat} (moves : Moves table lattice high stack after)
    (less : low ≤ high) : Moves table lattice low stack after := by
  refine Relation.ReflTransGen.mono (fun _ _ move => ?_) _ _ moves
  cases move with
  | step step => exact .step (step.mono less)
  | take beyond found taken => exact .take (Nat.le_trans less beyond) found taken

/-! What steps preserve. -/

theorem Consistent.source_before (consistent : stack.Consistent table lattice)
    (has : stack.HasLink vertex link) : link.source.position < vertex.position := by
  obtain ⟨-, symbol, is, -⟩ := consistent.link _ _ has
  exact (consistent.node _ _ _ _ is).2.1

theorem Consistent.inside (consistent : stack.Consistent table lattice)
    (has : stack.HasLink vertex link) : vertex.position ≤ lattice.length := by
  obtain ⟨-, symbol, is, -⟩ := consistent.link _ _ has
  exact (consistent.node _ _ _ _ is).2.2

theorem Consistent.origin_before {length : Nat} {origin : Vertex} {children : List Nat}
    (consistent : stack.Consistent table lattice) (has : stack.HasLink vertex link)
    (path : stack.Path link length origin children) :
    stack.HasVertex origin ∧ origin.position < vertex.position := by
  have before := consistent.source_before has
  cases path with
  | single => exact ⟨(consistent.link _ _ has).1, before⟩
  | pair first =>
      exact ⟨(consistent.link _ _ first).1,
        Nat.lt_trans (consistent.source_before first) before⟩

theorem Consistent.warranted (consistent : stack.Consistent table lattice)
    (inRange : table.InRange) (spanning : lattice.Spanning)
    (warrant : Warrants table lattice stack symbol start stop alternative) :
    symbol < table.symbols.size ∧ start < stop ∧ stop ≤ lattice.length := by
  cases warrant with
  | literal found listed entry =>
      exact ⟨inRange.symbol _ _ entry, spanning _ (Array.mem_of_getElem? found)⟩
  | branch has state reduces entry path =>
      exact ⟨inRange.symbol _ _ entry, (consistent.origin_before has path).2,
        consistent.inside has⟩

theorem Step.extends (consistent : stack.Consistent table lattice)
    (step : Step table lattice low stack after) : stack.Extends low after := by
  cases step with
  | record warrant recorded =>
      exact ⟨fun _ _ _ _ is => (recorded.is_iff ..).2 (.inl is),
        fun _ _ has => (recorded.has_iff ..).2 (.inl has), fun _ vertex => vertex,
        fun _ _ link => link, fun _ _ => rfl⟩
  | link vertex is beyond shifted found =>
      have tidy := consistent.tidy _ _ found
      refine ⟨fun _ _ _ _ is => is, fun _ _ has => has,
        fun _ before => (hasVertex_link found tidy).2 (.inr before),
        fun _ _ before => (hasLink_link found tidy).2 (.inr before), fun position below => ?_⟩
      rw [getElem?_setColumn found, if_neg (by omega)]

theorem Step.consistent (inRange : table.InRange) (spanning : lattice.Spanning)
    (consistent : stack.Consistent table lattice) (step : Step table lattice low stack after) :
    after.Consistent table lattice := by
  have extended := step.extends consistent
  cases step with
  | record warrant recorded =>
      refine { consistent with
        packed := recorded.packed
        found := recorded.found.trans consistent.found
        node := fun id symbol start stop is => ?_
        link := fun vertex link has => ?_ }
      · rcases (recorded.is_iff ..).1 is with before | ⟨rfl, rfl, rfl, rfl⟩
        · exact consistent.node _ _ _ _ before
        · exact consistent.warranted inRange spanning warrant
      · obtain ⟨known, symbol, is, shifted⟩ := consistent.link vertex link has
        exact ⟨known, symbol, extended.is _ _ _ _ is, shifted⟩
  | link known is beyond shifted found =>
      have tidy := consistent.tidy _ _ found
      refine { consistent with
        size := by simpa [setColumn] using consistent.size
        tidy := fun position column present => ?_
        vertex := fun vertex has => ?_
        link := fun vertex link has => ?_ }
      · rw [getElem?_setColumn found] at present
        split at present
        · cases present
          exact Column.tidy_link tidy
        · exact consistent.tidy _ _ present
      · rcases (hasVertex_link found tidy).1 has with rfl | before
        · obtain ⟨state, present, leads⟩ := Table.shift_eq_ok_iff.1 shifted
          exact inRange.target _ _ present _ _ leads
        · exact consistent.vertex _ before
      · rcases (hasLink_link found tidy).1 has with ⟨rfl, rfl⟩ | before
        · exact ⟨extended.vertex _ known, _, is, shifted⟩
        · obtain ⟨known, symbol, is, shifted⟩ := consistent.link vertex link before
          exact ⟨extended.vertex _ known, symbol, is, shifted⟩

theorem Step.column {position : Nat} {column : Column}
    (consistent : stack.Consistent table lattice) (step : Step table lattice low stack after)
    (found : stack.columns[position]? = some column) :
    ∃ grown, after.columns[position]? = some grown ∧ column.Grows grown := by
  cases step with
  | record warrant recorded => exact ⟨column, found, .refl⟩
  | link known is beyond shifted present =>
      rw [getElem?_setColumn present]
      split
      · rename_i here
        subst here
        cases found.symm.trans present
        exact ⟨_, rfl, Column.grows_link (consistent.tidy _ _ found)⟩
      · exact ⟨column, found, .refl⟩

section

variable (inRange : table.InRange) (spanning : lattice.Spanning)
  (consistent : stack.Consistent table lattice)
include inRange spanning consistent

theorem Move.spec (move : Move table lattice low stack after) :
    after.Consistent table lattice ∧ stack.Extends low after := by
  cases move with
  | step step => exact ⟨step.consistent inRange spanning consistent, step.extends consistent⟩
  | take beyond found taken =>
      rename_i position column first waiting
      have tidy := consistent.tidy _ _ found
      have extended : stack.Extends low (stack.setColumn position { column with waiting }) :=
        ⟨fun _ _ _ _ is => is, fun _ _ has => has, fun _ before => (hasVertex_take found).2 before,
          fun _ _ before => (hasLink_take found).2 before, fun position below => by
            rw [getElem?_setColumn found, if_neg (by omega)]⟩
      refine ⟨{ consistent with
        size := by simpa [setColumn] using consistent.size
        tidy := fun position column present => ?_
        vertex := fun vertex has => consistent.vertex _ ((hasVertex_take found).1 has)
        link := fun vertex link has => ?_ }, extended⟩
      · rw [getElem?_setColumn found] at present
        split at present
        · cases present
          have fewer := tidy.fewer
          simp only [taken, List.length_cons] at fewer
          exact ⟨tidy.ascending, tidy.distinct,
            fun waits member => tidy.waiting _ (taken ▸ List.mem_cons_of_mem _ member),
            Nat.le_of_succ_le fewer⟩
        · exact consistent.tidy _ _ present
      · obtain ⟨known, rest⟩ := consistent.link vertex link ((hasLink_take found).1 has)
        exact ⟨extended.vertex _ known, rest⟩

theorem Moves.spec (moves : Moves table lattice low stack after) :
    after.Consistent table lattice ∧ stack.Extends low after := by
  induction moves with
  | refl => exact ⟨consistent, .refl⟩
  | tail _ move ih =>
      obtain ⟨stillConsistent, extended⟩ := move.spec inRange spanning ih.1
      exact ⟨stillConsistent, ih.2.trans extended⟩

theorem Steps.spec (steps : Steps table lattice low stack after) :
    after.Consistent table lattice ∧ stack.Extends low after :=
  Moves.spec inRange spanning consistent (Relation.ReflTransGen.mono (fun _ _ => .step) _ _ steps)

theorem Steps.column {position : Nat} {column : Column} (steps : Steps table lattice low stack after)
    (found : stack.columns[position]? = some column) :
    ∃ grown, after.columns[position]? = some grown ∧ column.Grows grown := by
  induction steps with
  | refl => exact ⟨column, found, .refl⟩
  | tail before step ih =>
      obtain ⟨grown, present, grows⟩ := ih
      have later := (Steps.spec inRange spanning consistent before).1
      obtain ⟨last, lastFound, grewOn⟩ := step.column later present
      exact ⟨last, lastFound, grows.trans grewOn⟩

end

end Stack

end QueryGrammar
