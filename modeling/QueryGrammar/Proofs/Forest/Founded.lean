import QueryGrammar.Proofs.Forest.Cheapest
import QueryGrammar.Proofs.Forest.InRange

namespace QueryGrammar.Forest

/-! Which forests have costs.

Main statement: where the references of a forest lead somewhere, its nodes have costs unless its
children go round in circles, and if they do, the recursion for the costs goes on for ever.
-/

variable {κ : Type} {table : Table κ} {forest : Forest}

section

variable {α β : Type} {holds : α → Prop} {after : β → Prop} {outcome : Except Fault α}
  {next : α → Except Fault β}

/-- A computation that gives a value of which something holds, or would not end. -/
def Goes (holds : α → Prop) (outcome : Except Fault α) : Prop :=
  (∃ value, outcome = .ok value ∧ holds value) ∨ outcome = .error .endless

theorem Goes.ok {value : α} (fine : holds value) : Goes holds (.ok value) :=
  .inl ⟨value, rfl, fine⟩

theorem Goes.bind (goes : Goes holds outcome)
    (onward : ∀ value, holds value → Goes after (next value)) : Goes after (outcome >>= next) := by
  rcases goes with ⟨value, rfl, fine⟩ | rfl
  · exact onward value fine
  · exact .inr rfl

theorem Goes.inBounds (goes : Goes holds outcome) : Fault.InBounds outcome := by
  rcases goes with ⟨value, rfl, -⟩ | rfl
  · exact Fault.inBounds_ok value
  · exact Fault.inBounds_error rfl

end

/-- The children of a node, theirs and so on come to an end. -/
def Finishes (forest : Forest) (id : Nat) : Prop :=
  Acc (fun child parent => forest.Child parent child) id

/-- Children do not go round in circles. -/
def Founded (forest : Forest) : Prop :=
  WellFounded fun child parent => forest.Child parent child

theorem finishes_of_children {id : Nat} {node : Node} (known : forest.nodes[id]? = some node)
    (finish : ∀ alternative ∈ node.alternatives, ∀ child ∈ alternative.children,
      forest.Finishes child) : forest.Finishes id := by
  refine .intro id fun child related => ?_
  obtain ⟨rule, children, ⟨own, present, member⟩, below⟩ := related
  cases known.symm.trans present
  exact finish _ member child below

theorem finishes_of_outside {id : Nat} (outside : ¬ id < forest.nodes.size) :
    forest.Finishes id := by
  refine .intro id fun child related => ?_
  obtain ⟨rule, children, has, -⟩ := related
  obtain ⟨symbol, start, stop, is⟩ := has.exists_is
  exact absurd is.lt_size outside

/-- Children rank below their node, so there is no endless descent. -/
theorem Presents.founded {lattice : Lattice} (presents : forest.Presents table lattice)
    (noCycle : table.HasNoUnaryCycle) : forest.Founded := by
  obtain ⟨rank, -, falls⟩ := presents.exists_rank noCycle
  exact Subrelation.wf (fun related => falls _ _ related) (measure rank).wf

/-- As many costs are remembered as there are nodes, and only for those that come to an end. -/
structure Tracks (forest : Forest) (memo : Memo κ) : Prop where
  size : memo.size = forest.nodes.size
  finishes : ∀ id cost, Remembers memo id cost → forest.Finishes id

theorem tracks_unknown : forest.Tracks (Array.replicate forest.nodes.size (none : Option κ)) := by
  refine ⟨Array.size_replicate, fun id cost known => ?_⟩
  rw [Remembers, Array.getElem?_replicate] at known
  split at known <;> cases known

theorem Tracks.remember {memo : Memo κ} {id : Nat} (tracks : forest.Tracks memo)
    (finishes : forest.Finishes id) (cost : κ) :
    forest.Tracks (memo.setIfInBounds id (some cost)) := by
  refine ⟨by rw [Array.size_setIfInBounds, tracks.size], fun other given known => ?_⟩
  by_cases here : id = other
  · exact here ▸ finishes
  · rw [Remembers, Array.getElem?_setIfInBounds, if_neg here] at known
    exact tracks.finishes other given known

section

variable [Cost κ] {visit : Nat → Memo κ → Except Fault (κ × Memo κ)} {memo : Memo κ}

/-- Visiting a node gives a cost if the node comes to an end, and otherwise does not end either. -/
def Explores (forest : Forest) (visit : Nat → Memo κ → Except Fault (κ × Memo κ)) : Prop :=
  ∀ id memo, id < forest.nodes.size → forest.Tracks memo →
    Goes (fun result => forest.Tracks result.2 ∧ forest.Finishes id) (visit id memo)

theorem addChildren_goes (explores : forest.Explores visit) {children : List Nat}
    (inside : ∀ child ∈ children, child < forest.nodes.size) (start : κ)
    (tracks : forest.Tracks memo) :
    Goes (fun result => forest.Tracks result.2 ∧ ∀ child ∈ children, forest.Finishes child)
      (addChildren visit start children memo) := by
  induction children generalizing start memo with
  | nil => exact .ok ⟨tracks, by simp⟩
  | cons child rest ih =>
      obtain ⟨own, others⟩ := List.forall_mem_cons.1 inside
      refine (explores child memo own tracks).bind fun result visited => ?_
      obtain ⟨cost, middle⟩ := result
      rcases ih others (start + cost) visited.1 with ⟨total, adding, later, finish⟩ | endless
      · exact .inl ⟨total, adding, later, List.forall_mem_cons.2 ⟨visited.2, finish⟩⟩
      · exact .inr endless

theorem costsOfAlternatives_goes (explores : forest.Explores visit)
    {alternatives : List Alternative}
    (inRange : ∀ alternative ∈ alternatives, alternative.InRange table forest)
    (tracks : forest.Tracks memo) :
    Goes (fun result => forest.Tracks result.2 ∧
        ∀ alternative ∈ alternatives, ∀ child ∈ alternative.children, forest.Finishes child)
      (costsOfAlternatives table visit alternatives memo) := by
  induction alternatives generalizing memo with
  | nil => exact .ok ⟨tracks, by simp⟩
  | cons alternative rest ih =>
      obtain ⟨own, others⟩ := List.forall_mem_cons.1 inRange
      obtain ⟨ruleCost, known⟩ := own.costOf
      have rule : Goes (fun _ => True) (table.costOf alternative.rule) := known ▸ .ok trivial
      refine rule.bind fun ruleCost _ => ?_
      refine (addChildren_goes explores own.children ruleCost tracks).bind fun result added => ?_
      obtain ⟨cost, middle⟩ := result
      refine (ih others added.1).bind fun result later => ?_
      obtain ⟨costs, after⟩ := result
      exact .ok ⟨later.1, List.forall_mem_cons.2 ⟨added.2, later.2⟩⟩

theorem cheapestAt_explores (inRange : forest.InRange table) (fuel : Nat) :
    forest.Explores (cheapestAt table forest fuel) := by
  induction fuel with
  | zero => exact fun id memo _ _ => .inr rfl
  | succ fuel ih =>
      intro id memo inside tracks
      have bound : id < memo.size := tracks.size ▸ inside
      have found : Fault.lookUp .noNode memo id = .ok memo[id] := Fault.lookUp_of_lt bound
      simp only [cheapestAt, found, bind, Except.bind]
      split
      · rename_i cost known
        exact .ok ⟨tracks, tracks.finishes id cost (Array.getElem?_eq_some_iff.2 ⟨bound, known⟩)⟩
      · have present := Array.getElem?_eq_getElem inside
        have node : forest.nodeAt id = .ok forest.nodes[id] := Fault.lookUp_of_lt inside
        simp only [node]
        refine (costsOfAlternatives_goes ih (inRange.of_node present).2 tracks).bind fun result
          visited => ?_
        obtain ⟨costs, after⟩ := result
        have own := finishes_of_children present visited.2
        exact .ok ⟨visited.1.remember own _, own⟩

theorem cheapestFrom_goes (inRange : forest.InRange table) {nodes : List Nat}
    (inside : ∀ id ∈ nodes, id < forest.nodes.size) (tracks : forest.Tracks memo) :
    Goes (fun after => forest.Tracks after ∧ ∀ id ∈ nodes, forest.Finishes id)
      (cheapestFrom table forest nodes memo) := by
  induction nodes generalizing memo with
  | nil => exact .ok ⟨tracks, by simp⟩
  | cons id rest ih =>
      obtain ⟨own, others⟩ := List.forall_mem_cons.1 inside
      refine (cheapestAt_explores inRange (forest.nodes.size + 1) id memo own tracks).bind fun result
        visited => ?_
      obtain ⟨cost, middle⟩ := result
      rcases ih others visited.1 with ⟨after, going, later, finish⟩ | endless
      · exact .inl ⟨after, going, later, List.forall_mem_cons.2 ⟨visited.2, finish⟩⟩
      · exact .inr endless

omit [Cost κ] in
theorem InRange.linked (inRange : forest.InRange table) : forest.Linked table where
  rule id alternative has := by
    have own := inRange.alternative id alternative has
    cases own with
    | terminal known | branch known => exact ⟨_, known⟩
  child parent child related := by
    obtain ⟨rule, children, has, below⟩ := related
    exact (inRange.alternative parent _ has).children child below

theorem InRange.cheapest (inRange : forest.InRange table) (founded : forest.Founded) :
    ∃ costs : Array κ, forest.cheapest table = .ok costs ∧ costs.size = forest.nodes.size := by
  obtain ⟨rank, bounded, falls⟩ := inRange.linked.exists_rank founded
  obtain ⟨costs, cheapest, size, -⟩ := cheapest_settles inRange.linked falls bounded
  exact ⟨costs, cheapest, size⟩

theorem InRange.cheapest_goes (inRange : forest.InRange table) :
    Goes (fun _ => forest.Founded) (forest.cheapest table) := by
  refine (cheapestFrom_goes inRange (fun _ => List.mem_range.1) tracks_unknown).bind
    fun memo visited => .ok ⟨fun id => ?_⟩
  by_cases inside : id < forest.nodes.size
  · exact visited.2 id (List.mem_range.2 inside)
  · exact finishes_of_outside inside

/-- Where children go round in circles, the recursion goes on for ever. -/
theorem InRange.cheapest_endless (inRange : forest.InRange table) (circular : ¬ forest.Founded) :
    forest.cheapest table = .error .endless :=
  inRange.cheapest_goes.resolve_left fun finished => circular finished.choose_spec.2

theorem InRange.founded_iff (inRange : forest.InRange table) :
    forest.Founded ↔ ∃ costs, forest.cheapest table = .ok costs := by
  refine ⟨fun founded => (inRange.cheapest founded).imp fun costs given => given.1, fun given => ?_⟩
  by_contra circular
  obtain ⟨costs, cheapest⟩ := given
  cases cheapest.symm.trans (inRange.cheapest_endless circular)

end

end QueryGrammar.Forest
