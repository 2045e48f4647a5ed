import QueryGrammar.Proofs.Parse.Drain

namespace QueryGrammar

/-! Whole runs of recognition.

Main statement: on every table whose references lead somewhere, a run ends without a fault.  What
it ends with was reached by single steps, every link has been reduced, and every match has been
followed from all vertices at its start.
-/

namespace Stack

variable {κ : Type} {table : Table κ} {lattice : Lattice} {stack after : Stack}
  {source : Vertex} {low position id : Nat} {hit : Match}

/-- Every match at a position has been followed from all vertices there. -/
def Planted (table : Table κ) (lattice : Lattice) (stack : Stack) (position : Nat) : Prop :=
  ∀ (id : Nat) hit, lattice.found[id]? = some hit → hit.start = position →
    ∀ rule ∈ table.literalRules hit.literal, ∀ entry, table.rules[rule]? = some entry →
      ∀ state, stack.HasVertex ⟨state, position⟩ →
        stack.Over table entry.symbol ⟨state, position⟩ hit.stop (.terminal rule id)

theorem Planted.mono (planted : stack.Planted table lattice position)
    (extended : stack.Extends low after) (below : position < low) :
    after.Planted table lattice position :=
  fun id hit found starts rule listed entry known state vertex =>
    (planted id hit found starts rule listed entry known state
      ((extended.hasVertex_iff below).1 vertex)).mono extended

/-- A forest has the node of a rule over a match, among those listed. -/
def Roots (forest : Forest) (nodes : List Nat) (id : Nat) (hit : Match) (rule : Nat)
    (entry : IndexedRule κ) : Prop :=
  ∃ node ∈ nodes, forest.Is node entry.symbol hit.start hit.stop ∧
    forest.Has node (.terminal rule id)

theorem Roots.mono {nodes more : List Nat} {rule : Nat} {entry : IndexedRule κ}
    (roots : Roots stack.forest nodes id hit rule entry) (extended : stack.Extends low after)
    (listed : ∀ node ∈ nodes, node ∈ more) : Roots after.forest more id hit rule entry := by
  obtain ⟨node, member, is, has⟩ := roots
  exact ⟨node, listed node member, extended.is _ _ _ _ is, extended.has _ _ has⟩

def Begin (forest : Forest) (position : Nat) (nodes : List Nat) : Prop :=
  ∀ node ∈ nodes, ∃ symbol stop, forest.Is node symbol position stop

theorem Begin.mono {nodes : List Nat} (begins : Begin stack.forest position nodes)
    (extended : stack.Extends low after) : Begin after.forest position nodes := by
  intro node member
  obtain ⟨symbol, stop, is⟩ := begins node member
  exact ⟨symbol, stop, extended.is _ _ _ _ is⟩

theorem getElem?_initial (index : Nat) : (initial lattice).columns[index]? =
    if index = 0 then some ⟨[(0, [])], []⟩
    else if index < lattice.length + 1 then some .empty else none := by
  by_cases here : index = 0
  · simp [initial, here, Column.empty]
  · simp [initial, here, Ne.symm here, Array.getElem?_replicate]

theorem initial_hasVertex : (initial lattice).HasVertex ⟨0, 0⟩ :=
  ⟨_, by rw [getElem?_initial, if_pos rfl], by simp [Column.states]⟩

section

variable (inRange : table.InRange) (spanning : lattice.Spanning)
include inRange spanning

theorem plantRules_spec {rules nodes : List Nat} (low : Nat) (consistent : stack.Consistent table lattice)
    (found : lattice.found[id]? = some hit)
    (listed : ∀ rule ∈ rules, rule ∈ table.literalRules hit.literal)
    (begins : Begin stack.forest hit.start nodes) :
    ∃ after planted, plantRules table id hit.start hit.stop rules stack.forest nodes =
        .ok (after, planted) ∧
      Steps table lattice low stack { stack with forest := after } ∧
      (∀ node ∈ nodes, node ∈ planted) ∧ Begin after hit.start planted ∧
      ∀ rule ∈ rules, ∀ entry, table.rules[rule]? = some entry →
        Roots after planted id hit rule entry := by
  induction rules generalizing stack nodes with
  | nil => exact ⟨stack.forest, nodes, rfl, .refl, fun _ member => member, begins, by simp⟩
  | cons rule rest ih =>
      have literal := listed rule (List.mem_cons_self ..)
      have inside := inRange.literal _ rule literal
      have known := Array.getElem?_eq_getElem inside
      obtain ⟨new, forest, added, recorded⟩ := Forest.record_spec consistent.packed
        table.rules[rule].symbol hit.start hit.stop (.terminal rule id)
      rcases ensured : stack.forest.ensure table.rules[rule].symbol hit.start hit.stop
        with ⟨node, grown⟩
      rw [ensured] at added recorded
      have record : Step table lattice low stack { stack with forest } :=
        .record (.literal found literal known) recorded
      have extended := record.extends consistent
      obtain ⟨more, moreListed, moreBegin⟩ : ∃ more, more =
          (if nodes.contains node then nodes else nodes ++ [node]) ∧
          Begin forest hit.start more ∧ node ∈ more ∧ ∀ node ∈ nodes, node ∈ more := by
        refine ⟨_, rfl, fun other member => ?_, ?_, fun other member => ?_⟩
        · split at member
          · exact begins.mono extended other member
          · rcases List.mem_append.1 member with before | last
            · exact begins.mono extended other before
            · rw [List.mem_singleton.1 last]
              exact ⟨_, _, recorded.is⟩
        · split
          · rename_i member
            exact List.contains_iff_mem.1 member
          · exact List.mem_append_right _ (List.mem_singleton.2 rfl)
        · split
          · exact member
          · exact List.mem_append_left _ member
      obtain ⟨begin, own, kept⟩ := moreBegin
      obtain ⟨after, planted, planting, steps, keeps, beginAll, roots⟩ :=
        ih (record.consistent inRange spanning consistent)
          (fun rule member => listed rule (List.mem_cons_of_mem _ member)) begin
      have onward := (Steps.spec inRange spanning
        (record.consistent inRange spanning consistent) steps).2
      refine ⟨after, planted, ?_, .head record steps, fun node member => keeps _ (kept _ member),
        beginAll, fun other member entry entryFound => ?_⟩
      · simp only [plantRules, Table.ruleAt, Fault.lookUp, known, ensured, added, bind,
          Except.bind]
        rw [← moreListed]
        exact planting
      · rcases List.mem_cons.1 member with rfl | member
        · cases known.symm.trans entryFound
          exact ⟨node, keeps _ own, onward.is _ _ _ _ recorded.is, onward.has _ _ recorded.has⟩
        · exact roots other member entry entryFound

theorem plant_spec {found : List (Match × Nat)} {nodes : List Nat} (low : Nat)
    (consistent : stack.Consistent table lattice)
    (known : ∀ hit id, (hit, id) ∈ found → lattice.found[id]? = some hit)
    (begins : Begin stack.forest position nodes) :
    ∃ after planted, plant table position found stack.forest nodes = .ok (after, planted) ∧
      Steps table lattice low stack { stack with forest := after } ∧
      (∀ node ∈ nodes, node ∈ planted) ∧ Begin after position planted ∧
      ∀ hit id, (hit, id) ∈ found → hit.start = position →
        ∀ rule ∈ table.literalRules hit.literal, ∀ entry, table.rules[rule]? = some entry →
          Roots after planted id hit rule entry := by
  induction found generalizing stack nodes with
  | nil => exact ⟨stack.forest, nodes, rfl, .refl, fun _ member => member, begins, by simp⟩
  | cons first rest ih =>
      obtain ⟨hit, id⟩ := first
      have restKnown : ∀ hit id, (hit, id) ∈ rest → lattice.found[id]? = some hit :=
        fun hit id member => known hit id (List.mem_cons_of_mem _ member)
      by_cases starts : hit.start = position
      · subst starts
        obtain ⟨forest, more, planting, steps, kept, begin, roots⟩ :=
          plantRules_spec inRange spanning low consistent
            (known hit id (List.mem_cons_self ..)) (fun _ member => member) begins
        have later := (Steps.spec inRange spanning consistent steps).1
        obtain ⟨after, planted, others, moreSteps, keeps, beginAll, rootsAll⟩ :=
          ih later restKnown begin
        have onward := (Steps.spec inRange spanning later moreSteps).2
        refine ⟨after, planted, ?_, steps.trans moreSteps,
          fun node member => keeps _ (kept _ member), beginAll,
          fun other number member same rule literal entry entryFound => ?_⟩
        · simp only [plant, if_true, planting, bind, Except.bind]
          exact others
        · rcases List.mem_cons.1 member with equal | member
          · cases equal
            exact (roots rule literal entry entryFound).mono onward keeps
          · exact rootsAll other number member same rule literal entry entryFound
      · obtain ⟨after, planted, others, steps, keeps, beginAll, rootsAll⟩ :=
          ih consistent restKnown begins
        refine ⟨after, planted, ?_, steps, keeps, beginAll,
          fun other number member same rule literal entry entryFound => ?_⟩
        · simp only [plant, if_neg starts]
          exact others
        · rcases List.mem_cons.1 member with equal | member
          · cases equal
            exact absurd same starts
          · exact rootsAll other number member same rule literal entry entryFound

omit inRange spanning in
theorem lt_of_begin {node symbol stop : Nat} (consistent : stack.Consistent table lattice)
    (is : stack.forest.Is node symbol position stop) : position + 1 ≤ stop :=
  (consistent.node _ _ _ _ is).2.1

theorem advanceAll_spec {nodes : List Nat} (consistent : stack.Consistent table lattice)
    (known : stack.HasVertex source) (begins : Begin stack.forest source.position nodes) :
    ∃ after, advanceAll table source nodes stack = .ok after ∧
      Steps table lattice (source.position + 1) stack after ∧
      ∀ node ∈ nodes, ∀ symbol stop, stack.forest.Is node symbol source.position stop →
        ∀ target, table.shift source.state symbol = .ok (some target) →
          after.HasLink ⟨target, stop⟩ ⟨node, source⟩ := by
  induction nodes generalizing stack with
  | nil => exact ⟨stack, rfl, .refl, by simp⟩
  | cons node rest ih =>
      obtain ⟨symbol, stop, is⟩ := begins node (List.mem_cons_self ..)
      obtain ⟨next, advanced, steps, leads⟩ := advance_spec inRange consistent known is
        (lt_of_begin consistent is)
      obtain ⟨later, extended⟩ := Steps.spec inRange spanning consistent steps
      have restBegins : Begin stack.forest source.position rest :=
        fun node member => begins node (List.mem_cons_of_mem _ member)
      obtain ⟨after, others, moreSteps, rest⟩ := ih later (extended.vertex _ known)
        (restBegins.mono extended)
      have onward := (Steps.spec inRange spanning later moreSteps).2
      refine ⟨after, ?_, steps.trans moreSteps, fun other member symbol' stop' also target => ?_⟩
      · simp only [advanceAll, advanced, bind, Except.bind]
        exact others
      · rcases List.mem_cons.1 member with rfl | member
        · obtain ⟨rfl, -, rfl⟩ := is.same also
          exact fun shifted => onward.link _ _ (leads target shifted)
        · exact rest other member symbol' stop' (extended.is _ _ _ _ also) target

theorem advanceFrom_spec {nodes states : List Nat} (consistent : stack.Consistent table lattice)
    (known : ∀ state ∈ states, stack.HasVertex ⟨state, position⟩)
    (begins : Begin stack.forest position nodes) :
    ∃ after, advanceFrom table position nodes states stack = .ok after ∧
      Steps table lattice (position + 1) stack after ∧
      ∀ state ∈ states, ∀ node ∈ nodes, ∀ symbol stop,
        stack.forest.Is node symbol position stop →
          ∀ target, table.shift state symbol = .ok (some target) →
            after.HasLink ⟨target, stop⟩ ⟨node, ⟨state, position⟩⟩ := by
  induction states generalizing stack with
  | nil => exact ⟨stack, rfl, .refl, by simp⟩
  | cons state rest ih =>
      obtain ⟨next, advanced, steps, leads⟩ := advanceAll_spec inRange spanning consistent
        (known state (List.mem_cons_self ..)) begins
      obtain ⟨later, extended⟩ := Steps.spec inRange spanning consistent steps
      obtain ⟨after, others, moreSteps, rest⟩ := ih later
        (fun state member => extended.vertex _ (known state (List.mem_cons_of_mem _ member)))
        (begins.mono extended)
      have onward := (Steps.spec inRange spanning later moreSteps).2
      refine ⟨after, ?_, steps.trans moreSteps,
        fun other member node nodeMember symbol stop is target shifted => ?_⟩
      · simp only [advanceFrom, advanced, bind, Except.bind]
        exact others
      · rcases List.mem_cons.1 member with rfl | member
        · exact onward.link _ _ (leads node nodeMember symbol stop is target shifted)
        · exact rest other member node nodeMember symbol stop (extended.is _ _ _ _ is) target
            shifted

theorem shift_spec (consistent : stack.Consistent table lattice)
    (inside : position < lattice.length) :
    ∃ after, shift table position stack = .ok after ∧
      Steps table lattice (position + 1) stack after ∧ after.Planted table lattice position := by
  have bound : position < stack.columns.size := by
    rw [consistent.size]
    exact Nat.lt_succ_of_lt inside
  have column := Array.getElem?_eq_getElem bound
  have listed : ∀ hit id, (hit, id) ∈ stack.forest.found.toList.zipIdx ↔
      lattice.found[id]? = some hit := by
    intro hit id
    rw [List.mk_mem_zipIdx_iff_getElem?, Array.getElem?_toList, consistent.found]
  have start : Begin stack.forest position [] := by simp [Begin]
  obtain ⟨forest, nodes, planting, steps, -, begins, roots⟩ :=
    plant_spec inRange spanning (position + 1) consistent (fun hit id => (listed hit id).1) start
  obtain ⟨plantedConsistent, planted⟩ := Steps.spec inRange spanning consistent steps
  have vertices : ∀ state, state ∈ stack.columns[position].states ↔
      stack.HasVertex ⟨state, position⟩ := fun state => by
    simp [HasVertex, column]
  obtain ⟨after, advanced, moreSteps, leads⟩ := advanceFrom_spec inRange spanning
    plantedConsistent (fun state member => planted.vertex _ ((vertices state).1 member)) begins
  have onward := (Steps.spec inRange spanning plantedConsistent moreSteps).2
  refine ⟨after, ?_, steps.trans moreSteps, ?_⟩
  · simp only [shift, columnAt, Fault.lookUp, column, planting, bind, Except.bind]
    exact advanced
  · intro id hit found starts rule literal entry known state vertex
    obtain ⟨node, member, is, has⟩ :=
      roots hit id ((listed hit id).2 found) starts rule literal entry known
    have before := ((planted.trans onward).hasVertex_iff (Nat.lt_succ_self position)).1 vertex
    rw [starts] at is
    exact ⟨node, onward.is _ _ _ _ is, onward.has _ _ has,
      leads state ((vertices state).2 before) node member _ _ is⟩

/-- Everything before a position is done: links are reduced and matches followed. -/
structure Done (table : Table κ) (lattice : Lattice) (position : Nat) (stack : Stack) : Prop where
  consistent : stack.Consistent table lattice
  settled : ∀ vertex link, vertex.position < position → stack.HasLink vertex link →
    stack.Reduced table vertex link
  planted : ∀ earlier < position, stack.Planted table lattice earlier
  waiting : ∀ vertex link, position ≤ vertex.position → stack.HasLink vertex link →
    stack.Waits vertex link

theorem Done.drain (done : Done table lattice position stack) (inside : position ≤ lattice.length) :
    ∃ after, drain table position (drainBound table position) stack = .ok after ∧
      Moves table lattice position stack after ∧
      (∀ vertex link, vertex.position ≤ position → after.HasLink vertex link →
        after.Reduced table vertex link) ∧
      (∀ earlier < position, after.Planted table lattice earlier) ∧
      ∀ vertex link, position < vertex.position → after.HasLink vertex link →
        after.Waits vertex link := by
  have bound : position < stack.columns.size := by
    rw [done.consistent.size]
    omega
  have column := Array.getElem?_eq_getElem bound
  obtain ⟨after, draining, moves, reduced, fresh⟩ := drain_spec inRange spanning done.consistent
    column
    ⟨fun vertex link here has => .inl (done.waiting vertex link (Nat.le_of_eq here.symm) has),
      fun vertex link beyond => done.waiting vertex link (Nat.le_of_lt beyond)⟩
    (Nat.add_le_add_left (done.consistent.tidy _ _ column).fewer _)
  have extended := (Moves.spec inRange spanning done.consistent moves).2
  refine ⟨after, draining, moves, fun vertex link upTo has => ?_,
    fun earlier before => (done.planted earlier before).mono extended before, fresh⟩
  rcases Nat.lt_or_eq_of_le upTo with before | here
  · have known := (extended.hasLink_iff before).1 has
    exact (done.settled vertex link before known).mono extended
      (Nat.lt_trans (done.consistent.source_before known) before)
  · exact reduced vertex link here has

theorem Done.next (done : Done table lattice position stack) (inside : position < lattice.length) :
    ∃ drained after, Stack.drain table position (drainBound table position) stack = .ok drained ∧
      shift table position drained = .ok after ∧ Moves table lattice position stack after ∧
      Done table lattice (position + 1) after := by
  obtain ⟨drained, draining, moves, settled, planted, waiting⟩ :=
    Done.drain inRange spanning done (Nat.le_of_lt inside)
  have consistent := (Moves.spec inRange spanning done.consistent moves).1
  obtain ⟨after, shifting, steps, plantedHere⟩ := shift_spec inRange spanning consistent inside
  obtain ⟨later, extended⟩ := Steps.spec inRange spanning consistent steps
  refine ⟨drained, after, draining, shifting, moves.trans ?_, later, fun vertex link before has => ?_,
    fun earlier before => ?_, fun vertex link beyond has => ?_⟩
  · exact Relation.ReflTransGen.mono (fun _ _ step => .step (step.mono (Nat.le_succ _))) _ _ steps
  · have known := (extended.hasLink_iff before).1 has
    exact (settled vertex link (Nat.le_of_lt_succ before) known).mono extended
      (Nat.lt_trans (consistent.source_before known) before)
  · rcases Nat.lt_or_eq_of_le (Nat.le_of_lt_succ before) with less | rfl
    · exact (planted earlier less).mono extended before
    · exact plantedHere
  · rcases Steps.waits_or_before inRange spanning consistent steps has with waits | old
    · exact waits
    · exact Steps.waits inRange spanning consistent steps (waiting vertex link beyond old)

theorem run_spec {left : Nat} (done : Done table lattice position stack)
    (last : position + left = lattice.length) :
    ∃ after, run table position left stack = .ok after ∧ Moves table lattice 0 stack after ∧
      (∀ vertex link, after.HasLink vertex link → after.Reduced table vertex link) ∧
      ∀ position < lattice.length, after.Planted table lattice position := by
  induction left generalizing position stack with
  | zero =>
      obtain ⟨after, draining, moves, settled, planted, -⟩ :=
        Done.drain inRange spanning done (Nat.le_of_eq last)
      have consistent := (Moves.spec inRange spanning done.consistent moves).1
      refine ⟨after, draining, moves.mono (Nat.zero_le _), fun vertex link has => ?_,
        fun earlier before => planted earlier (by omega)⟩
      exact settled vertex link (Nat.le_trans (consistent.inside has) (Nat.le_of_eq last.symm)) has
  | succ left ih =>
      obtain ⟨drained, shifted, draining, shifting, moves, doneNext⟩ :=
        Done.next inRange spanning done (by omega)
      obtain ⟨after, running, more, settled, planted⟩ := ih doneNext (by omega)
      refine ⟨after, ?_, (moves.mono (Nat.zero_le _)).trans more, settled, planted⟩
      simp only [run, draining, shifting, bind, Except.bind]
      exact running

end

theorem initial_done (inRange : table.InRange) : Done table lattice 0 (initial lattice) := by
  have noLink : ∀ vertex link, ¬ (initial lattice).HasLink vertex link := by
    intro vertex link has
    obtain ⟨column, found, member⟩ := has
    rw [getElem?_initial] at found
    split at found
    · cases found
      simp [Column.allLinks, Column.flat] at member
    · split at found
      · cases found
        simp [Column.allLinks, Column.flat, Column.empty] at member
      · cases found
  have noNode : ∀ id symbol start stop, ¬ (initial lattice).forest.Is id symbol start stop := by
    intro id symbol start stop is
    obtain ⟨node, found, -⟩ := is
    simp [initial, Forest.ofMatches] at found
  refine ⟨⟨by simp [initial], fun index column found => ?_,
      Forest.packed_ofMatches lattice.found, rfl, ?_, ?_, ?_⟩,
    fun vertex link before => absurd before (Nat.not_lt_zero _),
    fun earlier before => absurd before (Nat.not_lt_zero _), ?_⟩
  · rw [getElem?_initial] at found
    split at found
    · cases found
      exact ⟨by simp [Column.Ascends], by simp [Column.allLinks, Column.flat], by simp, by simp⟩
    · split at found
      · cases found
        exact Column.tidy_empty
      · cases found
  · exact fun id symbol start stop is => (noNode _ _ _ _ is).elim
  · intro vertex has
    obtain ⟨state, index⟩ := vertex
    obtain ⟨column, found, member⟩ := has
    rw [getElem?_initial] at found
    split at found
    · cases found
      have same : state = 0 := by simpa [Column.states] using member
      subst same
      exact inRange.initial
    · split at found
      · cases found
        simp [Column.states, Column.empty] at member
      · cases found
  · exact fun vertex link has => (noLink _ _ has).elim
  · exact fun vertex link _ has => (noLink _ _ has).elim

theorem anyAccepts_spec {states : List Nat} (known : ∀ id ∈ states, id < table.states.size) :
    ∃ accepted, anyAccepts table states = .ok accepted ∧
      ∀ id ∈ states, ∀ state, table.states[id]? = some state → state.accepts = true →
        accepted = true := by
  induction states with
  | nil => exact ⟨false, rfl, by simp⟩
  | cons first rest ih =>
      have inside := known first (List.mem_cons_self ..)
      have present := Array.getElem?_eq_getElem inside
      obtain ⟨accepted, others, accepts⟩ := ih fun id member => known id (List.mem_cons_of_mem _ member)
      cases here : table.states[first].accepts with
      | true =>
          refine ⟨true, ?_, fun _ _ _ _ _ => rfl⟩
          simp [anyAccepts, Table.stateAt, Fault.lookUp, present, here, bind, Except.bind]
      | false =>
          refine ⟨accepted, ?_, fun id member state found accepting => ?_⟩
          · simpa [anyAccepts, Table.stateAt, Fault.lookUp, present, here, bind, Except.bind]
              using others
          · rcases List.mem_cons.1 member with rfl | member
            · cases present.symm.trans found
              rw [here] at accepting
              cases accepting
            · exact accepts id member state found accepting

end Stack

/-- Recognition goes without a fault from the empty stack to one with every link reduced and every
match followed, and the root is what spans the lattice if the automaton accepts. -/
theorem Forest.recognized_run {κ : Type} {table : Table κ} {lattice : Lattice}
    (inRange : table.InRange) (spanning : lattice.Spanning) : ∃ stack accepted,
    Stack.Moves table lattice 0 (Stack.initial lattice) stack ∧
      (∀ vertex link, stack.HasLink vertex link → stack.Reduced table vertex link) ∧
      (∀ position < lattice.length, stack.Planted table lattice position) ∧
      (∀ id state, stack.HasVertex ⟨id, lattice.length⟩ → table.states[id]? = some state →
        state.accepts = true → accepted = true) ∧
      recognized table lattice = .ok { stack.forest with
        root := if accepted then stack.forest.find? table.start 0 lattice.length else none } := by
  have done : Stack.Done table lattice 0 (Stack.initial lattice) := Stack.initial_done inRange
  obtain ⟨stack, running, moves, settled, planted⟩ :=
    Stack.run_spec inRange spanning done (Nat.zero_add _)
  have consistent := (Stack.Moves.spec inRange spanning done.consistent moves).1
  have bound : lattice.length < stack.columns.size := by
    rw [consistent.size]
    exact Nat.lt_succ_self _
  have column := Array.getElem?_eq_getElem bound
  have known : ∀ id ∈ stack.columns[lattice.length].states, id < table.states.size :=
    fun id member => consistent.vertex ⟨id, lattice.length⟩ ⟨_, column, member⟩
  obtain ⟨accepted, accepting, accepts⟩ := Stack.anyAccepts_spec known
  refine ⟨stack, accepted, moves, settled, planted, fun id state vertex => ?_, ?_⟩
  · obtain ⟨last, found, member⟩ := vertex
    cases column.symm.trans found
    exact accepts id member state
  · simp only [recognized, running, Stack.columnAt, Fault.lookUp, column, accepting, bind,
      Except.bind]

end QueryGrammar
