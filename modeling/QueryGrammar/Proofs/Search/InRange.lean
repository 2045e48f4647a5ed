import QueryGrammar.Proofs.Forest.Founded
import QueryGrammar.Proofs.Search.Begin
import QueryGrammar.Proofs.Search.Listed

namespace QueryGrammar

/-! Searches of forests whose references lead somewhere.

Main statement: where children do not go round in circles, such a search ends without a fault up to
whatever limits, and the choices of its results spell trees of the forest.
-/

variable {κ : Type} [Cost κ]

/-- The derivations of a result spell trees at a root. -/
structure Derivation.Spelled (forest : Forest) (root : Nat) (result : Derivation κ) : Prop where
  choices : ∃ tree, forest.Spells [root] result.choices [tree]
  duplicates : ∀ duplicate ∈ result.duplicates,
    ∃ tree, forest.Spells [root] duplicate.choices [tree]

/-- A candidate waits for nodes of the forest, and what spells them completes a tree. -/
structure Candidate.Inside (forest : Forest) (root : Nat) (candidate : Candidate κ) : Prop where
  pending : ∀ id ∈ pending candidate.steps, id < forest.nodes.size
  spelled : ∀ suffix trees, forest.Spells (QueryGrammar.pending candidate.steps) suffix trees →
    ∃ tree, forest.Spells [root] (candidate.choices.reverse ++ suffix) [tree]

namespace Search

/-- What a search needs to know is known of every node. -/
structure InRange (search : Search κ) : Prop where
  forest : search.forest.InRange search.table
  cheapest : search.cheapest.size = search.forest.nodes.size

variable {search : Search κ} {share : Sharing κ} {pool : Pool κ} {candidate : Candidate κ}
  {alternative : Alternative} {node : Node} {root id index : Nat} {steps after : List Step}
  {frames others : List (Frame κ)} {limits : Limits} {before : Progress κ}

omit [Cost κ] in
theorem pending_of_settle
    (settled : (settle share pool steps frames).1 = some (after, others)) :
    pending after = pending steps := by
  fun_induction settle share pool steps frames with
  | case1 => cases settled
  | case2 => cases settled
  | case3 pool steps frame outer meanings closed shared pooled split ih => exact ih settled
  | case4 => cases settled; rfl

theorem enter_ok (known : alternative.InRange search.table search.forest) (rule : Rule κ)
    (pool : Pool κ) (steps : List Step) (frames : List (Frame κ)) :
    ∃ entered pooled, search.enter pool rule alternative steps frames = .ok (entered, pooled) ∧
      ∀ after others, entered = some (after, others) →
        pending after = alternative.children ++ pending steps := by
  cases known with
  | terminal _ _ present =>
      simp only [enter, Forest.matchAt, Fault.lookUp_of_lt present, bind, Except.bind]
      split
      · exact ⟨_, _, rfl, fun after others settled => by cases settled⟩
      · exact ⟨_, _, rfl, fun after others settled => pending_of_settle settled⟩
  | branch =>
      refine ⟨_, _, rfl, fun after others settled => ?_⟩
      rw [pending_of_settle settled, pending_expand]
      rfl

omit [Cost κ] in
theorem cheapestOf_ok (inRange : search.InRange) (inside : id < search.forest.nodes.size) :
    ∃ cost, search.cheapestOf id = .ok cost :=
  ⟨_, Fault.lookUp_of_lt (inRange.cheapest ▸ inside)⟩

theorem choose_ok (inRange : search.InRange) (inside : candidate.Inside search.forest root)
    (next : candidate.steps = .expand id :: steps) (found : search.forest.nodes[id]? = some node)
    (taken : node.alternatives[index]? = some alternative) (pool : Pool κ) :
    ∃ chosen pooled, search.choose candidate id steps pool alternative index =
        .ok (chosen, pooled) ∧
      ∀ successor, chosen = some successor → successor.Inside search.forest root := by
  have known := inRange.forest.alternative _ _ (Forest.has_of_getElem? found taken)
  obtain ⟨childCosts, children⟩ := exists_ok_mapM fun child member =>
    cheapestOf_ok inRange (known.children child member)
  obtain ⟨nodeCost, own⟩ := cheapestOf_ok inRange (Array.getElem?_eq_some_iff.1 found).1
  obtain ⟨rule, present⟩ := known.ruleAt
  obtain ⟨entered, pooled, entering, entry⟩ :=
    enter_ok known rule.rule pool steps candidate.frames
  simp only [choose, present, children, own, entering, bind, Except.bind]
  cases entered with
  | none => exact ⟨none, pooled, rfl, fun successor same => by cases same⟩
  | some settled =>
      obtain ⟨after, others⟩ := settled
      have waits := entry after others rfl
      refine ⟨_, pooled, rfl, fun successor same => ?_⟩
      cases same
      have waited := inside.pending
      have spelled := inside.spelled
      rw [next] at waited spelled
      refine ⟨fun other member => ?_, fun suffix trees spells => ?_⟩
      · rcases List.mem_append.1 (waits ▸ member) with child | later
        · exact known.children other child
        · exact waited other (List.mem_cons_of_mem _ later)
      · rw [waits] at spells
        obtain ⟨inner, outer, parts, rest, rfl, rfl, below, beyond⟩ := spells.split
        obtain ⟨tree, whole⟩ := spelled _ _ (.node found taken below beyond)
        exact ⟨tree, by simpa using whole⟩

theorem expandWith_ok (inRange : search.InRange) (inside : candidate.Inside search.forest root)
    (next : candidate.steps = .expand id :: steps) (found : search.forest.nodes[id]? = some node)
    {alternatives : List Alternative} (from_ : node.alternatives.drop index = alternatives)
    (pool : Pool κ) :
    ∃ expansion, search.expandWith candidate id steps alternatives index pool = .ok expansion ∧
      ∀ successor ∈ expansion.successors, successor.Inside search.forest root := by
  induction alternatives generalizing index pool with
  | nil => exact ⟨⟨[], 0, pool⟩, rfl, by simp⟩
  | cons alternative rest ih =>
      have own : node.alternatives[index]? = some alternative := by
        rw [← List.head?_drop, from_]
        rfl
      have others : node.alternatives.drop (index + 1) = rest := by
        rw [← List.tail_drop, from_]
        rfl
      obtain ⟨chosen, pooled, choosing, first⟩ := choose_ok inRange inside next found own pool
      obtain ⟨expansion, expanding, later⟩ := ih others pooled
      simp only [expandWith, choosing, expanding, bind, Except.bind]
      cases chosen with
      | none => exact ⟨_, rfl, later⟩
      | some successor => exact ⟨_, rfl, List.forall_mem_cons.2 ⟨first successor rfl, later⟩⟩

theorem expand_ok (inRange : search.InRange) (inside : candidate.Inside search.forest root)
    (next : candidate.steps = .expand id :: steps) (pool : Pool κ) :
    ∃ expansion, search.expand candidate id steps pool = .ok expansion ∧
      ∀ successor ∈ expansion.successors, successor.Inside search.forest root := by
  have own := inside.pending id (by rw [next]; exact List.mem_cons_self ..)
  obtain ⟨expansion, expanding, successors⟩ :=
    expandWith_ok inRange inside next (Array.getElem?_eq_getElem own) List.drop_zero pool
  refine ⟨expansion, ?_, successors⟩
  simp only [expand, Forest.nodeAt, Fault.lookUp_of_lt own, bind, Except.bind]
  exact expanding

/-- What every stage of a search keeps to. -/
structure Within (search : Search κ) (root : Nat) (progress : Progress κ) : Prop where
  numbered : SearchQueue.Numbered progress.queue progress.queued
  waiting : ∀ candidate ∈ progress.waiting, candidate.Inside search.forest root
  results : ∀ result ∈ progress.results, result.Spelled search.forest root

theorem Within.stopped (within : search.Within root before) : search.Within root (stopped before) :=
  ⟨within.numbered, within.waiting, within.results⟩

variable [Std.TransCmp (Cost.order : κ → κ → Ordering)] {key : κ × Nat}

theorem Within.take (within : search.Within root before)
    (first : before.queue.minEntry? = some (key, candidate)) :
    candidate.Inside search.forest root ∧ search.Within root (taken before key) := by
  obtain ⟨numbered, waited, -⟩ := within.numbered.take first
  refine ⟨within.waiting _ (waited.mem_iff.2 (List.mem_cons_self ..)), numbered,
    fun other member => ?_, within.results⟩
  exact within.waiting _ (waited.mem_iff.2 (List.mem_cons_of_mem _ member))

omit [Std.TransCmp (Cost.order : κ → κ → Ordering)] in
theorem Within.complete (within : search.Within root before)
    (inside : candidate.Inside search.forest root) (done : candidate.steps = [])
    (limits : Limits) : search.Within root (search.complete limits before candidate) := by
  have spelled : ∃ tree, search.forest.Spells [root] candidate.choices.reverse [tree] := by
    have all := inside.spelled [] []
    rw [done, List.append_nil] at all
    exact all .nil
  unfold Search.complete
  generalize finish search.share before.pool candidate = outcome
  obtain ⟨meaning, pool⟩ := outcome
  cases meaning with
  | none => exact ⟨within.numbered, within.waiting, within.results⟩
  | some meaning =>
      cases repeats : before.results.any (·.meaning == meaning) with
      | false =>
          simp only [repeats, Bool.false_eq_true, if_false]
          refine ⟨within.numbered, within.waiting, fun result member => ?_⟩
          rcases List.mem_append.1 member with earlier | last
          · exact within.results result earlier
          · rw [List.mem_singleton.1 last]
            exact ⟨spelled, by simp⟩
      | true =>
          obtain ⟨earlier, result, later, duplicates, split, -, recorded, only⟩ :=
            repeated_split limits.keepDuplicates repeats
          simp only [repeats, if_true]
          rw [recorded]
          have all := within.results
          rw [split, List.forall_mem_append, List.forall_mem_cons] at all
          obtain ⟨before, own, after⟩ := all
          refine ⟨within.numbered, within.waiting,
            List.forall_mem_append.2 ⟨before, List.forall_mem_cons.2 ⟨⟨own.choices, ?_⟩, after⟩⟩⟩
          refine List.forall_mem_append.2 ⟨own.duplicates, fun duplicate member => ?_⟩
          rw [only duplicate member]
          exact spelled

theorem Within.proceed (inRange : search.InRange) (within : search.Within root before)
    (inside : candidate.Inside search.forest root) (next : candidate.steps = .expand id :: steps) :
    ∃ after, search.proceed before candidate id steps = .ok after ∧ search.Within root after := by
  obtain ⟨expansion, expanding, successors⟩ := expand_ok inRange inside next before.pool
  obtain ⟨numbered, waits⟩ := within.numbered.enqueueAll expansion.successors
  unfold Search.proceed
  rw [expanding]
  refine ⟨_, rfl, numbered, fun other member => ?_, within.results⟩
  rcases List.mem_append.1 (waits.mem_iff.1 member) with successor | earlier
  · exact successors other successor
  · exact within.waiting other earlier

theorem explore_ok (inRange : search.InRange) (limits : Limits) (left : Nat)
    (within : search.Within root before) :
    ∃ after, search.explore limits left before = .ok after ∧ search.Within root after := by
  induction left generalizing before with
  | zero =>
      cases first : before.queue.minEntry? with
      | none => exact ⟨before, explore_idle 0 first, within⟩
      | some entry => exact ⟨_, explore_stopped first (.inl rfl), within.stopped⟩
  | succ left ih =>
      cases first : before.queue.minEntry? with
      | none => exact ⟨before, explore_idle _ first, within⟩
      | some entry =>
          obtain ⟨key, candidate⟩ := entry
          cases calm : limits.interrupted before.stats.expansions with
          | true => exact ⟨_, explore_stopped first (.inr calm), within.stopped⟩
          | false =>
              obtain ⟨inside, rest⟩ := within.take first
              rw [explore_next first calm]
              split
              · rename_i next
                obtain ⟨after, proceeding, onward⟩ := rest.proceed inRange inside next
                simp only [proceeding, bind, Except.bind]
                exact ih onward
              · exact ih rest
              · rename_i done
                have onward := rest.complete inside done limits
                dsimp only
                split
                · exact ⟨_, rfl, onward⟩
                · exact ih onward

theorem discover_ok (inRange : search.InRange) (top : search.forest.root = some root)
    (bound : root < search.forest.nodes.size) (limits : Limits) :
    ∃ final, search.discover limits = .ok final ∧
      ∀ result ∈ final.results, result.Spelled search.forest root := by
  unfold discover
  simp only [top]
  split
  · exact ⟨_, rfl, by simp [emptyProgress]⟩
  · obtain ⟨cost, lowest⟩ := cheapestOf_ok inRange bound
    have first : Candidate.Inside search.forest root (firstCandidate root cost) :=
      ⟨List.forall_mem_singleton.2 bound, fun suffix trees spells => by
        have single : search.forest.Spells [root] suffix trees := spells
        obtain ⟨node, index, alternative, inner, parts, -, -, -, -, rfl⟩ :=
          Forest.spells_one.1 single
        exact ⟨_, single⟩⟩
    have start : search.Within root (firstProgress root cost) := by
      refine ⟨(SearchQueue.numbered_empty.insert (firstCandidate root cost)).1,
        fun candidate member => ?_, by simp [firstProgress, emptyProgress]⟩
      rwa [List.mem_singleton.1 (firstProgress_waiting.mem_iff.1 member)]
    obtain ⟨final, exploring, within⟩ := explore_ok inRange limits limits.maxExpansions start
    refine ⟨final, ?_, within.results⟩
    simp only [lowest, exploring, bind, Except.bind]

end Search

namespace Forest

variable {table : Table κ} {forest : Forest} {root : Nat}

variable [Std.TransCmp (Cost.order : κ → κ → Ordering)]

/-- No search meets a fault where children come to an end, whatever its limits. -/
theorem InRange.search (inRange : forest.InRange table) (founded : forest.Founded)
    (top : forest.root = some root) (bound : root < forest.nodes.size) (limits : Limits) :
    ∃ results stats, forest.search table limits = .ok (results, stats) ∧
      ∀ result ∈ results, result.Spelled forest root := by
  obtain ⟨costs, cheapest, size⟩ := inRange.cheapest founded
  have known : Search.InRange ⟨table, forest, costs, Pool.intern⟩ := ⟨inRange, size⟩
  obtain ⟨final, discovering, spelled⟩ := Search.discover_ok known top bound limits
  refine ⟨final.results.mergeSort Search.isCheaper, final.stats, ?_, fun result member => ?_⟩
  · simp only [Forest.search, Search.sharing, cheapest, Search.run, discovering, bind, Except.bind]
  · exact spelled result (List.mem_mergeSort.1 member)

omit [Std.TransCmp (Cost.order : κ → κ → Ordering)] in
/-- A search begins with the costs of all nodes. -/
theorem InRange.search_endless (inRange : forest.InRange table) (circular : ¬ forest.Founded)
    (limits : Limits) : forest.search table limits = .error .endless := by
  simp only [Forest.search, Search.sharing, inRange.cheapest_endless circular, bind, Except.bind]

theorem InRange.spelled {results : List (Derivation κ)} {stats : SearchStats}
    (inRange : forest.InRange table) (top : forest.root = some root)
    (bound : root < forest.nodes.size) {limits : Limits}
    (searching : forest.search table limits = .ok (results, stats)) :
    ∀ result ∈ results, result.Spelled forest root := by
  by_cases founded : forest.Founded
  · obtain ⟨_, _, again, spelled⟩ := inRange.search founded top bound limits
    cases searching.symm.trans again
    exact spelled
  · cases searching.symm.trans (inRange.search_endless founded limits)

theorem InRange.search_inBounds (inRange : forest.InRange table) (top : forest.root = some root)
    (bound : root < forest.nodes.size) (limits : Limits) :
    Fault.InBounds (forest.search table limits) := by
  by_cases founded : forest.Founded
  · obtain ⟨results, stats, searching, -⟩ := inRange.search founded top bound limits
    exact searching ▸ Fault.inBounds_ok (results, stats)
  · exact inRange.search_endless founded limits ▸ Fault.inBounds_error rfl

end Forest

end QueryGrammar
