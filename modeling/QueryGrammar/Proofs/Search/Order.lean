import QueryGrammar.Proofs.Search.Limits

namespace QueryGrammar

/-! The order in which a search takes candidates.

Main statement: a turn takes the entry of the queue that is first by bound and number, and its
successors are queued with the numbers that follow, in the order of their alternatives.  So whatever
such turns keep is kept by a search up to any limits.
-/

open Std

variable {κ : Type}

/-- A candidate in the queue, under its bound and its number. -/
abbrev Entry (κ : Type) := (κ × Nat) × Candidate κ

/-- Candidates in order, with numbers that go on from those given out. -/
def entriesFrom (queued : Nat) (successors : List (Candidate κ)) : List (Entry κ) :=
  (successors.zipIdx queued).map fun placed => ((placed.1.bound, placed.2), placed.1)

theorem mem_entriesFrom {queued : Nat} {successors : List (Candidate κ)} {entry : Entry κ} :
    entry ∈ entriesFrom queued successors ↔ ∃ (place : Nat) (successor : Candidate κ),
      successors[place]? = some successor ∧
        entry = ((successor.bound, queued + place), successor) := by
  rw [entriesFrom, List.mem_map]
  constructor
  · intro given
    obtain ⟨⟨successor, number⟩, member, rfl⟩ := given
    obtain ⟨after, placed⟩ := List.mk_mem_zipIdx_iff_le_and_getElem?_sub.1 member
    exact ⟨number - queued, successor, placed, by rw [Nat.add_sub_cancel' after]⟩
  · intro given
    obtain ⟨place, successor, placed, rfl⟩ := given
    exact ⟨(successor, queued + place), List.mk_add_mem_zipIdx_iff_getElem?.2 placed, rfl⟩

theorem SearchQueue.Numbered.toList_enqueueAll [Cost κ]
    [TransCmp (Cost.order : κ → κ → Ordering)] {queue : SearchQueue κ} {queued : Nat}
    (numbered : Numbered queue queued) (successors : List (Candidate κ)) :
    (Search.enqueueAll successors queue queued).1.toList.Perm
      (entriesFrom queued successors ++ queue.toList) := by
  induction successors generalizing queue queued with
  | nil => exact .refl _
  | cons first rest ih =>
      have added := numbered.toList_insert first
      have others := ih (numbered.insert first).1
      exact (others.trans (added.append_left _)).trans List.perm_middle

variable [Cost κ]

namespace Search

variable {search : Search κ} {lattice : Lattice} {kindOf : String → ConceptKind}
  {InUse : Pool κ → Prop} {root id left : Nat} {limits : Limits} {before after final : Progress κ}
  {candidate : Candidate κ} {key : κ × Nat} {steps : List Step} {meaning : Interpretation κ}

/-- The first entry is taken from the queue, and successors are queued behind the others. -/
structure Serves (before after : Progress κ) (entry : Entry κ) (successors : List (Candidate κ))
    (rest : List (Entry κ)) : Prop where
  taken : before.queue.toList.Perm (entry :: rest)
  first : ∀ other ∈ rest, orderOfQueue entry.1 other.1 = .lt
  queued : after.queue.toList.Perm (entriesFrom before.queued successors ++ rest)

section

variable {entry : Entry κ} {successors : List (Candidate κ)} {rest : List (Entry κ)}

theorem Serves.served (serves : Serves before after entry successors rest) :
    entry ∈ before.queue.toList :=
  serves.taken.mem_iff.2 (List.mem_cons_self ..)

theorem Serves.waited (serves : Serves before after entry successors rest) :
    ∀ other ∈ rest, other ∈ before.queue.toList :=
  fun _ later => serves.taken.mem_iff.2 (List.mem_cons_of_mem _ later)

end

/-- What a turn does with the first entry of the queue. -/
inductive Round (search : Search κ) (kindOf : String → ConceptKind) (root : Nat)
    (before after : Progress κ) : Prop
  | expanded {entry : Entry κ} {successors : List (Candidate κ)} {rest : List (Entry κ)} {id : Nat}
      {steps : List Step} {node : Node} :
      Serves before after entry successors rest → entry.2.Stands search kindOf root →
      entry.2.steps = .expand id :: steps → search.forest.nodes[id]? = some node →
      Expands search kindOf root entry.2 id steps 0 node.alternatives successors →
      after.results = before.results → Round search kindOf root before after
  | completed {entry : Entry κ} {rest : List (Entry κ)} :
      Serves before after entry [] rest → entry.2.Stands search kindOf root →
      entry.2.steps = [] → Continues before.results after.results →
      (∀ (place : Nat) result, before.results.length ≤ place → after.results[place]? = some result →
        result.choices = entry.2.choices.reverse) →
      (∀ meaning, Means search root entry.2.choices.reverse meaning →
        ∃ result ∈ after.results, result.meaning.costless = meaning.costless) →
      Round search kindOf root before after

/-! What becomes of the first entry. -/

theorem proceed_queue {expansion : Expansion κ}
    (expanding : search.expand candidate id steps before.pool = .ok expansion)
    (proceeding : search.proceed before candidate id steps = .ok after) :
    after.queue = (enqueueAll expansion.successors before.queue before.queued).1 := by
  simp only [proceed, expanding, bind, Except.bind, Except.ok.injEq] at proceeding
  rw [← proceeding]

/-- A complete candidate adds a result of its own or none. -/
theorem complete_cases (search : Search κ) (limits : Limits) (before : Progress κ)
    (candidate : Candidate κ) :
    (search.complete limits before candidate).queue = before.queue ∧
    ((search.complete limits before candidate).results.length = before.results.length ∨
      ∃ meaning, (search.complete limits before candidate).results =
        before.results ++ [⟨candidate.cost, meaning, candidate.choices.reverse, []⟩]) := by
  unfold complete
  generalize finish search.share before.pool candidate = outcome
  obtain ⟨meaning, pool⟩ := outcome
  cases meaning with
  | none => exact ⟨rfl, .inl rfl⟩
  | some meaning =>
      cases repeats : before.results.any (·.meaning == meaning) with
      | false =>
          simp only [repeats, Bool.false_eq_true, if_false]
          exact ⟨trivial, .inr ⟨meaning, rfl⟩⟩
      | true =>
          simp only [repeats, if_true]
          refine ⟨trivial, .inl ?_⟩
          split
          · have same := congrArg List.length
              (addDuplicate_bare ⟨candidate.cost, candidate.choices.reverse⟩ meaning before.results)
            rwa [List.length_map, List.length_map] at same
          · rfl

/-- A result that is new has the choices of the candidate. -/
theorem choices_of_complete {place : Nat} {result : Derivation κ}
    (new : before.results.length ≤ place)
    (found : (search.complete limits before candidate).results[place]? = some result) :
    result.choices = candidate.choices.reverse := by
  rcases (complete_cases search limits before candidate).2 with same | ⟨meaning, added⟩
  · rw [List.getElem?_eq_none (same ▸ new)] at found
    cases found
  · rw [added, List.getElem?_append_right new] at found
    rw [List.mem_singleton.1 (List.mem_of_getElem? found)]

/-- The meaning of a complete candidate is among the results from then on. -/
theorem complete_finds (ready : search.Ready lattice kindOf InUse)
    (sound : Sound search kindOf InUse root before) (stands : candidate.Stands search kindOf root)
    (done : candidate.steps = []) (means : Means search root candidate.choices.reverse meaning) :
    ∃ result ∈ (search.complete limits (taken before key) candidate).results,
      result.meaning.costless = meaning.costless := by
  obtain ⟨tree, outcome, pool, finishing, spells, meanings, kinded, -⟩ :=
    finish_spec ready sound.inUse stands done
  obtain ⟨again, spellsAlso, known⟩ := means
  cases spells.trees_unique spellsAlso
  rw [known, Option.map_some] at meanings
  obtain ⟨own, rfl, same⟩ := Option.map_eq_some_iff.1 meanings
  have pools : finish search.share (taken before key).pool candidate = (some own, pool) := finishing
  cases repeats : before.results.any (·.meaning == own) with
  | false =>
      have repeatsTaken : (taken before key).results.any (·.meaning == own) = false := repeats
      simp only [complete, pools, repeatsTaken, Bool.false_eq_true, if_false]
      exact ⟨_, List.mem_append_right _ (List.mem_singleton_self _), same⟩
  | true =>
      have repeatsTaken : (taken before key).results.any (·.meaning == own) = true := repeats
      obtain ⟨earlier, result, later, duplicates, split, equal, recorded, -⟩ :=
        repeated_split limits.keepDuplicates repeats
      have member : result ∈ before.results := by simp [split]
      have alike := Interpretation.costless_eq_of_beq equal (sound.kinded result member)
        (kinded own rfl)
      simp only [complete, pools, repeatsTaken, if_true]
      exact ⟨{ result with duplicates := result.duplicates ++ duplicates },
        recorded ▸ List.mem_append_right _ (List.mem_cons_self ..), alike.trans same⟩

variable [TransCmp (Cost.order : κ → κ → Ordering)]

/-- A search goes on by turns that serve the first entry of the queue. -/
theorem advance_round (ready : search.Ready lattice kindOf InUse)
    (sound : Sound search kindOf InUse root before)
    (unfinished : before.results.length < limits.results)
    {outcome : Except Fault (Progress κ)} (going : search.advance limits before = some outcome) :
    ∃ after, outcome = .ok after ∧ Turn search limits kindOf root before after ∧
      Sound search kindOf InUse root after ∧ Round search kindOf root before after := by
  obtain ⟨⟨key, candidate⟩, first, outcomes⟩ := Option.map_eq_some_iff.1 going
  simp only at outcomes
  obtain ⟨numbered, waited, -⟩ := sound.numbered.take first
  obtain ⟨entries, earlier⟩ := minEntry?_spec first
  have stands := sound.stands candidate (waited.mem_iff.2 (List.mem_cons_self ..))
  cases next : candidate.steps with
  | nil =>
      obtain ⟨turn, soundAfter⟩ := complete_spec ready sound unfinished first next
      have new : ∀ (place : Nat) result, (taken before key).results.length ≤ place →
          (search.complete limits (taken before key) candidate).results[place]? = some result →
            result.choices = candidate.choices.reverse := fun _ _ => choices_of_complete
      simp only [next] at outcomes
      refine ⟨_, outcomes.symm, turn, soundAfter, .completed ⟨entries, earlier, ?_⟩ stands next
        (continues_complete search limits (taken before key) candidate).1 new
        fun meaning => complete_finds ready sound stands next⟩
      rw [(complete_cases search limits (taken before key) candidate).1]
      exact .refl _
  | cons step steps =>
      cases step with
      | close => exact absurd next (stands.settled steps)
      | expand id =>
          obtain ⟨after, proceeding, turn, soundAfter, same⟩ :=
            proceed_spec ready sound unfinished first next
          obtain ⟨node, expansion, found, expanding, -, expands⟩ :=
            expand_spec ready sound.inUse stands next
          have expandingTaken : search.expand candidate id steps (taken before key).pool =
            .ok expansion := expanding
          simp only [next] at outcomes
          refine ⟨after, outcomes.symm.trans proceeding, turn, soundAfter,
            .expanded ⟨entries, earlier, ?_⟩ stands next found expands same⟩
          rw [proceed_queue expandingTaken proceeding]
          exact numbered.toList_enqueueAll expansion.successors

/-- What every turn keeps, a search keeps. -/
theorem explore_keeps {keeps : Progress κ → Prop} (ready : search.Ready lattice kindOf InUse)
    (step : ∀ {before after}, Sound search kindOf InUse root before →
      Turn search limits kindOf root before after → Round search kindOf root before after →
      keeps before → keeps after)
    (stop : ∀ {before}, keeps before → keeps (stopped before))
    (sound : Sound search kindOf InUse root before)
    (unfinished : before.results.length < limits.results) (kept : keeps before)
    (exploring : search.explore limits left before = .ok final) : keeps final := by
  induction left generalizing before with
  | zero =>
      cases first : before.queue.minEntry? with
      | none =>
          rw [explore_idle 0 first] at exploring
          cases exploring
          exact kept
      | some entry =>
          rw [explore_stopped first (.inl rfl)] at exploring
          cases exploring
          exact stop kept
  | succ left ih =>
      cases going : search.advance limits before with
      | none =>
          rw [explore_idle _ (advance_eq_none going)] at exploring
          cases exploring
          exact kept
      | some outcome =>
          cases calm : limits.interrupted before.stats.expansions with
          | true =>
              obtain ⟨entry, first⟩ := exists_first going
              rw [explore_stopped first (.inr calm)] at exploring
              cases exploring
              exact stop kept
          | false =>
              obtain ⟨after, rfl, turn, soundAfter, round⟩ :=
                advance_round ready sound unfinished going
              have keptAfter := step sound turn round kept
              rw [explore_advance unfinished calm going] at exploring
              simp only [Except.bind] at exploring
              split at exploring
              · cases exploring
                exact keptAfter
              · rename_i more
                exact ih soundAfter (Nat.lt_of_le_of_ne turn.length_le more) keptAfter exploring

theorem discover_keeps {keeps : Progress κ → Prop} (ready : search.Ready lattice kindOf InUse)
    (inUse : InUse .empty) (top : search.forest.root = some root)
    (inside : root < search.forest.nodes.size) (wanted : limits.results ≠ 0)
    (step : ∀ {before after}, Sound search kindOf InUse root before →
      Turn search limits kindOf root before after → Round search kindOf root before after →
      keeps before → keeps after)
    (stop : ∀ {before}, keeps before → keeps (stopped before))
    (start : keeps (firstProgress root (search.cheapestAt root)))
    (discovering : search.discover limits = .ok final) : keeps final := by
  simp only [discover, top, wanted, if_false, lookUp_cheapest ready inside, bind, Except.bind]
    at discovering
  exact explore_keeps ready step stop (firstProgress_sound inside inUse)
    (Nat.pos_of_ne_zero wanted) start discovering

end Search

end QueryGrammar
