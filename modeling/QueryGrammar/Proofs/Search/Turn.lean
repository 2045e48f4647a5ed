import Mathlib.Logic.Relation
import QueryGrammar.Proofs.Search.Queue
import QueryGrammar.Proofs.Search.Successors

namespace QueryGrammar

/-! Turns of a search.

Main statement: a search goes from turn to turn until nothing waits, until there are as many results
as wanted, or up to a limit.  A turn replaces the candidate with the lowest bound by its successors
or takes it up, if it is complete.
-/

open Std

variable {κ : Type} [Cost κ]

def Progress.waiting (progress : Progress κ) : List (Candidate κ) :=
  progress.queue.candidates

namespace Search

variable {search : Search κ} {lattice : Lattice} {kindOf : String → ConceptKind}
  {InUse : Pool κ → Prop} {root : Nat} {limits : Limits} {before after : Progress κ}
  {candidate : Candidate κ} {key : κ × Nat} {meaning : Interpretation κ}
  {results : List (Derivation κ)} {duplicate : Duplicate κ}

/-- Choices make up a whole derivation that has a meaning. -/
def Means (search : Search κ) (root : Nat) (choices : List Choice) (meaning : Interpretation κ) :
    Prop :=
  ∃ tree, search.forest.Spells [root] choices [tree] ∧
    tree.interpretation? search.table search.forest = some meaning

/-- What every turn has in common: it takes a candidate with the lowest bound and queues others. -/
structure Takes (limits : Limits) (before after : Progress κ) (candidate : Candidate κ)
    (successors others : List (Candidate κ)) : Prop where
  unfinished : before.results.length < limits.results
  waited : before.waiting.Perm (candidate :: others)
  waits : after.waiting.Perm (successors ++ others)
  lowest : ∀ other ∈ others, (Cost.order candidate.bound other.bound).isLE
  expansions : after.stats.expansions = before.stats.expansions + 1

/-- What a turn does with the candidate that it takes. -/
inductive Turn (search : Search κ) (limits : Limits) (kindOf : String → ConceptKind) (root : Nat)
    (before after : Progress κ) : Prop
  | expanded {candidate : Candidate κ} {successors others : List (Candidate κ)} {id : Nat}
      {steps : List Step} {node : Node} :
      Takes limits before after candidate successors others →
      candidate.Stands search kindOf root → candidate.steps = .expand id :: steps →
      search.forest.nodes[id]? = some node →
      Expands search kindOf root candidate id steps 0 node.alternatives successors →
      after.results = before.results → after.stats.duplicates = before.stats.duplicates →
      Turn search limits kindOf root before after
  | illegal {candidate : Candidate κ} {others : List (Candidate κ)} {tree : Tree} :
      Takes limits before after candidate [] others →
      candidate.Stands search kindOf root → candidate.steps = [] →
      search.forest.Spells [root] candidate.choices.reverse [tree] →
      tree.interpretation? search.table search.forest = none →
      after.results = before.results → after.stats.duplicates = before.stats.duplicates →
      Turn search limits kindOf root before after
  | found {candidate : Candidate κ} {others : List (Candidate κ)}
      {own meaning : Interpretation κ} :
      Takes limits before after candidate [] others →
      candidate.Stands search kindOf root → candidate.steps = [] →
      Means search root candidate.choices.reverse own → own.costless = meaning.costless →
      (∀ result ∈ before.results, (result.meaning == meaning) = false) →
      after.results = before.results ++ [⟨candidate.cost, meaning, candidate.choices.reverse, []⟩] →
      after.stats.duplicates = before.stats.duplicates →
      Turn search limits kindOf root before after
  | repeated {candidate : Candidate κ} {others : List (Candidate κ)} {own : Interpretation κ}
      {first rest : List (Derivation κ)} {result : Derivation κ}
      {duplicates : List (Duplicate κ)} :
      Takes limits before after candidate [] others →
      candidate.Stands search kindOf root → candidate.steps = [] →
      Means search root candidate.choices.reverse own → own.costless = result.meaning.costless →
      before.results = first ++ result :: rest →
      after.results =
        first ++ { result with duplicates := result.duplicates ++ duplicates } :: rest →
      (∀ duplicate ∈ duplicates, duplicate = ⟨candidate.cost, candidate.choices.reverse⟩) →
      after.stats.duplicates = before.stats.duplicates + 1 →
      Turn search limits kindOf root before after

/-- A search that can go on. -/
structure Sound (search : Search κ) (kindOf : String → ConceptKind) (InUse : Pool κ → Prop)
    (root : Nat) (progress : Progress κ) : Prop where
  numbered : SearchQueue.Numbered progress.queue progress.queued
  inUse : InUse progress.pool
  stands : ∀ candidate ∈ progress.waiting, candidate.Stands search kindOf root
  kinded : ∀ result ∈ progress.results, ∀ root ∈ result.meaning.roots, root.Kinded kindOf
  running : progress.stats.truncated = false

omit [Cost κ] in
theorem addDuplicate_split (present : results.any (·.meaning == meaning) = true) :
    ∃ first result rest, results = first ++ result :: rest ∧
      (result.meaning == meaning) = true ∧ addDuplicate duplicate meaning results =
        first ++ { result with duplicates := result.duplicates ++ [duplicate] } :: rest := by
  induction results with
  | nil => simp at present
  | cons first rest ih =>
      by_cases same : (first.meaning == meaning) = true
      · exact ⟨[], first, rest, rfl, same, by simp [addDuplicate, same]⟩
      · rw [List.any_cons, Bool.or_eq_true, or_iff_right same] at present
        obtain ⟨earlier, result, later, rfl, equal, added⟩ := ih present
        exact ⟨first :: earlier, result, later, rfl, equal, by simp [addDuplicate, same, added]⟩

omit [Cost κ] in
/-- A repeated meaning has a result already, which may record the derivation. -/
theorem repeated_split (keep : Bool) (present : results.any (·.meaning == meaning) = true) :
    ∃ first result rest duplicates, results = first ++ result :: rest ∧
      (result.meaning == meaning) = true ∧
      (if keep then addDuplicate duplicate meaning results else results) =
        first ++ { result with duplicates := result.duplicates ++ duplicates } :: rest ∧
      ∀ other ∈ duplicates, other = duplicate := by
  obtain ⟨first, result, rest, split, equal, added⟩ :=
    addDuplicate_split present
  cases keep with
  | true => exact ⟨first, result, rest, [duplicate], split, equal, added, by simp⟩
  | false => exact ⟨first, result, rest, [], split, equal, by simp [split], by simp⟩

theorem Turn.expansions (turn : Turn search limits kindOf root before after) :
    after.stats.expansions = before.stats.expansions + 1 := by
  cases turn with
  | expanded takes => exact takes.expansions
  | illegal takes => exact takes.expansions
  | found takes => exact takes.expansions
  | repeated takes => exact takes.expansions

theorem Turn.length_le (turn : Turn search limits kindOf root before after) :
    after.results.length ≤ limits.results := by
  cases turn with
  | expanded takes _ _ _ _ same => exact same ▸ Nat.le_of_lt takes.unfinished
  | illegal takes _ _ _ _ same => exact same ▸ Nat.le_of_lt takes.unfinished
  | found takes _ _ _ _ _ same =>
      have unfinished := takes.unfinished
      simp only [same, List.length_append, List.length_singleton]
      omega
  | repeated takes _ _ _ _ split same =>
      have unfinished := takes.unfinished
      simp only [split, same, List.length_append, List.length_cons] at *
      omega

def taken (progress : Progress κ) (key : κ × Nat) : Progress κ :=
  { progress with
    queue := progress.queue.erase key
    stats := { progress.stats with expansions := progress.stats.expansions + 1 } }

def stopped (progress : Progress κ) : Progress κ :=
  { progress with stats := { progress.stats with truncated := true } }

theorem explore_idle (left : Nat) (idle : before.queue.minEntry? = none) :
    search.explore limits left before = .ok before := by
  cases left with
  | zero => simp only [explore, idle]
  | succ left => simp only [explore, idle]

theorem explore_stopped {left : Nat} (first : before.queue.minEntry? = some (key, candidate))
    (cause : left = 0 ∨ limits.interrupted before.stats.expansions = true) :
    search.explore limits left before = .ok (stopped before) := by
  cases left with
  | zero =>
      rw [explore]
      simp only [first]
      rfl
  | succ left =>
      have interrupted := cause.resolve_left (Nat.succ_ne_zero left)
      rw [explore]
      simp only [first, interrupted, if_true]
      rfl

section

variable [TransCmp (Cost.order : κ → κ → Ordering)]

theorem complete_spec (ready : search.Ready lattice kindOf InUse)
    (sound : Sound search kindOf InUse root before)
    (unfinished : before.results.length < limits.results)
    (first : before.queue.minEntry? = some (key, candidate)) (done : candidate.steps = []) :
    Turn search limits kindOf root before
        (search.complete limits (taken before key) candidate) ∧
      Sound search kindOf InUse root (search.complete limits (taken before key) candidate) := by
  obtain ⟨numbered, waited, lowest⟩ := sound.numbered.take first
  have stands := sound.stands candidate (waited.mem_iff.2 (List.mem_cons_self ..))
  have others : ∀ other ∈ SearchQueue.candidates (before.queue.erase key),
      other.Stands search kindOf root := fun other member =>
    sound.stands other (waited.mem_iff.2 (List.mem_cons_of_mem _ member))
  obtain ⟨tree, outcome, pool, finishing, spells, meanings, kinded, inUse⟩ :=
    finish_spec ready sound.inUse stands done
  have pools : finish search.share (taken before key).pool candidate = (outcome, pool) := finishing
  cases outcome with
  | none =>
      have nothing : tree.interpretation? search.table search.forest = none := by
        simpa using meanings.symm
      simp only [complete, pools]
      exact ⟨.illegal ⟨unfinished, waited, .refl _, lowest, rfl⟩ stands done spells nothing rfl rfl,
        numbered, inUse, others, sound.kinded, sound.running⟩
  | some meaning =>
      obtain ⟨own, known, same⟩ : ∃ own, tree.interpretation? search.table search.forest = some own ∧
          own.costless = meaning.costless := by
        simpa using meanings.symm
      have means : Means search root candidate.choices.reverse own := ⟨tree, spells, known⟩
      have ownKinded := kinded meaning rfl
      cases repeats : before.results.any (·.meaning == meaning) with
      | false =>
          have repeatsTaken : (taken before key).results.any (·.meaning == meaning) = false :=
            repeats
          simp only [complete, pools, repeatsTaken, Bool.false_eq_true, if_false]
          refine ⟨.found ⟨unfinished, waited, .refl _, lowest, rfl⟩ stands done means same
            (fun result member => ?_) rfl rfl, numbered, inUse, others, ?_, sound.running⟩
          · simpa using List.any_eq_false.1 repeats result member
          · intro result member
            rcases List.mem_append.1 member with earlier | last
            · exact sound.kinded result earlier
            · rw [List.mem_singleton.1 last]
              exact ownKinded
      | true =>
          have repeatsTaken : (taken before key).results.any (·.meaning == meaning) = true :=
            repeats
          obtain ⟨earlier, result, later, duplicates, split, equal, recorded, only⟩ :=
            repeated_split limits.keepDuplicates repeats
          have member : result ∈ before.results := by simp [split]
          have alike := Interpretation.costless_eq_of_beq equal (sound.kinded result member) ownKinded
          simp only [complete, pools, repeatsTaken, if_true]
          refine ⟨.repeated ⟨unfinished, waited, .refl _, lowest, rfl⟩ stands done means
            (same.trans alike.symm) split recorded only rfl, numbered, inUse, others,
            fun other known => ?_, sound.running⟩
          have listed : other ∈ earlier ++
              { result with duplicates := result.duplicates ++ duplicates } :: later :=
            recorded ▸ known
          rcases List.mem_append.1 listed with earlier | later
          · exact sound.kinded other (by simp [split, earlier])
          · rcases List.mem_cons.1 later with rfl | later
            · exact sound.kinded result member
            · exact sound.kinded other (by simp [split, later])

theorem proceed_spec (ready : search.Ready lattice kindOf InUse)
    (sound : Sound search kindOf InUse root before)
    (unfinished : before.results.length < limits.results)
    (first : before.queue.minEntry? = some (key, candidate)) {id : Nat} {steps : List Step}
    (next : candidate.steps = .expand id :: steps) :
    ∃ after, search.proceed (taken before key) candidate id steps = .ok after ∧
      Turn search limits kindOf root before after ∧ Sound search kindOf InUse root after ∧
      after.results = before.results := by
  obtain ⟨numbered, waited, lowest⟩ := sound.numbered.take first
  have stands := sound.stands candidate (waited.mem_iff.2 (List.mem_cons_self ..))
  obtain ⟨node, expansion, found, expanding, inUse, expands⟩ :=
    expand_spec ready sound.inUse stands next
  obtain ⟨numberedAfter, waits⟩ := numbered.enqueueAll expansion.successors
  have pools : search.expand candidate id steps (taken before key).pool = .ok expansion := expanding
  have proceeding : search.proceed (taken before key) candidate id steps = .ok { before with
      queue := (enqueueAll expansion.successors (before.queue.erase key) before.queued).1
      queued := (enqueueAll expansion.successors (before.queue.erase key) before.queued).2
      pool := expansion.pool
      stats := { (taken before key).stats with
        discarded := before.stats.discarded + expansion.dropped } } := by
    simp only [proceed, pools, bind, Except.bind]
    rfl
  refine ⟨_, proceeding, .expanded ⟨unfinished, waited, waits, lowest, rfl⟩ stands next
    found expands rfl rfl,
    ⟨numberedAfter, inUse, fun other member => ?_, sound.kinded, sound.running⟩, rfl⟩
  rcases List.mem_append.1 (waits.mem_iff.1 member) with successor | earlier
  · exact expands.stands other successor
  · exact sound.stands other (waited.mem_iff.2 (List.mem_cons_of_mem _ earlier))

/-- As long as a candidate waits and no limit is reached, a search goes on with a turn. -/
theorem turn_spec (ready : search.Ready lattice kindOf InUse)
    (sound : Sound search kindOf InUse root before)
    (unfinished : before.results.length < limits.results)
    (first : before.queue.minEntry? = some (key, candidate))
    (calm : limits.interrupted before.stats.expansions = false) :
    ∃ after, Turn search limits kindOf root before after ∧
      Sound search kindOf InUse root after ∧
      ∀ left, search.explore limits (left + 1) before =
        if after.results.length = limits.results then .ok after
        else search.explore limits left after := by
  have stands := sound.stands candidate
    ((sound.numbered.take first).2.1.mem_iff.2 (List.mem_cons_self ..))
  cases steps : candidate.steps with
  | nil =>
      obtain ⟨turn, soundAfter⟩ := complete_spec ready sound unfinished first steps
      refine ⟨_, turn, soundAfter, fun left => ?_⟩
      rw [explore]
      simp only [first, calm, steps, Bool.false_eq_true, if_false]
      rfl
  | cons step rest =>
      cases step with
      | close => exact absurd steps (stands.settled rest)
      | expand id =>
          obtain ⟨after, proceeding, turn, soundAfter, same⟩ :=
            proceed_spec ready sound unfinished first steps
          refine ⟨after, turn, soundAfter, fun left => ?_⟩
          have more : after.results.length ≠ limits.results := by
            rw [same]
            exact Nat.ne_of_lt unfinished
          simp only [taken] at proceeding
          rw [explore]
          simp only [first, calm, steps, Bool.false_eq_true, if_false, if_neg more, proceeding,
            bind, Except.bind]

/-- Where a search that began somewhere ends. -/
def Ends (limits : Limits) (bound : Nat) (last final : Progress κ) : Prop :=
  (final = last ∧ (last.waiting = [] ∨ last.results.length = limits.results)) ∨
    (final = stopped last ∧ last.waiting ≠ [] ∧ last.results.length < limits.results ∧
      (bound ≤ last.stats.expansions ∨ limits.interrupted last.stats.expansions = true))

theorem Sound.waiting_ne_nil (sound : Sound search kindOf InUse root before)
    (first : before.queue.minEntry? = some (key, candidate)) : before.waiting ≠ [] := by
  intro nothing
  have waited : candidate ∈ before.waiting :=
    (sound.numbered.take first).2.1.mem_iff.2 (List.mem_cons_self ..)
  rw [nothing] at waited
  cases waited

theorem explore_spec (left : Nat) (ready : search.Ready lattice kindOf InUse)
    (sound : Sound search kindOf InUse root before)
    (unfinished : before.results.length < limits.results) :
    ∃ last final, search.explore limits left before = .ok final ∧
      Relation.ReflTransGen (Turn search limits kindOf root) before last ∧
      Sound search kindOf InUse root last ∧
      Ends limits (before.stats.expansions + left) last final := by
  induction left generalizing before with
  | zero =>
      cases first : before.queue.minEntry? with
      | none =>
          exact ⟨before, before, explore_idle 0 first, .refl, sound,
            .inl ⟨rfl, .inl (SearchQueue.candidates_eq_nil first)⟩⟩
      | some entry =>
          exact ⟨before, stopped before, explore_stopped first (.inl rfl), .refl, sound,
            .inr ⟨rfl, sound.waiting_ne_nil first, unfinished, .inl (Nat.le_refl _)⟩⟩
  | succ left ih =>
      cases first : before.queue.minEntry? with
      | none =>
          exact ⟨before, before, explore_idle _ first, .refl, sound,
            .inl ⟨rfl, .inl (SearchQueue.candidates_eq_nil first)⟩⟩
      | some entry =>
          cases calm : limits.interrupted before.stats.expansions with
          | true =>
              exact ⟨before, stopped before, explore_stopped first (.inr calm), .refl, sound,
                .inr ⟨rfl, sound.waiting_ne_nil first, unfinished, .inr calm⟩⟩
          | false =>
              obtain ⟨after, turn, soundAfter, going⟩ :=
                turn_spec ready sound unfinished first calm
              rw [going]
              split
              · rename_i enough
                exact ⟨after, after, rfl, .single turn, soundAfter, .inl ⟨rfl, .inr enough⟩⟩
              · rename_i more
                obtain ⟨last, final, exploring, turns, soundLast, ends⟩ :=
                  ih soundAfter (Nat.lt_of_le_of_ne turn.length_le more)
                refine ⟨last, final, exploring, .head turn turns, soundLast, ?_⟩
                rw [turn.expansions, Nat.add_assoc, Nat.add_comm 1] at ends
                exact ends

end

end Search

end QueryGrammar
