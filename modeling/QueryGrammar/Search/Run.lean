import Std.Data.TreeMap
import QueryGrammar.Forest.Cheapest
import QueryGrammar.Meaning.Interpretation
import QueryGrammar.Search.Candidate

namespace QueryGrammar

/-! Searching a forest for its cheapest meanings.

Candidates wait in a queue, the one with the lowest bound first and of several the earliest.  A
complete candidate is a result unless its meaning was found before.  The search ends when it has
enough results, when nothing waits any more, or at a limit.
-/

structure Limits where
  /-- How many results are wanted. -/
  results : Nat
  maxExpansions : Nat
  /-- Whether to keep the derivations that repeat a meaning. -/
  keepDuplicates : Bool
  /-- Whether the search is told to stop once so many candidates have been expanded. -/
  interrupted : Nat → Bool

structure SearchStats where
  /-- Candidates taken from the queue. -/
  expansions : Nat
  /-- Candidates dropped because meanings do not combine. -/
  discarded : Nat
  /-- Complete derivations that repeat a meaning. -/
  duplicates : Nat
  /-- Whether a limit ended the search. -/
  truncated : Bool
deriving DecidableEq, Repr

/-- A later derivation of a meaning. -/
structure Duplicate (κ : Type) where
  cost : κ
  choices : List Choice

/-- The cheapest derivation of a meaning, as the choices it takes in pre-order. -/
structure Derivation (κ : Type) where
  cost : κ
  meaning : Interpretation κ
  choices : List Choice
  duplicates : List (Duplicate κ)

/-- By bound, then by number. -/
def orderOfQueue {κ : Type} [Cost κ] (first second : κ × Nat) : Ordering :=
  (Cost.order first.1 second.1).then (compare first.2 second.2)

abbrev SearchQueue (κ : Type) [Cost κ] :=
  Std.TreeMap (κ × Nat) (Candidate κ) orderOfQueue

/-- Where a search stands. -/
structure Progress (κ : Type) [Cost κ] where
  queue : SearchQueue κ
  /-- How many candidates have been queued. -/
  queued : Nat
  pool : Pool κ
  stats : SearchStats
  /-- Results in the order in which they were found. -/
  results : List (Derivation κ)

namespace Search

variable {κ : Type} [Cost κ]

def enqueueAll : List (Candidate κ) → SearchQueue κ → Nat → SearchQueue κ × Nat
  | [], queue, queued => (queue, queued)
  | candidate :: rest, queue, queued =>
      enqueueAll rest (queue.insert (candidate.bound, queued) candidate) (queued + 1)

/-- The meaning of a complete candidate. -/
def finish (share : Sharing κ) (pool : Pool κ) (candidate : Candidate κ) :
    Option (Interpretation κ) × Pool κ :=
  match candidate.frames with
  | [] => (none, pool)
  | frame :: _ =>
      match frame.close? with
      | none => (none, pool)
      | some roots =>
          let (roots, pool) := shareAll share pool roots
          (Interpretation.ofRoots? roots, pool)

def addDuplicate (duplicate : Duplicate κ) (meaning : Interpretation κ) :
    List (Derivation κ) → List (Derivation κ)
  | [] => []
  | first :: rest =>
      if first.meaning == meaning then
        { first with duplicates := first.duplicates ++ [duplicate] } :: rest
      else first :: addDuplicate duplicate meaning rest

/-- Takes up a complete candidate, as a result or as one more derivation of a meaning. -/
def complete (search : Search κ) (limits : Limits) (progress : Progress κ)
    (candidate : Candidate κ) : Progress κ :=
  let (meaning, pool) := finish search.share progress.pool candidate
  let progress := { progress with pool }
  let choices := candidate.choices.reverse
  match meaning with
  | none =>
      { progress with
        stats := { progress.stats with discarded := progress.stats.discarded + 1 } }
  | some meaning =>
      if progress.results.any (·.meaning == meaning) then
        { progress with
          stats := { progress.stats with duplicates := progress.stats.duplicates + 1 }
          results :=
            if limits.keepDuplicates then
              addDuplicate ⟨candidate.cost, choices⟩ meaning progress.results
            else progress.results }
      else
        { progress with results := progress.results ++ [⟨candidate.cost, meaning, choices, []⟩] }

/-- Queues the successors of a candidate. -/
def proceed (search : Search κ) (progress : Progress κ) (candidate : Candidate κ) (id : Nat)
    (steps : List Step) : Except Fault (Progress κ) := do
  let expansion ← search.expand candidate id steps progress.pool
  let (queue, queued) := enqueueAll expansion.successors progress.queue progress.queued
  .ok { progress with
    queue
    queued
    pool := expansion.pool
    stats := { progress.stats with discarded := progress.stats.discarded + expansion.dropped } }

/-- Takes candidates from the queue, at most `left` more. -/
def explore (search : Search κ) (limits : Limits) :
    Nat → Progress κ → Except Fault (Progress κ)
  | left, progress =>
      match progress.queue.minEntry? with
      | none => .ok progress
      | some (key, candidate) =>
          let stopped := { progress with stats := { progress.stats with truncated := true } }
          match left with
          | 0 => .ok stopped
          | left + 1 =>
              if limits.interrupted progress.stats.expansions then .ok stopped
              else do
                let progress := { progress with
                  queue := progress.queue.erase key
                  stats := { progress.stats with expansions := progress.stats.expansions + 1 } }
                match candidate.steps with
                | .expand id :: steps =>
                    let progress ← search.proceed progress candidate id steps
                    search.explore limits left progress
                | .close :: _ => search.explore limits left progress
                | [] =>
                    let progress := search.complete limits progress candidate
                    if progress.results.length = limits.results then .ok progress
                    else search.explore limits left progress

/-- The candidate that has made no choice yet. -/
def firstCandidate (root : Nat) (bound : κ) : Candidate κ where
  cost := 0
  bound
  steps := [.expand root]
  frames := [⟨none, []⟩]
  choices := []

def isCheaper (first second : Derivation κ) : Bool :=
  Cost.order first.cost second.cost != .gt

def emptyProgress : Progress κ where
  queue := {}
  queued := 0
  pool := .empty
  stats := ⟨0, 0, 0, false⟩
  results := []

def firstProgress (root : Nat) (bound : κ) : Progress κ :=
  { emptyProgress with
    queue := (emptyProgress : Progress κ).queue.insert (bound, 0) (firstCandidate root bound)
    queued := 1 }

/-- Where the search stands at its end. -/
def discover (search : Search κ) (limits : Limits) : Except Fault (Progress κ) :=
  match search.forest.root with
  | none => .ok emptyProgress
  | some root =>
      if limits.results = 0 then .ok emptyProgress
      else do
        let bound ← search.cheapestOf root
        search.explore limits limits.maxExpansions (firstProgress root bound)

/-- Results in order of cost; bounds are summed in another order than costs, so rounding can upset
the order in which results are found. -/
def run (search : Search κ) (limits : Limits) :
    Except Fault (List (Derivation κ) × SearchStats) := do
  let progress ← search.discover limits
  .ok (progress.results.mergeSort isCheaper, progress.stats)

/-- A search of a forest that shares meanings as told. -/
def sharing (share : Sharing κ) (table : Table κ) (forest : Forest) :
    Except Fault (Search κ) := do
  let cheapest ← forest.cheapest table
  .ok ⟨table, forest, cheapest, share⟩

end Search

/-- The cheapest derivations of different meanings in a forest. -/
def Forest.search {κ : Type} [Cost κ] (forest : Forest) (table : Table κ) (limits : Limits) :
    Except Fault (List (Derivation κ) × SearchStats) := do
  let search ← Search.sharing Pool.intern table forest
  search.run limits

end QueryGrammar
