import QueryGrammar.Proofs.Costs
import QueryGrammar.Proofs.Parse.Exact
import QueryGrammar.Proofs.Search.InRange
import QueryGrammar.Proofs.Table.Compiled

namespace QueryGrammar

/-! Searches of one forest up to different limits.

Main statement: limits only cut a search short.  Up to higher limits it goes through the same turns
and finds the same results in the same order before it finds more, and whether duplicates are kept
shows in nothing but the duplicates.
-/

variable {κ : Type}

namespace Derivation

/-- A result without the derivations that repeat its meaning. -/
def bare (result : Derivation κ) : Derivation κ :=
  { result with duplicates := [] }

/-- The same result, after more derivations that repeat its meaning. -/
def Grows (result later : Derivation κ) : Prop :=
  later.bare = result.bare ∧ result.duplicates <+: later.duplicates

theorem Grows.refl (result : Derivation κ) : result.Grows result :=
  ⟨rfl, List.prefix_rfl⟩

theorem Grows.trans {result middle later : Derivation κ} (first : result.Grows middle)
    (second : middle.Grows later) : result.Grows later :=
  ⟨second.1.trans first.1, first.2.trans second.2⟩

theorem Grows.meaning {result later : Derivation κ} (grows : result.Grows later) :
    later.meaning = result.meaning := by
  have same := congrArg Derivation.meaning grows.1
  exact same

theorem Grows.choices {result later : Derivation κ} (grows : result.Grows later) :
    later.choices = result.choices := by
  have same := congrArg Derivation.choices grows.1
  exact same

end Derivation

/-- The results are still there, in the same places, however many have been found since. -/
def Continues (results later : List (Derivation κ)) : Prop :=
  ∀ (place : Nat) (result : Derivation κ), results[place]? = some result →
    ∃ also, later[place]? = some also ∧ result.Grows also

namespace Continues

variable {results middle later : List (Derivation κ)} {first second : Derivation κ}

theorem refl (results : List (Derivation κ)) : Continues results results :=
  fun _ result found => ⟨result, found, .refl result⟩

theorem nil : Continues [] later :=
  fun _ _ found => by cases found

theorem trans (before : Continues results middle) (after : Continues middle later) :
    Continues results later := by
  intro place result found
  obtain ⟨between, foundBetween, grows⟩ := before place result found
  obtain ⟨also, foundAlso, growsAlso⟩ := after place between foundBetween
  exact ⟨also, foundAlso, grows.trans growsAlso⟩

theorem cons (grows : first.Grows second) (rest : Continues results later) :
    Continues (first :: results) (second :: later) := by
  intro place result found
  cases place with
  | zero =>
      cases found
      exact ⟨second, rfl, grows⟩
  | succ place => exact rest place result found

theorem append (results more : List (Derivation κ)) : Continues results (results ++ more) := by
  intro place result found
  have inside : place < results.length := (List.getElem?_eq_some_iff.1 found).1
  exact ⟨result, by rw [List.getElem?_append_left inside, found], .refl result⟩

theorem bare_prefix (continues : Continues results later) :
    results.map Derivation.bare <+: later.map Derivation.bare := by
  refine List.prefix_iff_getElem?.2 fun place inside => ?_
  rw [List.length_map] at inside
  obtain ⟨also, found, grows⟩ := continues place _ (List.getElem?_eq_getElem inside)
  rw [List.getElem?_map, found, List.getElem_map, Option.map_some, grows.1]

end Continues

variable [Cost κ]

/-- Where a search stands, without the derivations that repeat a meaning. -/
def Progress.bare (progress : Progress κ) : Progress κ :=
  { progress with results := progress.results.map Derivation.bare }

/-- The same limits for a search that does not keep duplicates. -/
def Limits.quiet (limits : Limits) : Limits :=
  { limits with keepDuplicates := false }

namespace Search

variable {search : Search κ} {limits : Limits} {before after : Progress κ}
  {candidate : Candidate κ} {results : List (Derivation κ)} {duplicate : Duplicate κ}
  {meaning : Interpretation κ} {id left : Nat} {steps : List Step}

section Bare

omit [Cost κ] in
theorem any_bare (results : List (Derivation κ)) (meaning : Interpretation κ) :
    (results.map Derivation.bare).any (·.meaning == meaning) =
      results.any (·.meaning == meaning) := by
  rw [List.any_map]
  rfl

omit [Cost κ] in
theorem addDuplicate_bare (duplicate : Duplicate κ) (meaning : Interpretation κ)
    (results : List (Derivation κ)) :
    (addDuplicate duplicate meaning results).map Derivation.bare =
      results.map Derivation.bare := by
  induction results with
  | nil => rfl
  | cons first rest ih =>
      rw [addDuplicate]
      split
      · rfl
      · rw [List.map_cons, List.map_cons, ih]

theorem complete_bare (search : Search κ) (limits : Limits) (before : Progress κ)
    (candidate : Candidate κ) : search.complete limits.quiet before.bare candidate =
      (search.complete limits before candidate).bare := by
  have samePool : before.bare.pool = before.pool := rfl
  simp only [complete, samePool]
  generalize finish search.share before.pool candidate = outcome
  obtain ⟨meaning, pool⟩ := outcome
  cases meaning with
  | none => rfl
  | some meaning =>
      have same : before.bare.results.any (·.meaning == meaning) =
          before.results.any (·.meaning == meaning) := any_bare before.results meaning
      simp only [same]
      cases repeats : before.results.any (·.meaning == meaning) with
      | false => simp [Progress.bare, Derivation.bare]
      | true =>
          simp only [Limits.quiet, Progress.bare, Bool.false_eq_true, if_false, if_true]
          split
          · rw [addDuplicate_bare]
          · rfl

theorem proceed_bare (search : Search κ) (before : Progress κ) (candidate : Candidate κ) (id : Nat)
    (steps : List Step) : search.proceed before.bare candidate id steps =
      (search.proceed before candidate id steps).map Progress.bare := by
  have samePool : before.bare.pool = before.pool := rfl
  simp only [proceed, samePool]
  cases search.expand candidate id steps before.pool <;> rfl

/-- Whether duplicates are kept has no influence on what else a search does. -/
theorem explore_bare (search : Search κ) (limits : Limits) (left : Nat) (before : Progress κ) :
    search.explore limits.quiet left before.bare =
      (search.explore limits left before).map Progress.bare := by
  induction left generalizing before with
  | zero =>
      cases first : before.queue.minEntry? with
      | none =>
          have firstBare : before.bare.queue.minEntry? = none := first
          rw [explore_idle 0 first, explore_idle 0 firstBare]
          rfl
      | some entry =>
          have firstBare : before.bare.queue.minEntry? = some entry := first
          rw [explore_stopped first (.inl rfl), explore_stopped firstBare (.inl rfl)]
          rfl
  | succ left ih =>
      cases first : before.queue.minEntry? with
      | none =>
          have firstBare : before.bare.queue.minEntry? = none := first
          rw [explore_idle _ first, explore_idle _ firstBare]
          rfl
      | some entry =>
          obtain ⟨key, candidate⟩ := entry
          have firstBare : before.bare.queue.minEntry? = some (key, candidate) := first
          have takenBare : taken before.bare key = (taken before key).bare := rfl
          cases calm : limits.interrupted before.stats.expansions with
          | true =>
              have calmBare : limits.quiet.interrupted before.bare.stats.expansions = true := calm
              rw [explore_stopped first (.inr calm), explore_stopped firstBare (.inr calmBare)]
              rfl
          | false =>
              have calmBare : limits.quiet.interrupted before.bare.stats.expansions = false := calm
              rw [explore_next first calm, explore_next firstBare calmBare, takenBare]
              rcases candidate.steps with - | ⟨id | -, steps⟩
              · have sameLength (progress : Progress κ) :
                    progress.bare.results.length = progress.results.length := List.length_map ..
                have sameLimit : limits.quiet.results = limits.results := rfl
                simp only [complete_bare, sameLength, sameLimit]
                split
                · rfl
                · exact ih _
              · simp only [proceed_bare]
                cases search.proceed (taken before key) candidate id steps with
                | error cause => rfl
                | ok after => exact ih after
              · exact ih _

end Bare

/-! What one turn does depends on no limit, and results are never taken back. -/

omit [Cost κ] in
theorem continues_addDuplicate (duplicate : Duplicate κ) (meaning : Interpretation κ)
    (results : List (Derivation κ)) :
    Continues results (addDuplicate duplicate meaning results) := by
  induction results with
  | nil => exact .refl []
  | cons first rest ih =>
      rw [addDuplicate]
      split
      · exact .cons ⟨rfl, List.prefix_append ..⟩ (.refl rest)
      · exact .cons (.refl first) ih

theorem continues_complete (search : Search κ) (limits : Limits) (before : Progress κ)
    (candidate : Candidate κ) :
    Continues before.results (search.complete limits before candidate).results ∧
      (search.complete limits before candidate).results.length ≤ before.results.length + 1 := by
  unfold complete
  generalize finish search.share before.pool candidate = outcome
  obtain ⟨meaning, pool⟩ := outcome
  cases meaning with
  | none => exact ⟨.refl _, Nat.le_succ _⟩
  | some meaning =>
      cases repeats : before.results.any (·.meaning == meaning) with
      | false =>
          simp only [repeats, Bool.false_eq_true, if_false]
          exact ⟨.append _ _, by simp⟩
      | true =>
          simp only [repeats, if_true]
          split
          · refine ⟨continues_addDuplicate _ _ _, ?_⟩
            have same := congrArg List.length
              (addDuplicate_bare ⟨candidate.cost, candidate.choices.reverse⟩ meaning before.results)
            rw [List.length_map, List.length_map] at same
            omega
          · exact ⟨.refl _, Nat.le_succ _⟩

theorem results_proceed (proceeding : search.proceed before candidate id steps = .ok after) :
    after.results = before.results := by
  unfold proceed at proceeding
  cases expanding : search.expand candidate id steps before.pool with
  | error cause => simp [expanding, bind, Except.bind] at proceeding
  | ok expansion =>
      simp only [expanding, bind, Except.bind, Except.ok.injEq] at proceeding
      rw [← proceeding]

/-- What becomes of a search when it takes the first candidate from its queue; nothing if none
waits there. -/
def advance (search : Search κ) (limits : Limits) (before : Progress κ) :
    Option (Except Fault (Progress κ)) :=
  before.queue.minEntry?.map fun (key, candidate) =>
    match candidate.steps with
    | .expand id :: steps => search.proceed (taken before key) candidate id steps
    | .close :: _ => .ok (taken before key)
    | [] => .ok (search.complete limits (taken before key) candidate)

theorem advance_eq_none (idle : search.advance limits before = none) :
    before.queue.minEntry? = none := by
  simpa [advance] using idle

theorem exists_first {turn : Except Fault (Progress κ)}
    (going : search.advance limits before = some turn) :
    ∃ entry, before.queue.minEntry? = some entry := by
  obtain ⟨entry, first, -⟩ := Option.map_eq_some_iff.1 going
  exact ⟨entry, first⟩

/-- Limits have a say in a turn only by whether duplicates are kept. -/
theorem advance_congr {other : Limits} (same : limits.keepDuplicates = other.keepDuplicates)
    (search : Search κ) (before : Progress κ) :
    search.advance limits before = search.advance other before := by
  simp only [advance, complete, same]

theorem advance_spec (going : search.advance limits before = some (.ok after)) :
    Continues before.results after.results ∧
      after.results.length ≤ before.results.length + 1 := by
  obtain ⟨⟨key, candidate⟩, -, turn⟩ := Option.map_eq_some_iff.1 going
  simp only at turn
  split at turn
  · have same : after.results = (taken before key).results := results_proceed turn
    rw [same]
    exact ⟨.refl _, Nat.le_succ _⟩
  · cases turn
    exact ⟨.refl _, Nat.le_succ _⟩
  · cases turn
    exact continues_complete search limits (taken before key) candidate

/-- A search goes on by turns until it has enough results. -/
theorem explore_advance {turn : Except Fault (Progress κ)}
    (unfinished : before.results.length < limits.results)
    (calm : limits.interrupted before.stats.expansions = false)
    (going : search.advance limits before = some turn) :
    search.explore limits (left + 1) before = turn.bind fun after =>
      if after.results.length = limits.results then .ok after
      else search.explore limits left after := by
  obtain ⟨⟨key, candidate⟩, first, rfl⟩ := Option.map_eq_some_iff.1 going
  -- Only a complete candidate can bring the last result.
  have more : ∀ {after : Progress κ}, after.results = before.results →
      after.results.length ≠ limits.results := fun same => by
    rw [same]
    exact Nat.ne_of_lt unfinished
  rw [explore_next first calm]
  simp only
  rcases candidate.steps with - | ⟨id | -, steps⟩
  · rfl
  · cases proceeding : search.proceed (taken before key) candidate id steps with
    | error cause => simp only [proceeding, bind, Except.bind]
    | ok after =>
        have same : after.results = (taken before key).results := results_proceed proceeding
        simp only [proceeding, bind, Except.bind, if_neg (more same)]
  · have same : (taken before key).results = before.results := rfl
    simp only [Except.bind, if_neg (more same)]

theorem explore_continues {final : Progress κ}
    (unfinished : before.results.length < limits.results)
    (exploring : search.explore limits left before = .ok final) :
    Continues before.results final.results := by
  induction left generalizing before with
  | zero =>
      cases first : before.queue.minEntry? with
      | none =>
          rw [explore_idle 0 first] at exploring
          cases exploring
          exact .refl _
      | some entry =>
          rw [explore_stopped first (.inl rfl)] at exploring
          cases exploring
          exact .refl _
  | succ left ih =>
      cases going : search.advance limits before with
      | none =>
          rw [explore_idle _ (advance_eq_none going)] at exploring
          cases exploring
          exact .refl _
      | some turn =>
          cases calm : limits.interrupted before.stats.expansions with
          | true =>
              obtain ⟨entry, first⟩ := exists_first going
              rw [explore_stopped first (.inr calm)] at exploring
              cases exploring
              exact .refl _
          | false =>
              rw [explore_advance unfinished calm going] at exploring
              cases turn with
              | error cause => cases exploring
              | ok after =>
                  obtain ⟨continues, few⟩ := advance_spec going
                  simp only [Except.bind] at exploring
                  split at exploring
                  · cases exploring
                    exact continues
                  · exact continues.trans (ih (by omega) exploring)

/-- Two searches that stand at the same place go on in step until the one with lower limits stops. If
that is not because of a limit, the other one stops there as well. -/
theorem explore_prefix {short long : Limits} {more : Nat} {soon late : Progress κ}
    (same : short.keepDuplicates = long.keepDuplicates) (fewer : short.results ≤ long.results)
    (calm : ∀ count, short.interrupted count = false ∧ long.interrupted count = false)
    (sooner : left ≤ more) (unfinished : before.results.length < short.results)
    (exploring : search.explore short left before = .ok soon)
    (exploringLong : search.explore long more before = .ok late) :
    Continues soon.results late.results ∧
      (soon.stats.truncated = false → soon.results.length < short.results → soon = late) := by
  have unfinishedLong : before.results.length < long.results := by omega
  induction left generalizing before more with
  | zero =>
      cases first : before.queue.minEntry? with
      | none =>
          rw [explore_idle 0 first] at exploring
          rw [explore_idle more first] at exploringLong
          cases exploring.symm.trans exploringLong
          exact ⟨.refl _, fun _ _ => rfl⟩
      | some entry =>
          rw [explore_stopped first (.inl rfl)] at exploring
          cases exploring
          have continues : Continues before.results late.results :=
            explore_continues unfinishedLong exploringLong
          exact ⟨continues, fun whole => by cases whole⟩
  | succ left ih =>
      obtain ⟨more, rfl⟩ : ∃ fewer, more = fewer + 1 := ⟨more - 1, by omega⟩
      cases going : search.advance short before with
      | none =>
          rw [explore_idle _ (advance_eq_none going)] at exploring exploringLong
          cases exploring.symm.trans exploringLong
          exact ⟨.refl _, fun _ _ => rfl⟩
      | some turn =>
          rw [explore_advance unfinished (calm _).1 going] at exploring
          rw [advance_congr same] at going
          rw [explore_advance unfinishedLong (calm _).2 going] at exploringLong
          cases turn with
          | error cause => cases exploring
          | ok after =>
              obtain ⟨-, few⟩ := advance_spec going
              simp only [Except.bind] at exploring exploringLong
              by_cases enough : after.results.length = short.results
              · rw [if_pos enough] at exploring
                cases exploring
                refine ⟨?_, fun _ short => absurd enough (Nat.ne_of_lt short)⟩
                split at exploringLong
                · cases exploringLong
                  exact .refl _
                · exact explore_continues (by omega) exploringLong
              · rw [if_neg enough] at exploring
                rw [if_neg (by omega)] at exploringLong
                exact ih (by omega) (by omega) exploring exploringLong (by omega)

/-- The limits of a search are those of its turns. -/
theorem discover_prefix {short long : Limits} {soon late : Progress κ}
    (same : short.keepDuplicates = long.keepDuplicates) (fewer : short.results ≤ long.results)
    (calm : ∀ count, short.interrupted count = false ∧ long.interrupted count = false)
    (sooner : short.maxExpansions ≤ long.maxExpansions)
    (discovering : search.discover short = .ok soon)
    (discoveringLong : search.discover long = .ok late) :
    Continues soon.results late.results ∧
      (soon.stats.truncated = false → soon.results.length < short.results → soon = late) := by
  unfold discover at discovering discoveringLong
  cases top : search.forest.root with
  | none =>
      simp only [top] at discovering discoveringLong
      cases discovering.symm.trans discoveringLong
      exact ⟨.refl _, fun _ _ => rfl⟩
  | some root =>
      simp only [top] at discovering discoveringLong
      split at discovering
      · cases discovering
        rename_i unwanted
        refine ⟨.nil, fun _ few => ?_⟩
        rw [unwanted] at few
        cases few
      · rename_i wanted
        rw [if_neg (by omega)] at discoveringLong
        have unfinished : ∀ bound : κ,
            (firstProgress root bound).results.length < short.results :=
          fun _ => Nat.pos_of_ne_zero wanted
        cases lowest : search.cheapestOf root with
        | error cause => simp [lowest, bind, Except.bind] at discovering
        | ok bound =>
            simp only [lowest, bind, Except.bind] at discovering discoveringLong
            exact explore_prefix same fewer calm sooner (unfinished bound) discovering
              discoveringLong

theorem discover_bare (search : Search κ) (limits : Limits) :
    search.discover limits.quiet = (search.discover limits).map Progress.bare := by
  unfold discover
  cases search.forest.root with
  | none => rfl
  | some root =>
      by_cases unwanted : limits.results = 0
      · simp only [unwanted, Limits.quiet, if_true]
        rfl
      · simp only [unwanted, Limits.quiet, if_false]
        cases search.cheapestOf root with
        | error cause => rfl
        | ok bound => exact explore_bare search limits limits.maxExpansions (firstProgress root bound)

/-- Searches that differ in whether they keep duplicates differ in nothing else. -/
theorem discover_switched (search : Search κ) (limits : Limits) (keep : Bool) :
    (search.discover { limits with keepDuplicates := keep }).map Progress.bare =
      (search.discover limits).map Progress.bare := by
  rw [← discover_bare, ← discover_bare]
  rfl

end Search

/-- What a search returns, without the derivations that repeat a meaning. -/
def bareOutcome (outcome : List (Derivation κ) × SearchStats) : List (Derivation κ) × SearchStats :=
  (outcome.1.map Derivation.bare, outcome.2)

theorem bareOutcome_sorted (progress : Progress κ) :
    bareOutcome (progress.results.mergeSort Search.isCheaper, progress.stats) =
      (progress.bare.results.mergeSort Search.isCheaper, progress.bare.stats) :=
  Prod.ext (List.map_mergeSort fun _ _ _ _ => rfl) rfl

namespace Forest

variable {grammar : Grammar κ} {gazetteer : Gazetteer} {query : String} {table : Table κ}
  {lattice : Lattice} {forest : Forest}

/-- A search of what was parsed comes to an end, whatever its limits. -/
theorem exists_search [Std.TransCmp (Cost.order : κ → κ → Ordering)]
    (compiled : Table.compile grammar = .ok table) (noCycle : table.HasNoUnaryCycle)
    (read : Lattice.ofQuery table gazetteer query = .ok lattice)
    (made : ofLattice table lattice = .ok (.ok forest)) :
    ∃ search, Search.sharing Pool.intern table forest = .ok search ∧
      ∀ limits, ∃ final, search.discover limits = .ok final := by
  obtain ⟨kernels, automaton⟩ := Table.compile_compiled compiled
  have spanning := Lattice.ofQuery_spanning read
  obtain ⟨outcome, madeAgain, known⟩ := ofLattice_inRange automaton.inRange spanning
  cases made.symm.trans madeAgain
  obtain ⟨inRange, root, top, bound⟩ := known forest rfl
  have presents : forest.Presents table lattice := by
    rcases ofLattice_spec automaton spanning with ⟨again, root, made, presents, -⟩ | ⟨failed, -⟩
    · cases madeAgain.symm.trans made
      exact presents
    · cases madeAgain.symm.trans failed
  obtain ⟨costs, cheapest, size⟩ := inRange.cheapest (presents.founded noCycle)
  have within : Search.InRange ⟨table, forest, costs, Pool.intern⟩ := ⟨inRange, size⟩
  exact ⟨_, Search.sharing_eq_ok.2 ⟨costs, cheapest, rfl⟩, fun limits =>
    (Search.discover_ok within top bound limits).imp fun _ => And.left⟩

theorem search_eq {search : Search κ} (making : Search.sharing Pool.intern table forest = .ok search)
    (limits : Limits) : forest.search table limits = (search.discover limits).map fun final =>
      (final.results.mergeSort Search.isCheaper, final.stats) := by
  simp only [Forest.search, making, Search.run, bind, Except.bind]
  cases search.discover limits <;> rfl

theorem search_bare {search : Search κ}
    (making : Search.sharing Pool.intern table forest = .ok search) (limits : Limits) :
    (forest.search table limits).map bareOutcome =
      ((search.discover limits).map Progress.bare).map fun final =>
        (final.results.mergeSort Search.isCheaper, final.stats) := by
  rw [search_eq making]
  cases search.discover limits with
  | error cause => rfl
  | ok final => exact congrArg Except.ok (bareOutcome_sorted final)

/-- Limits only cut a search short. The results that have been found up to lower limits are the first
that are found up to higher ones, and so are the duplicates of each. Keeping duplicates changes
nothing else. A search that no limit ends is the same up to higher limits. -/
theorem search_prefix [Std.TransCmp (Cost.order : κ → κ → Ordering)] {short long : Limits}
    (compiled : Table.compile grammar = .ok table) (noCycle : table.HasNoUnaryCycle)
    (read : Lattice.ofQuery table gazetteer query = .ok lattice)
    (made : ofLattice table lattice = .ok (.ok forest))
    (calm : ∀ count, short.interrupted count = false ∧ long.interrupted count = false)
    (fewer : short.results ≤ long.results) (sooner : short.maxExpansions ≤ long.maxExpansions) :
    ∃ search soon late, Search.sharing Pool.intern table forest = .ok search ∧
      search.discover short = .ok soon ∧ search.discover long = .ok late ∧
      forest.search table short = .ok (soon.results.mergeSort Search.isCheaper, soon.stats) ∧
      forest.search table long = .ok (late.results.mergeSort Search.isCheaper, late.stats) ∧
      soon.results.map Derivation.bare <+: late.results.map Derivation.bare ∧
      (short.keepDuplicates = long.keepDuplicates → ∀ (place : Nat) (result also : Derivation κ),
        soon.results[place]? = some result → late.results[place]? = some also →
        result.duplicates <+: also.duplicates) ∧
      (∀ keep,
        (search.discover { short with keepDuplicates := keep }).map Progress.bare =
          (search.discover short).map Progress.bare ∧
        (forest.search table { short with keepDuplicates := keep }).map bareOutcome =
          (forest.search table short).map bareOutcome) ∧
      (soon.stats.truncated = false → soon.results.length < short.results →
        late.bare = soon.bare ∧
        (forest.search table long).map bareOutcome =
          (forest.search table short).map bareOutcome ∧
        (short.keepDuplicates = long.keepDuplicates →
          forest.search table long = forest.search table short)) := by
  obtain ⟨search, making, total⟩ := exists_search compiled noCycle read made
  obtain ⟨soon, discovering⟩ := total short
  obtain ⟨late, discoveringLong⟩ := total long
  -- Two runs that keep no duplicates agree in this already.
  have quietly : ∀ limits final, search.discover limits = .ok final →
      search.discover limits.quiet = .ok final.bare := by
    intro limits final discovering
    rw [Search.discover_bare, discovering]
    rfl
  have unkept : short.quiet.keepDuplicates = long.quiet.keepDuplicates := rfl
  obtain ⟨continues, whole⟩ := Search.discover_prefix unkept fewer calm sooner
    (quietly _ _ discovering) (quietly _ _ discoveringLong)
  refine ⟨search, soon, late, making, discovering, discoveringLong, ?_, ?_, ?_, ?_, ?_, ?_⟩
  · rw [search_eq making, discovering]
    rfl
  · rw [search_eq making, discoveringLong]
    rfl
  · have shown := continues.bare_prefix
    simp only [Progress.bare, List.map_map] at shown
    exact shown
  · intro same place result also found foundAlso
    obtain ⟨continues, -⟩ :=
      Search.discover_prefix same fewer calm sooner discovering discoveringLong
    obtain ⟨again, foundAgain, -, grows⟩ := continues place result found
    cases foundAlso.symm.trans foundAgain
    exact grows
  · intro keep
    have same := Search.discover_switched search short keep
    exact ⟨same, by rw [search_bare making, search_bare making, same]⟩
  · intro untruncated few
    have fewBare : soon.bare.results.length < short.quiet.results := by
      simpa [Progress.bare, Limits.quiet] using few
    have same : late.bare = soon.bare := (whole untruncated fewBare).symm
    refine ⟨same, ?_, fun keep => ?_⟩
    · have outcomes : (search.discover long).map Progress.bare =
          (search.discover short).map Progress.bare := by
        rw [discovering, discoveringLong]
        exact congrArg Except.ok same
      rw [search_bare making, search_bare making, outcomes]
    · obtain ⟨-, equal⟩ := Search.discover_prefix keep fewer calm sooner discovering discoveringLong
      rw [search_eq making, search_eq making, discovering, discoveringLong, equal untruncated few]

end Forest

/-- A grammar of one word that has two meanings, of which one is given twice. -/
def Grammar.homographs : Grammar ℚ :=
  let reading (text : String) (cost : ℚ) (meaning : String) : Rule ℚ :=
    { Rule.literal text with cost := cost, meaning := some (.leaf ⟨meaning, 0, .argument⟩) }
  { start := "S"
    rules := .ofList [("S", [reading "bank" 0 "money", reading "Bank" 1 "river",
      reading "BANK" 2 "money"])]
    concepts := {} }

namespace Forest

set_option maxRecDepth 100000 in
theorem search_prefix_homographs : ∃ table lattice forest search soon late,
    Table.compile Grammar.homographs = .ok table ∧ table.HasNoUnaryCycle ∧
      Lattice.ofQuery table ⟨{}, 0⟩ "bank" = .ok lattice ∧
      ofLattice table lattice = .ok (.ok forest) ∧
      Search.sharing Pool.intern table forest = .ok search ∧
      search.discover ⟨1, 2, true, fun _ => false⟩ = .ok soon ∧
      search.discover ⟨5, 10, true, fun _ => false⟩ = .ok late ∧
      soon.results.map Derivation.bare <+: late.results.map Derivation.bare := by
  have reads : ((Table.compile Grammar.homographs).toOption.any fun table =>
      (Lattice.ofQuery table ⟨{}, 0⟩ "bank").toOption.any fun lattice =>
      (ofLattice table lattice).toOption.any fun parsed => parsed.toOption.isSome) = true := by
    decide +kernel
  obtain ⟨table, compiled, reads⟩ := exists_ok_of_any reads
  obtain ⟨lattice, read, reads⟩ := exists_ok_of_any reads
  obtain ⟨parsed, made, reads⟩ := exists_ok_of_any reads
  obtain ⟨forest, rfl⟩ : ∃ forest, parsed = .ok forest := by
    cases parsed with
    | error cause => cases reads
    | ok forest => exact ⟨forest, rfl⟩
  have noCycle : table.HasNoUnaryCycle :=
    Table.hasNoUnaryCycle_of_compile compiled (by decide +kernel)
  have calm : ∀ count, Limits.interrupted ⟨1, 2, true, fun _ => false⟩ count = false ∧
      Limits.interrupted ⟨5, 10, true, fun _ => false⟩ count = false := fun _ => ⟨rfl, rfl⟩
  obtain ⟨search, soon, late, making, found, foundLate, -, -, shown, -⟩ :=
    search_prefix compiled noCycle read made calm (by decide) (by decide)
  exact ⟨table, lattice, forest, search, soon, late, compiled, noCycle, read, made, making, found,
    foundLate, shown⟩

end Forest

end QueryGrammar
