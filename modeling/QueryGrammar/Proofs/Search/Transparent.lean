import QueryGrammar.Proofs.Costs
import QueryGrammar.Proofs.Search.Begin
import QueryGrammar.Proofs.Search.Listed
import QueryGrammar.Proofs.Search.Lockstep

namespace QueryGrammar

/-! Sharing meanings does not show.

Main statement: where names are unambiguous, a search that interns its meanings has the same results
and the same statistics as one that does not.
-/

open Std

variable {κ : Type} [Cost κ] {kindOf : String → ConceptKind}

/-- The same candidates wait under the same keys. -/
def SearchQueue.Alike (kindOf : String → ConceptKind) (queue others : SearchQueue κ) : Prop :=
  ∀ key : κ × Nat, Option.Rel (Candidate.Alike kindOf) queue[key]? others[key]?

structure Derivation.Alike (result other : Derivation κ) : Prop where
  cost : result.cost = other.cost
  meaning : result.meaning.costless = other.meaning.costless
  choices : result.choices = other.choices
  duplicates : result.duplicates = other.duplicates

/-- What is displayed of a result. -/
def Derivation.shown (result : Derivation κ) :
    κ × String × Json × List Choice × List (Duplicate κ) :=
  (result.cost, result.meaning.text, result.meaning.toObject, result.choices, result.duplicates)

omit [Cost κ] in
theorem Derivation.Alike.shown {result other : Derivation κ} (alike : result.Alike other) :
    result.shown = other.shown := by
  simp only [Derivation.shown, alike.cost, alike.choices, alike.duplicates,
    ← Interpretation.text_costless result.meaning, ← Interpretation.toObject_costless result.meaning,
    alike.meaning, Interpretation.text_costless, Interpretation.toObject_costless]

structure Progress.Alike (kindOf : String → ConceptKind) (InUse : Pool κ → Prop)
    (first second : Progress κ) : Prop where
  queue : SearchQueue.Alike kindOf first.queue second.queue
  queued : first.queued = second.queued
  inUse : InUse first.pool
  stats : first.stats = second.stats
  results : List.Forall₂ Derivation.Alike first.results second.results

section

variable [TransCmp (Cost.order : κ → κ → Ordering)]

namespace SearchQueue

variable {queue others : SearchQueue κ} {key keyAlso : κ × Nat} {candidate other : Candidate κ}

theorem alike_empty : Alike kindOf ({} : SearchQueue κ) {} := by
  intro key
  simp

theorem Alike.insert (alike : Alike kindOf queue others) (same : candidate.Alike kindOf other)
    (key : κ × Nat) :
    Alike kindOf (TreeMap.insert queue key candidate) (TreeMap.insert others key other) := by
  intro place
  rw [TreeMap.getElem?_insert, TreeMap.getElem?_insert]
  split
  · exact .some same
  · exact alike place

theorem Alike.erase (alike : Alike kindOf queue others)
    (same : orderOfQueue key keyAlso = .eq) :
    Alike kindOf (TreeMap.erase queue key) (TreeMap.erase others keyAlso) := by
  intro place
  rw [TreeMap.getElem?_erase, TreeMap.getElem?_erase, TransCmp.congr_left same]
  split
  · exact .none
  · exact alike place

omit [TransCmp (Cost.order : κ → κ → Ordering)] in
theorem Alike.exists_other (alike : Alike kindOf queue others) (found : queue[key]? = some candidate) :
    ∃ other, others[key]? = some other ∧ candidate.Alike kindOf other := by
  have related := alike key
  rw [found] at related
  cases present : others[key]? with
  | none => simp [present] at related
  | some other => exact ⟨other, rfl, by simpa [present] using related⟩

omit [TransCmp (Cost.order : κ → κ → Ordering)] in
theorem Alike.exists_own (alike : Alike kindOf queue others) (found : others[key]? = some other) :
    ∃ candidate, queue[key]? = some candidate := by
  have related := alike key
  rw [found] at related
  cases present : queue[key]? with
  | none => simp [present] at related
  | some candidate => exact ⟨candidate, rfl⟩

/-- Either nothing waits in both queues, or candidates that are alike come first. -/
theorem Alike.first (alike : Alike kindOf queue others) :
    queue.minEntry? = none ∧ others.minEntry? = none ∨
      ∃ key candidate keyAlso other, queue.minEntry? = some (key, candidate) ∧
        others.minEntry? = some (keyAlso, other) ∧ orderOfQueue key keyAlso = .eq ∧
        candidate.Alike kindOf other := by
  cases first : queue.minEntry? with
  | none =>
      cases second : others.minEntry? with
      | none => exact .inl ⟨rfl, rfl⟩
      | some entry =>
          obtain ⟨candidate, found⟩ := alike.exists_own (getElem?_of_first second).1
          rw [getElem?_of_no_first first] at found
          cases found
  | some entry =>
      obtain ⟨key, candidate⟩ := entry
      obtain ⟨found, lowest⟩ := getElem?_of_first first
      obtain ⟨here, foundHere, same⟩ := alike.exists_other found
      cases second : others.minEntry? with
      | none =>
          rw [getElem?_of_no_first second] at foundHere
          cases foundHere
      | some entry =>
          obtain ⟨keyAlso, other⟩ := entry
          obtain ⟨foundAlso, lowestAlso⟩ := getElem?_of_first second
          obtain ⟨there, foundThere⟩ := alike.exists_own foundAlso
          have equal : orderOfQueue key keyAlso = .eq := OrientedCmp.isLE_antisymm
            (lowest keyAlso there foundThere) (lowestAlso key here foundHere)
          rw [TreeMap.getElem?_congr equal, foundAlso] at foundHere
          cases foundHere
          exact .inr ⟨key, candidate, keyAlso, here, rfl, rfl, equal, same⟩

end SearchQueue

namespace Progress.Alike

variable {InUse : Pool κ → Prop} {before also : Progress κ} {key keyAlso : κ × Nat}

theorem taken (progress : before.Alike kindOf InUse also)
    (same : orderOfQueue key keyAlso = .eq) :
    (Search.taken before key).Alike kindOf InUse (Search.taken also keyAlso) :=
  ⟨progress.queue.erase same, progress.queued, progress.inUse,
    by simp only [Search.taken, progress.stats], progress.results⟩

omit [TransCmp (Cost.order : κ → κ → Ordering)] in
theorem stopped (progress : before.Alike kindOf InUse also) :
    (Search.stopped before).Alike kindOf InUse (Search.stopped also) :=
  ⟨progress.queue, progress.queued, progress.inUse,
    by simp only [Search.stopped, progress.stats], progress.results⟩

end Progress.Alike

end

namespace Search

variable {search : Search κ} {lattice : Lattice} {InUse : Pool κ → Prop} {limits : Limits}
  {before also : Progress κ} {candidate other : Candidate κ} {key keyAlso : κ × Nat}
  {results plain : List (Derivation κ)} {meaning meaningAlso : Interpretation κ}
  {queue others : SearchQueue κ}

omit [Cost κ] in
theorem beq_alike {first second : Derivation κ} (alike : first.Alike second)
    (same : meaning.costless = meaningAlso.costless) :
    (first.meaning == meaning) = (second.meaning == meaningAlso) := by
  rw [← Interpretation.beq_costless, alike.meaning, same, Interpretation.beq_costless]

omit [Cost κ] in
theorem any_alike (alike : List.Forall₂ Derivation.Alike results plain)
    (same : meaning.costless = meaningAlso.costless) :
    results.any (·.meaning == meaning) = plain.any (·.meaning == meaningAlso) := by
  induction alike with
  | nil => rfl
  | cons first _ ih => rw [List.any_cons, List.any_cons, beq_alike first same, ih]

omit [Cost κ] in
theorem addDuplicate_alike (alike : List.Forall₂ Derivation.Alike results plain)
    (same : meaning.costless = meaningAlso.costless) (duplicate : Duplicate κ) :
    List.Forall₂ Derivation.Alike (addDuplicate duplicate meaning results)
      (addDuplicate duplicate meaningAlso plain) := by
  induction alike with
  | nil => exact .nil
  | @cons first second _ _ equal rest ih =>
      rw [addDuplicate, addDuplicate, beq_alike equal same]
      split
      · refine .cons ⟨equal.cost, equal.meaning, equal.choices, ?_⟩ rest
        simp only [equal.duplicates]
      · exact .cons equal ih

omit [Cost κ] in
theorem finish_alike (ready : search.Ready lattice kindOf InUse) {pool : Pool κ}
    (poolAlso : Pool κ) (inUse : InUse pool) (alike : candidate.Alike kindOf other) :
    InUse (finish search.share pool candidate).2 ∧
      Option.Rel (fun first second => first.costless = second.costless)
        (finish search.share pool candidate).1 (finish .keep poolAlso other).1 := by
  unfold finish
  rcases alike.frames.both with
    ⟨nothing, nothingAlso⟩ | ⟨frame, outer, frameAlso, rest, first, firstAlso, same, kinded, -⟩
  · rw [nothing, nothingAlso]
    exact ⟨inUse, .none⟩
  · rw [first, firstAlso]
    rcases both_of_map_eq (close?_congr same) with
      ⟨closed, closedAlso⟩ | ⟨roots, rootsAlso, closed, closedAlso, equal⟩
    · simpa only [closed, closedAlso] using ⟨inUse, .none⟩
    · obtain ⟨shared, -, later⟩ :=
        ready.faithful.shareAll inUse (Frame.close?_kinded closed kinded)
      simp only [closed, closedAlso, shareAll_keep]
      refine ⟨later, ?_⟩
      have arranged :
          (Interpretation.ofRoots? (shareAll search.share pool roots).1).map
              Interpretation.costless =
            (Interpretation.ofRoots? rootsAlso).map Interpretation.costless := by
        rw [← Interpretation.ofRoots?_costless, ← Interpretation.ofRoots?_costless, shared, equal]
      rcases both_of_map_eq arranged with ⟨none, noneAlso⟩ | ⟨meaning, other, made, madeAlso, alike⟩
      · rw [none, noneAlso]
        exact .none
      · rw [made, madeAlso]
        exact .some alike

theorem complete_alike (limits : Limits) (ready : search.Ready lattice kindOf InUse)
    (progress : before.Alike kindOf InUse also) (alike : candidate.Alike kindOf other) :
    (search.complete limits before candidate).Alike kindOf InUse
      (search.plain.complete limits also other) := by
  obtain ⟨inUse, meanings⟩ := finish_alike ready also.pool progress.inUse alike
  rcases finishes : finish search.share before.pool candidate with ⟨outcome, pool⟩
  rcases finishesAlso : finish .keep also.pool other with ⟨outcomeAlso, poolAlso⟩
  rw [finishes, finishesAlso] at meanings
  rw [finishes] at inUse
  cases meanings with
  | none =>
      simp only [complete, plain, finishes, finishesAlso, progress.stats]
      exact ⟨progress.queue, progress.queued, inUse, rfl, progress.results⟩
  | some same =>
      simp only [complete, plain, finishes, finishesAlso, progress.stats, alike.cost, alike.choices,
        any_alike progress.results same]
      split
      · refine ⟨progress.queue, progress.queued, inUse, rfl, ?_⟩
        split
        · exact addDuplicate_alike progress.results same _
        · exact progress.results
      · exact ⟨progress.queue, progress.queued, inUse, rfl,
          List.rel_append progress.results (.cons ⟨rfl, same, rfl, rfl⟩ .nil)⟩

variable [TransCmp (Cost.order : κ → κ → Ordering)]

theorem enqueueAll_alike {successors successorsAlso : List (Candidate κ)}
    (alike : List.Forall₂ (Candidate.Alike kindOf) successors successorsAlso)
    (waiting : SearchQueue.Alike kindOf queue others) (queued : Nat) :
    SearchQueue.Alike kindOf (enqueueAll successors queue queued).1
        (enqueueAll successorsAlso others queued).1 ∧
      (enqueueAll successors queue queued).2 = (enqueueAll successorsAlso others queued).2 := by
  induction alike generalizing queue others queued with
  | nil => exact ⟨waiting, rfl⟩
  | @cons first second _ _ same _ ih =>
      have inserted := waiting.insert same (first.bound, queued)
      rw [enqueueAll, enqueueAll, ← same.bound]
      exact ih inserted (queued + 1)

theorem proceed_alike (ready : search.Ready lattice kindOf InUse)
    (progress : before.Alike kindOf InUse also) (alike : candidate.Alike kindOf other) (id : Nat)
    (steps : List Step) : Fault.Agree (Progress.Alike kindOf InUse)
      (search.proceed before candidate id steps) (search.plain.proceed also other id steps) := by
  apply (expand_alike ready id steps progress.inUse alike).bind
  intro expansion expansionAlso expands
  obtain ⟨queue, queued⟩ := enqueueAll_alike expands.successors progress.queue also.queued
  simp only [progress.queued, progress.stats, expands.dropped]
  exact ⟨queue, queued, expands.inUse, rfl, progress.results⟩

theorem explore_alike (ready : search.Ready lattice kindOf InUse) (left : Nat)
    (progress : before.Alike kindOf InUse also) : Fault.Agree (Progress.Alike kindOf InUse)
      (search.explore limits left before) (search.plain.explore limits left also) := by
  induction left generalizing before also with
  | zero =>
      rcases progress.queue.first with ⟨idle, idleAlso⟩ | ⟨_, _, _, _, first, firstAlso, -, -⟩
      · rw [explore_idle 0 idle, explore_idle 0 idleAlso]
        exact progress
      · rw [explore_stopped first (.inl rfl), explore_stopped firstAlso (.inl rfl)]
        exact progress.stopped
  | succ left ih =>
      rcases progress.queue.first with
        ⟨idle, idleAlso⟩ | ⟨key, candidate, keyAlso, other, first, firstAlso, same, alike⟩
      · rw [explore_idle _ idle, explore_idle _ idleAlso]
        exact progress
      · cases calm : limits.interrupted before.stats.expansions with
        | true =>
            have calmAlso := calm
            rw [progress.stats] at calmAlso
            rw [explore_stopped first (.inr calm), explore_stopped firstAlso (.inr calmAlso)]
            exact progress.stopped
        | false =>
            have calmAlso := calm
            rw [progress.stats] at calmAlso
            have takes := progress.taken same
            rw [explore_next first calm, explore_next firstAlso calmAlso, ← alike.steps]
            rcases candidate.steps with - | ⟨id | -, steps⟩
            · have after := complete_alike limits ready takes alike
              simp only [after.results.length_eq]
              split
              · exact after
              · exact ih after
            · exact (proceed_alike ready takes alike id steps).bind fun _ _ after => ih after
            · exact ih takes

theorem discover_alike (ready : search.Ready lattice kindOf InUse) (inUse : InUse .empty)
    (limits : Limits) : Fault.Agree (Progress.Alike kindOf InUse) (search.discover limits)
      (search.plain.discover limits) := by
  have idle : (emptyProgress : Progress κ).Alike kindOf InUse emptyProgress :=
    ⟨SearchQueue.alike_empty, rfl, inUse, rfl, .nil⟩
  have sameForest : search.plain.forest = search.forest := rfl
  unfold discover
  rw [sameForest]
  cases search.forest.root with
  | none => exact idle
  | some root =>
      by_cases unwanted : limits.results = 0
      · simp only [unwanted, if_true]
        exact idle
      · simp only [unwanted, if_false]
        refine Fault.Agree.same fun bound _ => explore_alike ready _ ⟨?_, rfl, inUse, rfl, .nil⟩
        apply SearchQueue.alike_empty.insert
        exact ⟨rfl, rfl, rfl, rfl, rfl, List.forall_mem_singleton.2 ⟨by simp, by simp⟩⟩

theorem run_alike (ready : search.Ready lattice kindOf InUse) (inUse : InUse .empty)
    (limits : Limits) : Fault.Agree (fun first second =>
        first.1.map Derivation.shown = second.1.map Derivation.shown ∧ first.2 = second.2)
      (search.run limits) (search.plain.run limits) := by
  refine (discover_alike ready inUse limits).bind fun final finalAlso progress => ?_
  have shown : final.results.map Derivation.shown = finalAlso.results.map Derivation.shown :=
    List.forall₂_eq_eq_eq ▸ List.forall₂_map_left_iff.2
      (List.forall₂_map_right_iff.2 (progress.results.imp fun _ _ => Derivation.Alike.shown))
  have sorts : ∀ results : List (Derivation κ),
      (results.mergeSort isCheaper).map Derivation.shown =
        (results.map Derivation.shown).mergeSort fun first second =>
          Cost.order first.1 second.1 != .gt := fun results =>
    List.map_mergeSort fun _ _ _ _ => rfl
  exact ⟨by rw [sorts, sorts, shown], progress.stats⟩

end Search

/-! Meanings that come up in a search. -/

namespace Meaning

variable {table : Table κ} {lattice : Lattice} {meanings : List (Meaning κ)}

/-- Made of the concepts in rules, and of entities in the query. -/
def Occurs (table : Table κ) (lattice : Lattice) (meaning : Meaning κ) : Prop :=
  ∀ concept ∈ meaning.concepts, concept ∈ table.concepts ∨
    ∃ hit ∈ lattice.found, ∃ entity ∈ hit.entity, concept = ⟨entity.id, 0, .argument⟩

end Meaning

omit [Cost κ] in
theorem Pool.internAll_eq_shareAll (pool : Pool κ) (meanings : List (Meaning κ)) :
    pool.internAll meanings = Search.shareAll intern pool meanings := by
  induction meanings generalizing pool with
  | nil => rfl
  | cons first rest ih => simp only [internAll, Search.shareAll, ih]

/-- In whatever order meanings come up, each is represented by one that agrees with it. -/
theorem Table.Unambiguous.internAll_agrees {table : Table κ} {lattice : Lattice}
    (unambiguous : table.Unambiguous lattice) {meanings : List (Meaning κ)}
    (occur : ∀ meaning ∈ meanings, meaning.Occurs table lattice) :
    (Pool.empty.internAll meanings).1.map Meaning.isOpen = meanings.map Meaning.isOpen ∧
      (Pool.empty.internAll meanings).1.map Meaning.isArgument =
        meanings.map Meaning.isArgument := by
  obtain ⟨kindOf, kinds, arguments⟩ := unambiguous.exists_kindOf
  have kinded : ∀ meaning ∈ meanings, meaning.Kinded kindOf := by
    intro meaning member concept inside
    rcases occur meaning member concept inside with declared | ⟨hit, found, entity, given, rfl⟩
    · exact kinds concept declared
    · exact (arguments hit found entity given).symm
  obtain ⟨same, -, -⟩ := Pool.intern_faithful.shareAll Pool.kinded_empty kinded
  rw [← Pool.internAll_eq_shareAll] at same
  constructor
  · simpa [Function.comp_def, Meaning.isOpen_costless] using congrArg (List.map Meaning.isOpen) same
  · have arguments : (Meaning.isArgument ∘ Meaning.costless : Meaning κ → Bool) =
        Meaning.isArgument := funext fun meaning => by simp [Meaning.isArgument]
    have agree := congrArg (List.map Meaning.isArgument) same
    rwa [List.map_map, List.map_map, arguments] at agree

namespace Forest

variable {grammar : Grammar κ} {gazetteer : Gazetteer} {query : String} {table : Table κ}
  {lattice : Lattice} {forest : Forest}

/-- The search of a forest that leaves every meaning as it is. -/
def plainSearch (forest : Forest) (table : Table κ) (limits : Limits) :
    Except Fault (List (Derivation κ) × SearchStats) := do
  let search ← Search.sharing .keep table forest
  search.run limits

/-- Where names are unambiguous, sharing meanings shows neither in the results nor in the
statistics, and a meaning that stands for others is open and an argument if they are. -/
theorem search_transparent [TransCmp (Cost.order : κ → κ → Ordering)]
    (parsed : forest.Parsed grammar gazetteer query table lattice) :
    (∀ limits, ∃ results plain stats, forest.search table limits = .ok (results, stats) ∧
      forest.plainSearch table limits = .ok (plain, stats) ∧
      results.map Derivation.shown = plain.map Derivation.shown) ∧
    ∀ meanings : List (Meaning κ), (∀ meaning ∈ meanings, meaning.Occurs table lattice) →
      (Pool.empty.internAll meanings).1.map Meaning.isOpen = meanings.map Meaning.isOpen ∧
      (Pool.empty.internAll meanings).1.map Meaning.isArgument =
        meanings.map Meaning.isArgument := by
  refine ⟨fun limits => ?_, fun meanings => parsed.unambiguous.internAll_agrees⟩
  obtain ⟨_, _, _, -, -, -, -, -, -, ends⟩ := parsed.search_spec
  obtain ⟨final, searching, -⟩ := ends limits
  obtain ⟨search, kindOf, making, rfl, rfl, ready, -⟩ := parsed.ready
  have runs : search.forest.search search.table limits = search.run limits := by
    simp only [Forest.search, making, bind, Except.bind]
  have makingPlain : Search.sharing .keep search.table search.forest = .ok search.plain := by
    obtain ⟨costs, cheapest, same⟩ := Search.sharing_eq_ok.1 making
    exact Search.sharing_eq_ok.2 ⟨costs, cheapest, by rw [same, Search.plain]⟩
  have runsAlso : search.forest.plainSearch search.table limits = search.plain.run limits := by
    simp only [plainSearch, makingPlain, bind, Except.bind]
  have agree := Search.run_alike ready Pool.kinded_empty limits
  rw [← runs, ← runsAlso, searching] at agree
  cases plain : search.forest.plainSearch search.table limits with
  | error cause =>
      rw [plain] at agree
      cases agree
  | ok found =>
      rw [plain] at agree
      obtain ⟨same, stats⟩ := agree
      exact ⟨_, found.1, _, searching, congrArg Except.ok (Prod.ext rfl stats.symm), same⟩

end Forest

/-- A grammar in which a query names a user. -/
def Grammar.byUser : Grammar Amount :=
  let author : Meaning Amount := .leaf ⟨"author", 0, .function 1 1 false false⟩
  { start := "S"
    rules := .ofList [("F", [{ Rule.literal "by" with meaning := some author }]),
      ("S", [.symbols ["F", "U"]]),
      ("U", [{ Rule.literal "\x7buser\x7d" with role := .placeholder }])]
    concepts := {} }

/-- A single user, who is called Danny. -/
def Gazetteer.dannyAs (id : String) : Gazetteer :=
  ⟨.ofList [("danny", [("user", ⟨id, "Danny"⟩)])], 1⟩

namespace Forest

set_option maxRecDepth 100000 in
theorem search_transparent_danny : ∃ table lattice forest,
    Forest.Parsed Grammar.byUser (.dannyAs "danny") "by danny" table lattice forest ∧
      (∀ limits, ∃ results plain stats, forest.search table limits = .ok (results, stats) ∧
        forest.plainSearch table limits = .ok (plain, stats) ∧
        results.map Derivation.shown = plain.map Derivation.shown) ∧
      ∀ meanings : List (Meaning Amount), (∀ meaning ∈ meanings, meaning.Occurs table lattice) →
        (Pool.empty.internAll meanings).1.map Meaning.isOpen = meanings.map Meaning.isOpen ∧
        (Pool.empty.internAll meanings).1.map Meaning.isArgument =
          meanings.map Meaning.isArgument := by
  have reads : Grammar.byUser.reads (.dannyAs "danny") "by danny" = true := by decide +kernel
  obtain ⟨table, lattice, forest, parsed⟩ := Grammar.exists_parsed reads
  exact ⟨table, lattice, forest, parsed, search_transparent parsed⟩

set_option maxRecDepth 100000 in
/-- A user whose id is the name of a function is taken for that function, and a meaning is lost. -/
theorem search_shows_namesake : ∃ table lattice forest results plain stats statsPlain,
    Table.compile Grammar.byUser = .ok table ∧ table.HasNoUnaryCycle ∧
      Lattice.ofQuery table (.dannyAs "author") "by danny" = .ok lattice ∧
      Forest.ofLattice table lattice = .ok (.ok forest) ∧
      forest.search table ⟨10, 100, false, fun _ => false⟩ = .ok (results, stats) ∧
      forest.plainSearch table ⟨10, 100, false, fun _ => false⟩ = .ok (plain, statsPlain) ∧
      results.map (fun result => result.meaning.text) = [] ∧ stats.discarded = 1 ∧
      plain.map (fun result => result.meaning.text) = ["author(author)"] ∧
      statsPlain.discarded = 0 := by
  have shows : ((Table.compile Grammar.byUser).toOption.any fun table =>
      decide (∀ entry ∈ table.rules, entry.slots.length ≠ 1) &&
      (Lattice.ofQuery table (.dannyAs "author") "by danny").toOption.any fun lattice =>
      (Forest.ofLattice table lattice).toOption.any fun parsed => parsed.toOption.any fun forest =>
        (Search.concludes Pool.intern table forest ⟨10, 100, false, fun _ => false⟩ fun final =>
          final.results.isEmpty && decide (final.stats.discarded = 1)) &&
        Search.concludes .keep table forest ⟨10, 100, false, fun _ => false⟩ fun final =>
          decide (final.results.map (fun result => result.meaning.text) = ["author(author)"]) &&
            decide (final.stats.discarded = 0)) = true := by
    decide +kernel
  obtain ⟨table, compiled, shows⟩ := exists_ok_of_any shows
  rw [Bool.and_eq_true, decide_eq_true_eq] at shows
  obtain ⟨several, shows⟩ := shows
  obtain ⟨lattice, read, shows⟩ := exists_ok_of_any shows
  obtain ⟨parsed, made, shows⟩ := exists_ok_of_any shows
  obtain ⟨forest, rfl, both⟩ := exists_ok_of_any shows
  obtain ⟨shared, unshared⟩ := Bool.and_eq_true_iff.1 both
  obtain ⟨final, searching, found⟩ := Search.run_of_concludes shared
  obtain ⟨plain, searchingPlain, foundPlain⟩ := Search.run_of_concludes unshared
  rw [Bool.and_eq_true, decide_eq_true_eq] at found foundPlain
  have nothing : final.results = [] := List.isEmpty_iff.1 found.1
  obtain ⟨result, single, meant⟩ : ∃ result, plain.results = [result] ∧
      result.meaning.text = "author(author)" := by
    simpa [List.map_eq_singleton_iff] using foundPlain.1
  refine ⟨table, lattice, forest, _, _, _, _, compiled, Table.hasNoUnaryCycle_of_slots several, read,
    made, searching, searchingPlain, ?_, found.2, ?_, of_decide_eq_true foundPlain.2⟩
  · rw [nothing, List.mergeSort_nil, List.map_nil]
  · rw [single, List.mergeSort_singleton, List.map_singleton, meant]

end Forest

end QueryGrammar
