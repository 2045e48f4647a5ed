import QueryGrammar.Proofs.Costs
import QueryGrammar.Proofs.Meaning.Legal
import QueryGrammar.Proofs.Search.InRange

namespace QueryGrammar

/-! Searches in tables whose meanings are legal or wait for arguments.

Main statement: the meanings of all results are legal.
-/

open Std

variable {κ : Type}

/-- What a rule means, and what it inserts, is legal or waits for arguments. -/
structure Rule.Proper (rule : Rule κ) : Prop where
  meaning : ∀ meaning ∈ rule.meaning, meaning.Proper
  inserted : ∀ insertion ∈ rule.insertion, ∀ meaning ∈ insertion.meaning, meaning.Proper

instance (rule : Rule κ) : Decidable rule.Proper :=
  decidable_of_iff ((∀ meaning ∈ rule.meaning, meaning.Proper) ∧
      ∀ insertion ∈ rule.insertion, ∀ meaning ∈ insertion.meaning, meaning.Proper)
    ⟨fun ⟨meaning, inserted⟩ => ⟨meaning, inserted⟩, fun proper => ⟨proper.meaning, proper.inserted⟩⟩

def Table.Proper (table : Table κ) : Prop :=
  ∀ entry ∈ table.rules, entry.rule.Proper

instance (table : Table κ) : Decidable table.Proper :=
  inferInstanceAs (Decidable (∀ entry ∈ table.rules, entry.rule.Proper))

def Pool.Proper (pool : Pool κ) : Prop :=
  ∀ (meaning found : Meaning κ), pool.members[meaning]? = some found → found.Proper

namespace Frame

structure Proper (frame : Frame κ) : Prop where
  meaning : ∀ meaning ∈ frame.meaning, meaning.Proper
  args : ∀ meaning ∈ frame.args, meaning.Proper

variable {siblings combined closed : List (Meaning κ)} {frame : Frame κ}

/-- Siblings that are combined are all legal, unless a single one is left that waits. -/
theorem combine?_proper (made : combine? siblings = some combined)
    (proper : ∀ meaning ∈ siblings, meaning.Proper) :
    (∀ meaning ∈ combined, meaning.Legal) ∨
      ∃ only : Meaning κ, combined = [only] ∧ only.OpenChain := by
  unfold combine? at made
  split at made
  · rename_i closed
    cases made
    refine .inl fun meaning member => (proper meaning member).legal ?_
    simpa using List.filter_eq_nil_iff.1 closed meaning member
  · rename_i only opened
    have own : only ∈ siblings.filter Meaning.isOpen := opened ▸ List.mem_singleton_self only
    obtain ⟨member, isOpen⟩ := List.mem_filter.1 own
    have waits := (proper only member).openChain isOpen
    split at made
    · rename_i none
      cases made
      have all : siblings.filter Meaning.isOpen = siblings := by
        refine List.filter_eq_self.2 fun meaning member => ?_
        simpa using List.filter_eq_nil_iff.1 none meaning member
      exact .inr ⟨only, all ▸ opened, waits⟩
    · rename_i others
      obtain ⟨filled, filling, rfl⟩ := Option.map_eq_some_iff.1 made
      refine .inl (List.forall_mem_singleton.2 (waits.fill?_legal filling others ?_))
      intro meaning member
      obtain ⟨inside, closed⟩ := List.mem_filter.1 member
      exact (proper meaning inside).legal (by simpa using closed)
  · cases made

theorem close?_proper (made : frame.close? = some closed) (proper : frame.Proper) :
    ∀ meaning ∈ closed, meaning.Proper := by
  unfold close? at made
  split at made
  · cases made
  · rename_i args combined
    have combined := combine?_proper combined proper.args
    have argsProper : ∀ meaning ∈ args, meaning.Proper := by
      rcases combined with legal | ⟨only, rfl, waits⟩
      · exact fun meaning member => .inl (legal meaning member)
      · exact List.forall_mem_singleton.2 (.inr waits)
    split at made
    · cases made
      exact argsProper
    · rename_i own given
      have ownProper := proper.meaning own given
      split at made
      · rename_i isOpen
        have waits := ownProper.openChain isOpen
        split at made
        · cases made
          exact List.forall_mem_singleton.2 ownProper
        · rename_i some
          obtain ⟨filled, filling, rfl⟩ := Option.map_eq_some_iff.1 made
          refine List.forall_mem_singleton.2 ?_
          rcases combined with legal | ⟨only, rfl, inner⟩
          · exact .inl (waits.fill?_legal filling some legal)
          · exact .inr (waits.fill?_openChain inner filling)
      · cases made
        exact List.forall_mem_append.2 ⟨argsProper, List.forall_mem_singleton.2 ownProper⟩

end Frame

/-- The roots that an interpretation is made of stop waiting. -/
theorem Interpretation.ofRoots?_legal {roots : List (Meaning κ)}
    {interpretation : Interpretation κ} (made : ofRoots? roots = some interpretation)
    (proper : ∀ meaning ∈ roots, meaning.Proper) : interpretation.Legal := by
  unfold ofRoots? at made
  split at made
  · cases made
  · rename_i closed
    obtain ⟨arranged, arranging, rfl⟩ := Option.map_eq_some_iff.1 made
    refine ⟨Meaning.coexist_of_arrange? arranging, fun root member => ?_⟩
    have inside := (Meaning.arrange?_perm arranging).mem_iff.1 member
    refine (proper root inside).legal (Bool.eq_false_iff.2 fun isOpen => closed ?_)
    exact List.any_eq_true.2 ⟨root, inside, isOpen⟩

namespace Search

/-- A way to share meanings that hands on proper ones, on proper pools. -/
structure KeepsProper (share : Sharing κ) : Prop where
  meaning : ∀ {pool : Pool κ} {meaning : Meaning κ}, pool.Proper → meaning.Proper →
    (share pool meaning).1.Proper
  pool : ∀ {pool : Pool κ} {meaning : Meaning κ}, pool.Proper → meaning.Proper →
    (share pool meaning).2.Proper

theorem intern_keepsProper : KeepsProper (Pool.intern : Sharing κ) where
  meaning {pool meaning} known own := by
    unfold Pool.intern
    split
    · rename_i found present
      exact known meaning found present
    · exact own
  pool {pool meaning} known own := by
    unfold Pool.intern
    split
    · exact known
    · intro other found present
      rw [TreeMap.getElem?_insert] at present
      split at present
      · cases present
        exact own
      · exact known other found present

variable {share : Sharing κ} {pool : Pool κ} {meanings : List (Meaning κ)}
  {steps after : List Step} {frames others : List (Frame κ)} {rule : Rule κ}

theorem shareAll_proper (keeps : KeepsProper share) (known : pool.Proper)
    (proper : ∀ meaning ∈ meanings, meaning.Proper) :
    (∀ meaning ∈ (shareAll share pool meanings).1, meaning.Proper) ∧
      (shareAll share pool meanings).2.Proper := by
  induction meanings generalizing pool with
  | nil => exact ⟨proper, known⟩
  | cons first rest ih =>
      obtain ⟨own, others⟩ := List.forall_mem_cons.1 proper
      obtain ⟨shared, later⟩ := ih (keeps.pool known own) others
      exact ⟨List.forall_mem_cons.2 ⟨keeps.meaning known own, shared⟩, later⟩

theorem contribute_proper (proper : ∀ frame ∈ frames, frame.Proper)
    (given : ∀ meaning ∈ meanings, meaning.Proper) :
    ∀ frame ∈ contribute meanings frames, frame.Proper := by
  cases frames with
  | nil => exact proper
  | cons top rest =>
      obtain ⟨own, others⟩ := List.forall_mem_cons.1 proper
      exact List.forall_mem_cons.2
        ⟨⟨own.meaning, List.forall_mem_append.2 ⟨own.args, given⟩⟩, others⟩

/-- The pool is proper, and so are the frames of what was entered, if anything was. -/
def EntersProper (entered : Option (List Step × List (Frame κ)) × Pool κ) : Prop :=
  entered.2.Proper ∧ ∀ settled ∈ entered.1, ∀ frame ∈ settled.2, frame.Proper

theorem settle_proper (keeps : KeepsProper share) (known : pool.Proper)
    (proper : ∀ frame ∈ frames, frame.Proper) : EntersProper (settle share pool steps frames) := by
  fun_induction settle share pool steps frames with
  | case1 => exact ⟨known, by simp⟩
  | case2 => exact ⟨known, by simp⟩
  | case3 pool steps frame outer meanings closed shared pooled split ih =>
      obtain ⟨own, others⟩ := List.forall_mem_cons.1 proper
      obtain ⟨handed, later⟩ := shareAll_proper keeps known (Frame.close?_proper closed own)
      rw [split] at handed later
      exact ih later (contribute_proper others handed)
  | case4 => exact ⟨known, by simpa using proper⟩

variable [Cost κ] {search : Search κ} {candidate : Candidate κ} {alternative : Alternative}
  {alternatives : List Alternative} {id index root : Nat} {limits : Limits} {before : Progress κ}

theorem literalMeanings_proper {found : Option Entity}
    (made : literalMeanings rule found = some meanings) (proper : rule.Proper) :
    ∀ meaning ∈ meanings, meaning.Proper := by
  have argument : ∀ given ∈ (if rule.role = .placeholder then
      found.map fun entity => Meaning.entity entity.id else none : Option (Meaning κ)),
      given.Legal := by
    intro given member
    split at member
    · obtain ⟨entity, -, rfl⟩ := Option.mem_map.1 member
      exact Meaning.legal_entity entity.id
    · cases member
  unfold literalMeanings at made
  generalize (if rule.role = .placeholder then
    found.map fun entity => Meaning.entity entity.id else none : Option (Meaning κ)) = given
    at made argument
  dsimp only at made
  split at made
  · cases made
    simp
  · cases made
    exact List.forall_mem_singleton.2 (.inl (argument _ rfl))
  · rename_i own
    cases made
    exact List.forall_mem_singleton.2 (proper.meaning _ own)
  · rename_i meaning entity own
    have ownProper := proper.meaning meaning own
    have entityLegal := argument entity rfl
    split at made
    · rename_i isOpen
      obtain ⟨filled, filling, rfl⟩ := Option.map_eq_some_iff.1 made
      exact List.forall_mem_singleton.2 (.inl ((ownProper.openChain isOpen).fill?_legal filling
        (List.cons_ne_nil _ _) (List.forall_mem_singleton.2 entityLegal)))
    · cases made
      exact List.forall_mem_cons.2 ⟨ownProper, List.forall_mem_singleton.2 (.inl entityLegal)⟩

theorem enter_proper (keeps : KeepsProper search.share) (known : pool.Proper)
    (proper : rule.Proper) (waiting : ∀ frame ∈ frames, frame.Proper) :
    Ensures EntersProper (search.enter pool rule alternative steps frames) := by
  cases alternative with
  | terminal number found =>
      refine Ensures.after fun hit => ?_
      split
      · exact .ok ⟨known, by simp⟩
      · rename_i meanings made
        obtain ⟨shared, later⟩ := shareAll_proper keeps known (literalMeanings_proper made proper)
        exact .ok (settle_proper keeps later (contribute_proper waiting shared))
  | branch number children =>
      have inserted : ∀ meaning ∈ (rule.insertion.bind Insertion.meaning).toList,
          meaning.Proper := by
        intro meaning member
        obtain ⟨insertion, given, own⟩ := Option.bind_eq_some_iff.1 (Option.mem_toList.1 member)
        exact proper.inserted insertion given meaning own
      obtain ⟨shared, later⟩ := shareAll_proper keeps known inserted
      exact .ok (settle_proper keeps later
        (List.forall_mem_cons.2 ⟨⟨proper.meaning, shared⟩, waiting⟩))

end Search

/-- All that the frames of a candidate hold is proper. -/
def Candidate.Proper (candidate : Candidate κ) : Prop :=
  ∀ frame ∈ candidate.frames, frame.Proper

namespace Search

variable [Cost κ] {search : Search κ} {pool : Pool κ} {candidate : Candidate κ}
  {steps : List Step} {alternative : Alternative} {alternatives : List Alternative}
  {id index root : Nat} {limits : Limits} {before : Progress κ}

/-- A search in a proper table that shares only proper meanings. -/
structure Proper (search : Search κ) : Prop where
  table : search.table.Proper
  share : KeepsProper search.share

theorem choose_proper (proper : search.Proper) (known : pool.Proper) (own : candidate.Proper) :
    Ensures (fun chosen => chosen.2.Proper ∧ ∀ successor ∈ chosen.1, successor.Proper)
      (search.choose candidate id steps pool alternative index) := by
  have ruled : Ensures (fun entry : IndexedRule κ => entry.rule.Proper)
      (search.table.ruleAt alternative.rule) := by
    intro entry found
    unfold Table.ruleAt Fault.lookUp at found
    split at found
    · cases found
      exact proper.table _ (Array.mem_of_getElem? ‹_›)
    · cases found
  refine ruled.bind fun entry ruleProper => Ensures.after fun costs => Ensures.after fun cost => ?_
  refine (enter_proper proper.share known ruleProper own).bind fun entered enters => ?_
  obtain ⟨settled, later⟩ := entered
  obtain ⟨poolProper, framesProper⟩ := enters
  cases settled with
  | none => exact .ok ⟨poolProper, by simp⟩
  | some settled => exact .ok ⟨poolProper, fun successor same => by
      cases same
      exact framesProper settled rfl⟩

theorem expandWith_proper (proper : search.Proper) (known : pool.Proper)
    (own : candidate.Proper) :
    Ensures (fun expansion => expansion.pool.Proper ∧
        ∀ successor ∈ expansion.successors, successor.Proper)
      (search.expandWith candidate id steps alternatives index pool) := by
  induction alternatives generalizing index pool with
  | nil => exact .ok ⟨known, by simp⟩
  | cons alternative rest ih =>
      refine (choose_proper proper known own).bind fun chosen first => ?_
      obtain ⟨successor, pooled⟩ := chosen
      obtain ⟨poolProper, firstProper⟩ := first
      refine (ih poolProper).bind fun expansion others => ?_
      cases successor with
      | none => exact .ok others
      | some successor =>
          exact .ok ⟨others.1, List.forall_mem_cons.2 ⟨firstProper successor rfl, others.2⟩⟩

/-- What every stage of a search keeps to: whatever waits is proper, and what was found is legal. -/
structure ProperStage (progress : Progress κ) : Prop where
  numbered : SearchQueue.Numbered progress.queue progress.queued
  pool : progress.pool.Proper
  waiting : ∀ candidate ∈ progress.waiting, candidate.Proper
  results : ∀ result ∈ progress.results, result.meaning.Legal

theorem ProperStage.stopped (stage : ProperStage before) : ProperStage (stopped before) :=
  ⟨stage.numbered, stage.pool, stage.waiting, stage.results⟩

theorem ProperStage.complete (proper : search.Proper) (stage : ProperStage before)
    (own : candidate.Proper) (limits : Limits) :
    ProperStage (search.complete limits before candidate) := by
  have finishes : (∀ meaning ∈ (finish search.share before.pool candidate).1, meaning.Legal) ∧
      (finish search.share before.pool candidate).2.Proper := by
    unfold finish
    split
    · exact ⟨by simp, stage.pool⟩
    · rename_i frame outer frames
      have top : frame.Proper := own frame (frames ▸ List.mem_cons_self ..)
      split
      · exact ⟨by simp, stage.pool⟩
      · rename_i roots closed
        obtain ⟨shared, later⟩ :=
          shareAll_proper proper.share stage.pool (Frame.close?_proper closed top)
        exact ⟨fun meaning made => Interpretation.ofRoots?_legal made shared, later⟩
  unfold Search.complete
  generalize finish search.share before.pool candidate = outcome at finishes
  obtain ⟨meaning, pool⟩ := outcome
  obtain ⟨legal, poolProper⟩ := finishes
  cases meaning with
  | none => exact ⟨stage.numbered, poolProper, stage.waiting, stage.results⟩
  | some meaning =>
      cases repeats : before.results.any (·.meaning == meaning) with
      | false =>
          simp only [repeats, Bool.false_eq_true, if_false]
          exact ⟨stage.numbered, poolProper, stage.waiting, List.forall_mem_append.2
            ⟨stage.results, List.forall_mem_singleton.2 (legal meaning rfl)⟩⟩
      | true =>
          obtain ⟨earlier, result, later, duplicates, split, -, recorded, -⟩ :=
            repeated_split limits.keepDuplicates repeats
          simp only [repeats, if_true]
          rw [recorded]
          have all := stage.results
          rw [split, List.forall_mem_append, List.forall_mem_cons] at all
          obtain ⟨front, own, back⟩ := all
          exact ⟨stage.numbered, poolProper, stage.waiting,
            List.forall_mem_append.2 ⟨front, List.forall_mem_cons.2 ⟨own, back⟩⟩⟩

variable [TransCmp (Cost.order : κ → κ → Ordering)] {key : κ × Nat}

theorem ProperStage.take (stage : ProperStage before)
    (first : before.queue.minEntry? = some (key, candidate)) :
    candidate.Proper ∧ ProperStage (taken before key) := by
  obtain ⟨numbered, waited, -⟩ := stage.numbered.take first
  refine ⟨stage.waiting _ (waited.mem_iff.2 (List.mem_cons_self ..)), numbered, stage.pool,
    fun other member => ?_, stage.results⟩
  exact stage.waiting _ (waited.mem_iff.2 (List.mem_cons_of_mem _ member))

theorem ProperStage.proceed (proper : search.Proper) (stage : ProperStage before)
    (own : candidate.Proper) : Ensures ProperStage (search.proceed before candidate id steps) := by
  have expands : Ensures (fun expansion => expansion.pool.Proper ∧
      ∀ successor ∈ expansion.successors, successor.Proper)
      (search.expand candidate id steps before.pool) :=
    Ensures.after fun node => expandWith_proper proper stage.pool own
  refine expands.bind fun expansion expanded => ?_
  obtain ⟨poolProper, successors⟩ := expanded
  obtain ⟨numbered, waits⟩ := stage.numbered.enqueueAll expansion.successors
  refine .ok ⟨numbered, poolProper, fun other member => ?_, stage.results⟩
  rcases List.mem_append.1 (waits.mem_iff.1 member) with successor | earlier
  · exact successors other successor
  · exact stage.waiting other earlier

theorem explore_proper (proper : search.Proper) (limits : Limits) (left : Nat)
    (stage : ProperStage before) : Ensures ProperStage (search.explore limits left before) := by
  induction left generalizing before with
  | zero =>
      cases first : before.queue.minEntry? with
      | none =>
          rw [explore_idle 0 first]
          exact .ok stage
      | some entry =>
          rw [explore_stopped first (.inl rfl)]
          exact .ok stage.stopped
  | succ left ih =>
      cases first : before.queue.minEntry? with
      | none =>
          rw [explore_idle _ first]
          exact .ok stage
      | some entry =>
          obtain ⟨key, candidate⟩ := entry
          cases calm : limits.interrupted before.stats.expansions with
          | true =>
              rw [explore_stopped first (.inr calm)]
              exact .ok stage.stopped
          | false =>
              obtain ⟨own, rest⟩ := stage.take first
              rw [explore_next first calm]
              split
              · exact (rest.proceed proper own).bind fun _ onward => ih onward
              · exact ih rest
              · have onward := rest.complete proper own limits
                dsimp only
                split
                · exact .ok onward
                · exact ih onward

theorem discover_proper (proper : search.Proper) :
    Ensures ProperStage (search.discover limits) := by
  have nothing : (.empty : Pool κ).Proper := by
    intro meaning found present
    simp [Pool.empty] at present
  have idle : ProperStage (emptyProgress : Progress κ) :=
    ⟨SearchQueue.numbered_empty, nothing, by simp [Progress.waiting, emptyProgress,
      SearchQueue.candidates], by simp [emptyProgress]⟩
  unfold discover
  split
  · exact .ok idle
  · rename_i root _
    split
    · exact .ok idle
    · refine Ensures.after fun bound => explore_proper proper limits _ ⟨?_, nothing, ?_, ?_⟩
      · exact (SearchQueue.numbered_empty.insert (firstCandidate root bound)).1
      · intro candidate member
        rw [List.mem_singleton.1 (firstProgress_waiting.mem_iff.1 member)]
        exact List.forall_mem_singleton.2 ⟨by simp, by simp⟩
      · simp [firstProgress, emptyProgress]

end Search

namespace Forest

variable [Cost κ] [TransCmp (Cost.order : κ → κ → Ordering)] {table : Table κ} {forest : Forest}
  {limits : Limits} {results : List (Derivation κ)} {stats : SearchStats}

/-- Whatever a search finds means something legal, if all that its rules mean and insert is legal or
waits for arguments. -/
theorem search_legal (proper : table.Proper)
    (found : forest.search table limits = .ok (results, stats)) :
    ∀ result ∈ results, result.meaning.Legal := by
  have shares : Ensures Search.Proper (Search.sharing Pool.intern table forest) := by
    intro search making
    obtain ⟨costs, -, rfl⟩ := Search.sharing_eq_ok.1 making
    exact ⟨proper, Search.intern_keepsProper⟩
  have searches : Ensures (fun outcome : List (Derivation κ) × SearchStats =>
      ∀ result ∈ outcome.1, result.meaning.Legal) (forest.search table limits) :=
    shares.bind fun search known => (Search.discover_proper known).bind fun final stage =>
      .ok fun result member => stage.results result (List.mem_mergeSort.1 member)
  exact searches _ found

end Forest

/-- A grammar in which one function waits inside another for the application of a third. -/
def Grammar.friends : Grammar Amount :=
  let function (name : String) : Concept Amount := ⟨name, 0, .function 1 2 true true⟩
  let word (text : String) (meaning : Meaning Amount) : Rule Amount :=
    { Rule.literal text with meaning := some meaning }
  { start := "S"
    rules := .ofList [
      ("F", [word "by" (.apply (function "repos") [.leaf (function "author")])]),
      ("G", [word "friends" (.leaf (function "friends"))]), ("P", [.symbols ["G", "U"]]),
      ("S", [.symbols ["F", "P"]]), ("U", [word "me" (.leaf ⟨"me", 0, .argument⟩)])]
    concepts := {} }

namespace Forest

set_option maxRecDepth 100000 in
theorem search_legal_friends :
    ∃ (table : Table Amount) (forest : Forest) (results : List (Derivation Amount)) (stats : _),
      Table.compile Grammar.friends = .ok table ∧ table.Proper ∧
      forest.search table ⟨10, 100, false, fun _ => false⟩ = .ok (results, stats) ∧
      results.map (fun result => result.meaning.text) = ["repos(author(friends(me)))"] ∧
      ∀ result ∈ results, result.meaning.Legal := by
  have finds : ((Table.compile Grammar.friends).toOption.any fun table => decide table.Proper &&
      (Lattice.ofQuery table .empty "by friends me").toOption.any fun lattice =>
      (Forest.ofLattice table lattice).toOption.any fun parsed => parsed.toOption.any fun forest =>
        Search.concludes Pool.intern table forest ⟨10, 100, false, fun _ => false⟩ fun final =>
          decide (final.results.map (fun result => result.meaning.text) =
            ["repos(author(friends(me)))"])) = true := by
    decide +kernel
  obtain ⟨table, compiled, finds⟩ := exists_ok_of_any finds
  obtain ⟨proper, finds⟩ := Bool.and_eq_true_iff.1 finds
  obtain ⟨lattice, -, finds⟩ := exists_ok_of_any finds
  obtain ⟨parsed, made, finds⟩ := exists_ok_of_any finds
  obtain ⟨forest, rfl, finds⟩ := exists_ok_of_any finds
  obtain ⟨final, searching, found⟩ := Search.run_of_concludes finds
  obtain ⟨result, single, meant⟩ : ∃ result, final.results = [result] ∧
      result.meaning.text = "repos(author(friends(me)))" := by
    simpa [List.map_eq_singleton_iff] using found
  refine ⟨table, forest, _, _, compiled, of_decide_eq_true proper, searching, ?_,
    search_legal (of_decide_eq_true proper) searching⟩
  rw [single, List.mergeSort_singleton, List.map_singleton, meant]

end Forest

end QueryGrammar
