import Mathlib.Algebra.Order.BigOperators.Group.List
import Mathlib.Data.List.Infix
import Mathlib.Data.Set.Card
import QueryGrammar.Proofs.Costs
import QueryGrammar.Proofs.Search.Count
import QueryGrammar.Proofs.Search.Sound

namespace QueryGrammar

/-! What a search does not miss.

Main statement: a search that is not cut short and finds less than it may has found the meaning of
every tree, and has come upon every tree with a meaning once.
-/

open Std

variable {κ : Type} [Cost κ]

def Forest.trees (forest : Forest) (root : Nat) : Set Tree :=
  { tree | ∃ choices, forest.Spells [root] choices [tree] }

namespace Search

variable {search : Search κ} {lattice : Lattice} {kindOf : String → ConceptKind}
  {InUse : Pool κ → Prop} {root id index : Nat} {limits : Limits} {before after : Progress κ}
  {candidate : Candidate κ} {steps : List Step} {choices : List Choice}
  {own meaning : Interpretation κ} {fits : κ → List Choice → Prop}

/-- Every derivation with a meaning is still to come from a candidate, or a result has its meaning
at a cost that fits it. -/
def Covers (search : Search κ) (root : Nat) (fits : κ → List Choice → Prop)
    (progress : Progress κ) : Prop :=
  ∀ choices meaning, Means search root choices meaning →
    (∃ result ∈ progress.results, result.meaning.costless = meaning.costless ∧
      fits result.cost choices) ∨
    ∃ candidate ∈ progress.waiting, candidate.choices.reverse <+: choices

theorem Means.unique (means : Means search root choices own)
    (also : Means search root choices meaning) : own = meaning := by
  obtain ⟨tree, spells, known⟩ := means
  obtain ⟨tree', spells', known'⟩ := also
  cases spells.trees_unique spells'
  exact Option.some.inj (known.symm.trans known')

/-- Results stay, though they may gain duplicates. -/
theorem Turn.keeps (turn : Turn search limits kindOf root before after) :
    ∀ result ∈ before.results, ∃ also ∈ after.results,
      also.meaning = result.meaning ∧ also.cost = result.cost := by
  intro result member
  cases turn with
  | expanded _ _ _ _ _ same => exact ⟨result, same ▸ member, rfl, rfl⟩
  | illegal _ _ _ _ _ same => exact ⟨result, same ▸ member, rfl, rfl⟩
  | found _ _ _ _ _ _ same => exact ⟨result, by simp [same, member], rfl, rfl⟩
  | @repeated candidate others own first rest repeated duplicates _ _ _ _ _ split same =>
      rw [split] at member
      rcases List.mem_append.1 member with earlier | later
      · exact ⟨result, by simp [same, earlier], rfl, rfl⟩
      · rcases List.mem_cons.1 later with rfl | later
        · exact ⟨{ result with duplicates := result.duplicates ++ duplicates }, by simp [same], rfl,
            rfl⟩
        · exact ⟨result, by simp [same, later], rfl, rfl⟩

/-- Every alternative leads to a successor or is dropped for good reason. -/
theorem Expands.mem {alternatives : List Alternative} {successors : List (Candidate κ)}
    (expands : Expands search kindOf root candidate id steps index alternatives successors)
    (offset : Nat) (inside : offset < alternatives.length) :
    (∃ successor ∈ successors, successor.choices = (id, index + offset) :: candidate.choices) ∨
      Hopeless search root (candidate.choices.reverse ++ [(id, index + offset)]) := by
  induction expands generalizing offset with
  | nil => exact absurd inside (Nat.not_lt_zero _)
  | @chosen index alternative rest successor successors succeeds _ ih =>
      cases offset with
      | zero => exact .inl ⟨successor, List.mem_cons_self .., succeeds.choices⟩
      | succ offset =>
          rw [Nat.add_comm offset, ← Nat.add_assoc]
          refine (ih offset (Nat.lt_of_succ_lt_succ inside)).imp_left ?_
          intro ⟨later, member, same⟩
          exact ⟨later, List.mem_cons_of_mem _ member, same⟩
  | @dropped index alternative rest successors hopeless _ ih =>
      cases offset with
      | zero => exact .inr hopeless
      | succ offset =>
          rw [Nat.add_comm offset, ← Nat.add_assoc]
          exact ih offset (Nat.lt_of_succ_lt_succ inside)

theorem Turn.covers (turn : Turn search limits kindOf root before after)
    (covers : Covers search root fits before)
    (fresh : ∀ candidate ∈ before.waiting, candidate.Stands search kindOf root →
      candidate.steps = [] → fits candidate.cost candidate.choices.reverse)
    (known : ∀ result ∈ before.results, ∀ candidate ∈ before.waiting,
      candidate.Stands search kindOf root → candidate.steps = [] →
        fits result.cost candidate.choices.reverse) : Covers search root fits after := by
  intro choices meaning means
  rcases covers choices meaning means with ⟨result, member, same, fit⟩ | ⟨waits, member, begins⟩
  · obtain ⟨also, memberAlso, meanings, costs⟩ := turn.keeps result member
    exact .inl ⟨also, memberAlso, by rw [meanings, same], by rwa [costs]⟩
  -- A derivation that has yet to come goes on waiting, unless this turn takes its candidate.
  have untaken : ∀ {candidate successors others}, Takes limits before after candidate successors
      others → waits ≠ candidate → ∃ candidate ∈ after.waiting,
        candidate.choices.reverse <+: choices := by
    intro candidate successors others takes other
    refine ⟨waits, takes.waits.mem_iff.2 (List.mem_append_right _ ?_), begins⟩
    exact (List.mem_cons.1 (takes.waited.mem_iff.1 member)).resolve_left other
  have whole : ∀ {candidate}, candidate.Stands search kindOf root → candidate.steps = [] →
      waits = candidate → choices = candidate.choices.reverse := by
    intro candidate stands done same
    subst same
    obtain ⟨suffix, rfl⟩ := begins
    obtain ⟨tree, spells, -⟩ := means
    rw [nothing_follows stands done spells, List.append_nil]
  cases turn with
  | @expanded candidate successors others id steps node takes stands next found expands =>
      by_cases same : waits = candidate
      · subst same
        obtain ⟨suffix, rfl⟩ := begins
        have given := means
        obtain ⟨tree, spells, own⟩ := given
        obtain ⟨index, rest, inside, rfl⟩ := next_of_stands stands next found spells
        rcases expands.mem index inside with ⟨successor, successorMember, taken⟩ | hopeless
        · refine .inr ⟨successor,
            takes.waits.mem_iff.2 (List.mem_append_left _ successorMember), rest, ?_⟩
          rw [taken, Nat.zero_add, List.reverse_cons, List.append_assoc, List.singleton_append]
        · rw [Nat.zero_add] at hopeless
          rw [hopeless rest tree (by simpa using spells)] at own
          cases own
      · exact .inr (untaken takes same)
  | @illegal candidate others tree takes stands done spells nothing =>
      by_cases same : waits = candidate
      · obtain ⟨again, spellsAlso, own⟩ := means
        rw [whole stands done same] at spellsAlso
        cases spells.trees_unique spellsAlso
        cases nothing.symm.trans own
      · exact .inr (untaken takes same)
  | @found candidate others own meaning takes stands done ownMeans alike _ results =>
      by_cases same : waits = candidate
      · have all := whole stands done same
        subst all
        refine .inl ⟨⟨candidate.cost, meaning, candidate.choices.reverse, []⟩, by simp [results], ?_,
          fresh candidate (same ▸ member) stands done⟩
        rw [← alike, ownMeans.unique means]
      · exact .inr (untaken takes same)
  | @repeated candidate others own first rest result duplicates takes stands done ownMeans alike
      split results =>
      by_cases same : waits = candidate
      · have all := whole stands done same
        subst all
        refine .inl ⟨{ result with duplicates := result.duplicates ++ duplicates },
          by simp [results], ?_, known result (by simp [split]) candidate (same ▸ member) stands done⟩
        rw [← alike, ownMeans.unique means]
      · exact .inr (untaken takes same)

theorem exists_legal (finite : (search.forest.readings [root]).Finite) :
    ∃ lists, Legal search root lists := by
  have some : { choices | ∃ meaning, Means search root choices meaning }.Finite :=
    finite.subset fun choices ⟨meaning, tree, spells, _⟩ => ⟨[tree], spells⟩
  exact ⟨some.toFinset, fun choices => some.mem_toFinset⟩

omit [Cost κ] in
theorem exists_beginnings (finite : (search.forest.readings [root]).Finite) :
    ∃ lists, Beginnings search root lists := by
  have some : { choices | ∃ suffix tree,
      search.forest.Spells [root] (choices ++ suffix) [tree] }.Finite := by
    have each : ∀ whole ∈ search.forest.readings [root],
        { choices : List Choice | choices <+: whole }.Finite := by
      intro whole _
      refine (List.finite_toSet whole.inits).subset fun choices begins => ?_
      exact (List.mem_inits choices whole).2 begins
    refine (finite.biUnion each).subset fun choices ⟨suffix, tree, spells⟩ => ?_
    exact Set.mem_biUnion ⟨[tree], spells⟩ (List.prefix_append choices suffix)
  exact ⟨some.toFinset, fun choices => some.mem_toFinset⟩

variable [TransCmp (Cost.order : κ → κ → Ordering)] {lists : Finset (List Choice)}
  {final last : Progress κ} {bound : κ}

theorem totalWeight_firstProgress : totalWeight lists (firstProgress root bound).waiting =
    lists.card := by
  rw [totalWeight_perm firstProgress_waiting]
  simp [totalWeight, firstCandidate, weight_nil]

theorem turns_count (legal : Legal search root lists)
    (turns : Relation.ReflTransGen (Turn search limits kindOf root) (firstProgress root bound)
      last) :
    last.results.length + last.stats.duplicates + totalWeight lists last.waiting = lists.card := by
  induction turns with
  | refl =>
      rw [totalWeight_firstProgress]
      simp [firstProgress, emptyProgress]
  | tail _ turn ih => rw [turn.count legal, ih]

theorem turns_spend (ready : search.Ready lattice kindOf InUse)
    (beginnings : Beginnings search root lists)
    (turns : Relation.ReflTransGen (Turn search limits kindOf root) (firstProgress root bound)
      last) :
    last.stats.expansions + totalWeight lists last.waiting ≤ lists.card := by
  induction turns with
  | refl =>
      rw [totalWeight_firstProgress]
      simp [firstProgress, emptyProgress]
  | tail _ turn ih =>
      have spends := turn.spends ready beginnings
      have expansions := turn.expansions
      omega

/-- How many candidates a search takes at most, whatever its limits are. -/
theorem Concludes.bounded (ready : search.Ready lattice kindOf InUse)
    (beginnings : Beginnings search root lists)
    (concludes : search.Concludes limits kindOf InUse root final) :
    final.stats.expansions ≤ lists.card ∧
      (final.stats.truncated = true → limits.maxExpansions < lists.card ∨
        ∃ count < lists.card, limits.interrupted count = true) := by
  obtain ⟨last, turns, sound, ends⟩ := concludes
  have spent := turns_spend ready beginnings turns
  rcases ends with ⟨rfl, -⟩ | ⟨rfl, waiting, -, cause⟩
  · exact ⟨by omega, fun truncated => absurd truncated (by simp [sound.running])⟩
  · obtain ⟨candidate, member⟩ := List.exists_mem_of_ne_nil _ waiting
    have weighs := weight_pos (beginnings.mem ready (sound.stands candidate member))
    have part : weight lists candidate.choices.reverse ≤ totalWeight lists last.waiting :=
      List.single_le_sum (by simp) _ (List.mem_map_of_mem member)
    have expansions : (stopped last).stats.expansions = last.stats.expansions := rfl
    refine ⟨by omega, fun _ => ?_⟩
    rcases cause with reached | interrupted
    · exact .inl (by omega)
    · exact .inr ⟨_, by omega, interrupted⟩

omit [TransCmp (Cost.order : κ → κ → Ordering)] in
theorem Concludes.exhausted (concludes : search.Concludes limits kindOf InUse root final)
    (whole : final.stats.truncated = false) (few : final.results.length < limits.results) :
    Relation.ReflTransGen (Turn search limits kindOf root)
      (firstProgress root (search.cheapestAt root)) final ∧ final.waiting = [] := by
  obtain ⟨last, turns, sound, ends⟩ := concludes
  rcases ends with ⟨rfl, none | enough⟩ | ⟨rfl, -⟩
  · exact ⟨turns, none⟩
  · exact absurd enough (Nat.ne_of_lt few)
  · cases whole

theorem firstProgress_covers : Covers search root fits (firstProgress root bound) :=
  fun _ _ _ => .inr ⟨firstCandidate root bound,
    firstProgress_waiting.mem_iff.2 (List.mem_singleton.2 rfl), List.nil_prefix⟩

theorem turns_cover
    (turns : Relation.ReflTransGen (Turn search limits kindOf root) (firstProgress root bound)
      last) : Covers search root (fun _ _ => True) last := by
  induction turns with
  | refl => exact firstProgress_covers
  | tail _ turn ih => exact turn.covers ih (fun _ _ _ _ => trivial) fun _ _ _ _ _ _ => trivial

end Search

namespace Forest

variable {table : Table κ} {lattice : Lattice} {forest : Forest} {root : Nat}

/-- Trees with a meaning are as many as the choices that make them up. -/
theorem Presents.card_trees {search : Search κ} {lists : Finset (List Choice)}
    (presents : search.forest.Presents search.table lattice) (legal : Search.Legal search root lists) :
    lists.card = { tree ∈ search.forest.trees root |
      (tree.interpretation? search.table search.forest).isSome }.ncard := by
  have means : ∀ choices ∈ lists, ∃ tree, search.forest.Spells [root] choices [tree] ∧
      (tree.interpretation? search.table search.forest).isSome := by
    intro choices member
    obtain ⟨meaning, tree, spells, known⟩ := (legal choices).1 member
    exact ⟨tree, spells, by simp [known]⟩
  choose treeOf spells known using means
  rw [← Set.ncard_coe_finset]
  refine Set.ncard_congr treeOf (fun choices member => ?_) (fun first second member also same => ?_)
    fun tree ⟨⟨choices, spelled⟩, present⟩ => ?_
  · exact ⟨⟨choices, spells choices member⟩, known choices member⟩
  · exact ((spells first member).unique presents (spells second also) (by rw [same])).1
  · obtain ⟨meaning, own⟩ := Option.isSome_iff_exists.1 present
    have member := (legal choices).2 ⟨meaning, tree, spelled, own⟩
    exact ⟨choices, member, List.cons.inj ((spells choices member).trees_unique spelled) |>.1⟩

theorem Parsed.finite_readings {grammar : Grammar κ} {gazetteer : Gazetteer} {query : String}
    (parsed : forest.Parsed grammar gazetteer query table lattice) (nodes : List Nat) :
    (forest.readings nodes).Finite := by
  obtain ⟨presents, -⟩ := parsed.presents
  obtain ⟨rank, -, falls⟩ := presents.exists_rank parsed.noCycle
  exact Forest.finite_readings falls nodes

theorem finite_trees (finite : (forest.readings [root]).Finite) : (forest.trees root).Finite := by
  have spelled : ∀ tree ∈ forest.trees root, ∃ choices, forest.Spells [root] choices [tree] :=
    fun _ member => member
  choose! choicesOf spells using spelled
  have maps : Set.MapsTo choicesOf (forest.trees root) (forest.readings [root]) :=
    fun tree member => ⟨[tree], spells tree member⟩
  refine Set.Finite.of_injOn maps (fun first member second also same => ?_) finite
  have spellsAlso := spells second also
  rw [← same] at spellsAlso
  exact (List.cons.inj ((spells first member).trees_unique spellsAlso)).1

/-- Searches are complete. They take a number of candidates that no limit influences. One that is not
cut short and finds less than it may has found exactly the meanings that trees have, and has come
upon every tree with a meaning once. -/
theorem search_complete [TransCmp (Cost.order : κ → κ → Ordering)] {grammar : Grammar κ}
    {gazetteer : Gazetteer} {query : String}
    (parsed : forest.Parsed grammar gazetteer query table lattice) :
    ∃ root bound, forest.root = some root ∧ (forest.trees root).Finite ∧ ∀ limits : Limits,
      ∃ results stats, forest.search table limits = .ok (results, stats) ∧
        stats.expansions ≤ bound ∧
        (stats.truncated = true → limits.maxExpansions < bound ∨
          ∃ count < bound, limits.interrupted count = true) ∧
        (stats.truncated = false → results.length < limits.results →
          { meaning | ∃ result ∈ results, result.meaning.costless = meaning } =
            { meaning | ∃ tree ∈ forest.trees root, ∃ own,
              tree.interpretation? table forest = some own ∧ own.costless = meaning } ∧
          results.length + stats.duplicates = { tree ∈ forest.trees root |
            (tree.interpretation? table forest).isSome }.ncard) := by
  have finite := parsed.finite_readings
  obtain ⟨search, kindOf, root, rfl, rfl, ready, -, top, -, runs⟩ := parsed.search_spec
  obtain ⟨legalLists, legal⟩ := Search.exists_legal (finite [root])
  obtain ⟨lists, beginnings⟩ := Search.exists_beginnings (finite [root])
  refine ⟨root, lists.card, top, finite_trees (finite [root]), fun limits => ?_⟩
  obtain ⟨final, searching, outcome⟩ := runs limits
  refine ⟨_, _, searching, ?_⟩
  rcases outcome with ⟨unwanted, rfl⟩ | ⟨-, concludes⟩
  · refine ⟨Nat.zero_le _, fun truncated => absurd truncated (by simp [Search.emptyProgress]),
      fun _ less => absurd less ?_⟩
    simp [unwanted]
  have sorted := List.mergeSort_perm final.results Search.isCheaper
  obtain ⟨few, cause⟩ := concludes.bounded ready beginnings
  refine ⟨few, cause, fun whole less => ?_⟩
  obtain ⟨turns, nothing⟩ := concludes.exhausted whole (sorted.length_eq ▸ less)
  obtain ⟨-, -, confirmed⟩ := concludes.results
  constructor
  · ext meaning
    constructor
    · intro given
      obtain ⟨result, member, same⟩ := given
      obtain ⟨tree, own, spells, -, -, known, alike⟩ :=
        (confirmed result (sorted.mem_iff.1 member)).own
      exact ⟨tree, ⟨_, spells⟩, own, known, alike.trans same⟩
    · intro given
      obtain ⟨tree, ⟨choices, spells⟩, own, known, same⟩ := given
      rcases Search.turns_cover turns choices own ⟨tree, spells, known⟩ with
        ⟨result, member, alike, -⟩ | ⟨candidate, waits, -⟩
      · exact ⟨result, sorted.mem_iff.2 member, alike.trans same⟩
      · rw [nothing] at waits
        cases waits
  · have counted := Search.turns_count legal turns
    rw [nothing] at counted
    rw [sorted.length_eq, ← ready.presents.card_trees legal, ← counted]
    rfl

set_option maxRecDepth 100000 in
theorem search_complete_repeated : ∃ table lattice forest,
    Parsed Grammar.repeated .empty "x x x x" table lattice forest ∧
      ∃ root bound, forest.root = some root ∧ (forest.trees root).Finite ∧ ∀ limits : Limits,
        ∃ results stats, forest.search table limits = .ok (results, stats) ∧
          stats.expansions ≤ bound ∧
          (stats.truncated = true → limits.maxExpansions < bound ∨
            ∃ count < bound, limits.interrupted count = true) ∧
          (stats.truncated = false → results.length < limits.results →
            { meaning | ∃ result ∈ results, result.meaning.costless = meaning } =
              { meaning | ∃ tree ∈ forest.trees root, ∃ own,
                tree.interpretation? table forest = some own ∧ own.costless = meaning } ∧
            results.length + stats.duplicates = { tree ∈ forest.trees root |
              (tree.interpretation? table forest).isSome }.ncard) := by
  have reads : Grammar.repeated.reads .empty "x x x x" = true := by decide +kernel
  obtain ⟨table, lattice, forest, parsed⟩ := Grammar.exists_parsed reads
  exact ⟨table, lattice, forest, parsed, search_complete parsed⟩

end Forest

end QueryGrammar
