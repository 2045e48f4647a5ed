import QueryGrammar.Proofs.Search.Race

namespace QueryGrammar

/-! The order of the results of a search.

Main statement: of two derivations that part at a node, the one that is the first to pass all of its
bounds is found first, and the other one is not returned if they mean the same.  The alternative of
lower index is first if its derivation takes no more choices and none of its bounds is higher.
Where all bounds are level, the shorter derivation is first.
-/

section

variable {earlier : Bool} {bound level : ℚ} {bounds others : List ℚ} {least : List Choice → ℚ}
  {whole first second : List Choice} {made shared place : Nat}

/-- Where all bounds are level, the derivations go in turns. -/
theorem outruns_of_level (some : bounds ≠ [] ∨ others ≠ [])
    (same : ∀ bound ∈ bounds, bound = level) (also : ∀ other ∈ others, other = level) :
    outruns earlier bounds others = true ↔ bounds.length < others.length + earlier.toNat := by
  induction earlier, bounds, others using outruns.induct with
  | case1 earlier others =>
      have more := List.length_pos_iff.2 (some.resolve_left (not_not.2 rfl))
      simp only [outruns, List.length_nil, true_iff]
      omega
  | case2 earlier bound bounds =>
      have few := earlier.toNat_le
      simp only [outruns, List.length_cons, List.length_nil, Bool.false_eq_true, false_iff]
      omega
  | case3 earlier bound bounds other others first ih =>
      obtain ⟨rfl, sameRest⟩ := List.forall_mem_cons.1 same
      obtain ⟨rfl, alsoRest⟩ := List.forall_mem_cons.1 also
      obtain rfl : earlier = true := by simpa using first
      rw [outruns, if_pos first, ih (.inr (List.cons_ne_nil _ _)) sameRest also]
      simp only [List.length_cons, Bool.toNat_true, Bool.toNat_false]
      omega
  | case4 earlier bound bounds other others later ih =>
      obtain ⟨rfl, sameRest⟩ := List.forall_mem_cons.1 same
      obtain ⟨rfl, alsoRest⟩ := List.forall_mem_cons.1 also
      obtain rfl : earlier = false := by simpa using later
      rw [outruns, if_neg later, ih (.inl (List.cons_ne_nil _ _)) same alsoRest]
      rfl

theorem boundsFrom_length : (boundsFrom least whole made).length = whole.length + 1 - made := by
  simp [boundsFrom]

theorem boundsFrom_getElem? (found : (boundsFrom least whole made)[place]? = some bound) :
    made + place ≤ whole.length ∧ least (whole.take (made + place)) = bound := by
  obtain ⟨inside, rfl⟩ := List.getElem?_eq_some_iff.1 found
  rw [boundsFrom_length] at inside
  exact ⟨by omega, by simp [boundsFrom]⟩

/-- Whether the first of two derivations is complete before the second, which is queued behind it
where they part. -/
def precedes (least : List Choice → ℚ) (shared : Nat) (first second : List Choice) : Bool :=
  outruns true (boundsFrom least first (shared + 1)) (boundsFrom least second (shared + 1))

theorem precedes_of_lower (shorter : first.length ≤ second.length)
    (lower : ∀ count, shared < count → count ≤ first.length →
      least (first.take count) ≤ least (second.take count)) :
    precedes least shared first second = true := by
  have wins : outruns true ((boundsFrom least first (shared + 1)).drop 0)
      (boundsFrom least second (shared + 1)) = true := by
    refine outruns_of_ahead (fun _ => rfl) ?_ fun place bound other found also => ?_
    · rw [boundsFrom_length, boundsFrom_length]
      omega
    · obtain ⟨inside, rfl⟩ := boundsFrom_getElem? found
      obtain ⟨-, rfl⟩ := boundsFrom_getElem? also
      exact lower _ (by omega) inside
  rwa [List.drop_zero] at wins

theorem precedes_of_level (more : shared < first.length)
    (same : ∀ count, shared < count → count ≤ first.length → least (first.take count) = level)
    (also : ∀ count, shared < count → count ≤ second.length → least (second.take count) = level) :
    precedes least shared first second = true ↔ first.length ≤ second.length := by
  have all : ∀ whole : List Choice,
      (∀ count, shared < count → count ≤ whole.length → least (whole.take count) = level) →
        ∀ bound ∈ boundsFrom least whole (shared + 1), bound = level := by
    intro whole each bound member
    obtain ⟨place, found⟩ := List.getElem?_of_mem member
    obtain ⟨inside, rfl⟩ := boundsFrom_getElem? found
    exact each _ (by omega) inside
  have some : boundsFrom least first (shared + 1) ≠ [] := by
    rw [← List.length_pos_iff, boundsFrom_length]
    omega
  rw [precedes, outruns_of_level (.inl some) (all first same) (all second also), boundsFrom_length,
    boundsFrom_length, Bool.toNat_true]
  omega

end

section

variable {κ : Type} [Cost κ] {results : List (Derivation κ)} {result also : Derivation κ}
  {place other : Nat}

omit [Cost κ] in
/-- A meaning has one place among the results. -/
theorem Distinct.place_eq (distinct : Distinct results) (found : results[place]? = some result)
    (foundAlso : results[other]? = some also)
    (same : result.meaning.costless = also.meaning.costless) : place = other := by
  have apart : results.Nodup := distinct.imp fun {first second} different equal => by
    rw [equal, Interpretation.beq_of_costless rfl] at different
    cases different
  have equal := distinct.eq (List.mem_of_getElem? found) (List.mem_of_getElem? foundAlso) same
  rw [← equal] at foundAlso
  have inside : place < results.length := (List.getElem?_eq_some_iff.1 found).1
  exact (List.getElem?_inj inside apart).1 (found.trans foundAlso.symm)

end

namespace Search

section

variable {results : List (Derivation ℚ)} {loser : List Choice} {meaning : Interpretation ℚ}
  {result rival : Derivation ℚ} {place further : Nat}

/-- The result of the winner's meaning comes before one of the loser. -/
theorem Behind.lt (behind : Behind loser meaning results) (distinct : Distinct results)
    (found : results[place]? = some result) (foundAlso : results[further]? = some rival)
    (won : result.meaning.costless = meaning.costless) (lost : rival.choices = loser) :
    place < further := by
  obtain ⟨earlier, also, less, foundEarlier, same⟩ := behind further rival foundAlso lost
  rwa [distinct.place_eq found foundEarlier (won.trans same.symm)]

/-- If both mean the same, the loser is not among the results. -/
theorem Behind.absent (behind : Behind loser meaning results) (distinct : Distinct results)
    (member : result ∈ results)
    (same : result.choices = loser → result.meaning.costless = meaning.costless) :
    result.choices ≠ loser := by
  intro lost
  obtain ⟨place, found⟩ := List.getElem?_of_mem member
  exact Nat.lt_irrefl place (behind.lt distinct found found (same lost) lost)

end

theorem discover_ascending {search : Search ℚ} {lattice : Lattice} {kindOf : String → ConceptKind}
    {InUse : Pool ℚ → Prop} {root : Nat} {limits : Limits} {final : Progress ℚ}
    (ready : search.Ready lattice kindOf InUse) (inUse : InUse .empty)
    (settled : search.forest.Settles search.table fun id cost => search.cheapest[id]? = some cost)
    (top : search.forest.root = some root) (inside : root < search.forest.nodes.size)
    (discovering : search.discover limits = .ok final) :
    final.results.Pairwise fun first second => first.cost ≤ second.cost := by
  by_cases unwanted : limits.results = 0
  · simp only [discover, top, unwanted, if_true, Except.ok.injEq] at discovering
    subst discovering
    exact .nil
  · have inOrder : InOrder search final :=
      discover_keeps ready inUse top inside unwanted
        (fun _ turn _ inOrder => turn.inOrder inOrder ready settled)
        (fun inOrder => ⟨inOrder.bounded, inOrder.later, inOrder.ascending, inOrder.duplicates⟩)
        firstProgress_inOrder discovering
    exact inOrder.ascending

end Search

/-- Derivations part after some choices, and the first takes an alternative of lower index. -/
def Part (shared first second : List Choice) : Prop :=
  ∃ id index also rest restAlso, index < also ∧ first = shared ++ (id, index) :: rest ∧
    second = shared ++ (id, also) :: restAlso

namespace Forest

/-- Two derivations with meanings that part after some choices. -/
structure Rivals (forest : Forest) (table : Table ℚ) (root : Nat)
    (shared first second : List Choice) (own other : Interpretation ℚ) : Prop where
  own : ∃ tree, forest.Spells [root] first [tree] ∧ tree.interpretation? table forest = some own
  other : ∃ tree, forest.Spells [root] second [tree] ∧
    tree.interpretation? table forest = some other
  part : Part shared first second

section

variable {search : Search ℚ} {least : List Choice → ℚ} {root : Nat}
  {shared first second : List Choice} {own other : Interpretation ℚ}

/-- One of two rivals wins the race from where they part. -/
theorem Rivals.race (rivals : search.forest.Rivals search.table root shared first second own other)
    (isLeast : ∀ beginning suffix tree, search.forest.Spells [root] (beginning ++ suffix) [tree] →
      IsLeast (search.forest.costsFrom search.table root beginning) (least beginning)) :
    precedes least shared.length first second = true ∧
        Search.Race search root least first second own ∨
      precedes least shared.length first second = false ∧
        Search.Race search root least second first other := by
  obtain ⟨id, index, also, rest, restAlso, lower, rfl, rfl⟩ := rivals.part
  cases wins : precedes least shared.length (shared ++ (id, index) :: rest)
      (shared ++ (id, also) :: restAlso) with
  | true =>
      refine .inl ⟨rfl, isLeast, rivals.own,
        shared, id, index, also, rest, restAlso, lower.ne, rfl, rfl, ?_⟩
      rw [decide_eq_true lower]
      exact wins
  | false =>
      refine .inr ⟨rfl, isLeast, rivals.other,
        shared, id, also, index, restAlso, rest, lower.ne', rfl, rfl, ?_⟩
      have some : ∀ (index : Nat) (rest : List Choice),
          boundsFrom least (shared ++ (id, index) :: rest) (shared.length + 1) ≠ [] := by
        intro index rest
        rw [← List.length_pos_iff, boundsFrom_length, List.length_append, List.length_cons]
        omega
      rw [decide_eq_false lower.not_gt, ← Bool.not_true, outruns_swap (some index rest)
        (some also restAlso), Bool.not_eq_true']
      exact wins

end

variable {grammar : Grammar ℚ} {gazetteer : Gazetteer} {query : String} {table : Table ℚ}
  {lattice : Lattice} {forest : Forest}

theorem Confirms.costless_eq {root : Nat} {result : Derivation ℚ} {choices : List Choice}
    {own : Interpretation ℚ} (confirmed : forest.Confirms table root result)
    (means : ∃ tree, forest.Spells [root] choices [tree] ∧
      tree.interpretation? table forest = some own) (same : result.choices = choices) :
    result.meaning.costless = own.costless := by
  obtain ⟨tree, spells, known⟩ := means
  obtain ⟨treeAlso, ownAlso, spellsAlso, -, -, knownAlso, alike⟩ := confirmed.own
  rw [same] at spellsAlso
  cases spells.trees_unique spellsAlso
  cases known.symm.trans knownAlso
  exact alike.symm

/-- Confirmed results whose choices part are rivals. -/
theorem Confirms.exists_rivals {root : Nat} {shared : List Choice} {result rival : Derivation ℚ}
    (confirmed : forest.Confirms table root result) (also : forest.Confirms table root rival)
    (part : Part shared result.choices rival.choices) :
    ∃ own other, forest.Rivals table root shared result.choices rival.choices own other ∧
      own.costless = result.meaning.costless ∧ other.costless = rival.meaning.costless := by
  obtain ⟨tree, own, spells, -, -, known, alike⟩ := confirmed.own
  obtain ⟨treeAlso, other, spellsAlso, -, -, knownAlso, alikeAlso⟩ := also.own
  exact ⟨own, other, ⟨⟨tree, spells, known⟩, ⟨treeAlso, spellsAlso, knownAlso⟩, part⟩, alike,
    alikeAlso⟩

/-- One of two rivals comes after the meaning of the other. -/
theorem Parsed.rivals_behind (parsed : forest.Parsed grammar gazetteer query table lattice)
    {limits : Limits} {root : Nat} {results : List (Derivation ℚ)} {stats : SearchStats}
    {least : List Choice → ℚ} (top : forest.root = some root)
    (searching : forest.search table limits = .ok (results, stats))
    (isLeast : ∀ beginning suffix tree, forest.Spells [root] (beginning ++ suffix) [tree] →
      IsLeast (forest.costsFrom table root beginning) (least beginning))
    {shared first second : List Choice} {own other : Interpretation ℚ}
    (rivals : forest.Rivals table root shared first second own other) :
    precedes least shared.length first second = true ∧ Search.Behind second own results ∨
      precedes least shared.length first second = false ∧ Search.Behind first other results := by
  obtain ⟨presents, again, topAgain, inside⟩ := parsed.presents
  obtain ⟨rank, -, falls⟩ := presents.exists_rank parsed.noCycle
  obtain ⟨search, kindOf, making, rfl, rfl, ready, settled⟩ := parsed.ready
  cases top.symm.trans topAgain
  rw [search_eq making] at searching
  cases discovering : search.discover limits with
  | error cause =>
      rw [discovering] at searching
      cases searching
  | ok final =>
      have ascending := Search.discover_ascending ready Pool.kinded_empty settled top inside
        discovering
      have unchanged : final.results.mergeSort Search.isCheaper = final.results :=
        List.mergeSort_of_pairwise (ascending.imp Search.isCheaper_iff.2)
      rw [discovering, Except.map, unchanged, Except.ok.injEq, Prod.mk.injEq] at searching
      rw [← searching.1]
      refine (rivals.race isLeast).imp (And.imp_right fun race => ?_)
        (And.imp_right fun race => ?_)
      · exact race.loser_behind ready settled falls Pool.kinded_empty top inside discovering
      · exact race.loser_behind ready settled falls Pool.kinded_empty top inside discovering

/-- Of two derivations that part at a node, a search finds the one first that is the first to pass
the bounds it is left with, whatever the limits. If they mean the same, the other one is not
returned. -/
theorem search_precedence (parsed : forest.Parsed grammar gazetteer query table lattice)
    (limits : Limits) :
    ∃ root results stats least, forest.root = some root ∧
      forest.search table limits = .ok (results, stats) ∧
      (∀ beginning suffix tree, forest.Spells [root] (beginning ++ suffix) [tree] →
        IsLeast (forest.costsFrom table root beginning) (least beginning)) ∧
      ∀ shared first second own other, forest.Rivals table root shared first second own other →
        (∀ (place further : Nat) result rival, results[place]? = some result →
          results[further]? = some rival → result.choices = first → rival.choices = second →
            (place < further ↔ precedes least shared.length first second = true)) ∧
        (own.costless = other.costless → ∀ result ∈ results, result.choices ≠
          if precedes least shared.length first second then second else first) ∧
        (first.length ≤ second.length →
          (∀ count, shared.length < count → count ≤ first.length →
            least (first.take count) ≤ least (second.take count)) →
          precedes least shared.length first second = true) ∧
        ∀ level,
          (∀ count, shared.length < count → count ≤ first.length →
            least (first.take count) = level) →
          (∀ count, shared.length < count → count ≤ second.length →
            least (second.take count) = level) →
          (precedes least shared.length first second = true ↔ first.length ≤ second.length) := by
  obtain ⟨root, results, stats, top, searching, -, distinct, confirmed⟩ :=
    parsed.search_confirms limits
  obtain ⟨least, isLeast⟩ := parsed.exists_least root
  refine ⟨root, results, stats, least, top, searching, isLeast,
    fun shared first second own other rivals => ⟨?_, ?_, precedes_of_lower, fun level =>
      precedes_of_level ?_⟩⟩
  · intro place further result rival found foundAlso one two
    have means := (confirmed result (List.mem_of_getElem? found)).costless_eq rivals.own one
    have also := (confirmed rival (List.mem_of_getElem? foundAlso)).costless_eq rivals.other two
    rcases parsed.rivals_behind top searching isLeast rivals with ⟨wins, behind⟩ | ⟨loses, behind⟩
    · exact iff_of_true (behind.lt distinct found foundAlso means two) wins
    · have less := behind.lt distinct foundAlso found also one
      exact iff_of_false less.not_gt (by simp [loses])
  · intro same result member
    have confirms := confirmed result member
    rcases parsed.rivals_behind top searching isLeast rivals with ⟨wins, behind⟩ | ⟨loses, behind⟩
    · rw [if_pos wins]
      exact behind.absent distinct member fun lost =>
        (confirms.costless_eq rivals.other lost).trans same.symm
    · rw [if_neg (by simp [loses])]
      exact behind.absent distinct member fun lost =>
        (confirms.costless_eq rivals.own lost).trans same
  · obtain ⟨id, index, also, rest, restAlso, -, rfl, -⟩ := rivals.part
    simp

end Forest

/-- A grammar that reads two words as a pair, of which one has two meanings, or as one. -/
def Grammar.compound : Grammar ℚ :=
  let reading (text meaning : String) (cost : ℚ) : Rule ℚ :=
    { Rule.literal text with cost := cost, meaning := some (.leaf ⟨meaning, 0, .argument⟩) }
  { start := "S"
    rules := .ofList [("A", [reading "ice" "frozen" 0, reading "Ice" "slippery" (1 / 10 ^ 7)]),
      ("B", [.literal "cream"]),
      ("S", [.symbols ["A", "B"], reading "ice cream" "dessert" (1 / 10 ^ 7)])]
    concepts := {} }

/-- Whether a search finds the compound as one word between the two pairs, at the cost of the
last. -/
def Progress.isCompound (final : Progress ℚ) : Bool :=
  decide (final.results.map (fun result => (result.choices, result.cost)) =
    [([(1, 0), (0, 0), (2, 0)], 0), ([(1, 1)], 1 / 10 ^ 7),
      ([(1, 0), (0, 1), (2, 0)], 1 / 10 ^ 7)])

namespace Forest

set_option maxRecDepth 100000 in
theorem exists_compound : ∃ table lattice forest root pair whole last stats,
    Forest.Parsed .compound .empty "ice cream" table lattice forest ∧ forest.root = some root ∧
      forest.search table ⟨10, 100, true, fun _ => false⟩ = .ok ([pair, whole, last], stats) ∧
      pair.choices = [(1, 0), (0, 0), (2, 0)] ∧ whole.choices = [(1, 1)] ∧
      last.choices = [(1, 0), (0, 1), (2, 0)] ∧ whole.cost = last.cost ∧
      Distinct [pair, whole, last] ∧
      ∀ result ∈ [pair, whole, last], forest.Confirms table root result := by
  have reads : Grammar.compound.reads .empty "ice cream" = true := by decide +kernel
  have finds : Grammar.compound.finds .empty "ice cream" ⟨10, 100, true, fun _ => false⟩
      Progress.isCompound = true := by decide +kernel
  obtain ⟨table, lattice, forest, parsed⟩ := Grammar.exists_parsed reads
  obtain ⟨final, searching, found⟩ :=
    Grammar.search_of_finds finds parsed.compiled parsed.read parsed.made
  obtain ⟨pair, whole, last, split, ⟨chosen, cost⟩, ⟨chosenWhole, costWhole⟩, chosenLast,
      costLast⟩ :
      ∃ pair whole last, final.results = [pair, whole, last] ∧
        (pair.choices = [(1, 0), (0, 0), (2, 0)] ∧ pair.cost = 0) ∧
        (whole.choices = [(1, 1)] ∧ whole.cost = 1 / 10 ^ 7) ∧
        last.choices = [(1, 0), (0, 1), (2, 0)] ∧ last.cost = 1 / 10 ^ 7 := by
    simpa [List.map_eq_cons_iff, and_assoc] using of_decide_eq_true found
  have ordered : final.results.Pairwise fun first second => first.cost ≤ second.cost := by
    rw [split]
    simp [cost, costWhole, costLast]
  rw [List.mergeSort_of_pairwise (ordered.imp Search.isCheaper_iff.2), split] at searching
  obtain ⟨root, results, stats, top, searchingAgain, -, distinct, confirmed⟩ :=
    parsed.search_confirms ⟨10, 100, true, fun _ => false⟩
  cases searching.symm.trans searchingAgain
  exact ⟨table, lattice, forest, root, pair, whole, last, final.stats, parsed, top, searching,
    chosen, chosenWhole, chosenLast, costWhole.trans costLast.symm, distinct, confirmed⟩

theorem search_precedence_compound :
    ∃ table lattice forest root pair whole last stats least,
      Forest.Parsed .compound .empty "ice cream" table lattice forest ∧ forest.root = some root ∧
      forest.search table ⟨10, 100, true, fun _ => false⟩ = .ok ([pair, whole, last], stats) ∧
      (∀ beginning suffix tree, forest.Spells [root] (beginning ++ suffix) [tree] →
        IsLeast (forest.costsFrom table root beginning) (least beginning)) ∧
      (∃ own other, forest.Rivals table root [] pair.choices whole.choices own other) ∧
      precedes least 0 pair.choices whole.choices = true ∧
      (∃ own other, forest.Rivals table root [] last.choices whole.choices own other) ∧
      precedes least 0 last.choices whole.choices = false := by
  obtain ⟨table, lattice, forest, root, pair, whole, last, stats, parsed, top, searching, chosen,
    chosenWhole, chosenLast, -, -, confirmed⟩ := exists_compound
  have ofWhole := confirmed whole (by simp)
  have partPair : Part [] pair.choices whole.choices :=
    ⟨1, 0, 1, [(0, 0), (2, 0)], [], by decide, chosen, chosenWhole⟩
  have partLast : Part [] last.choices whole.choices :=
    ⟨1, 0, 1, [(0, 1), (2, 0)], [], by decide, chosenLast, chosenWhole⟩
  obtain ⟨own, other, rivals, -, -⟩ := (confirmed pair (by simp)).exists_rivals ofWhole partPair
  obtain ⟨ownLast, otherLast, rivalsLast, -, -⟩ :=
    (confirmed last (by simp)).exists_rivals ofWhole partLast
  obtain ⟨rootAgain, results, statsAgain, least, topAgain, searchingAgain, isLeast, race⟩ :=
    search_precedence parsed ⟨10, 100, true, fun _ => false⟩
  cases top.symm.trans topAgain
  cases searching.symm.trans searchingAgain
  obtain ⟨order, -⟩ := race [] _ _ own other rivals
  obtain ⟨orderLast, -⟩ := race [] _ _ ownLast otherLast rivalsLast
  have ahead := (order 0 1 pair whole rfl rfl rfl rfl).1 Nat.zero_lt_one
  have behind := mt (orderLast 2 1 last whole rfl rfl rfl rfl).2 (by decide)
  exact ⟨table, lattice, forest, root, pair, whole, last, stats, least, parsed, top, searching,
    isLeast, ⟨own, other, rivals⟩, ahead, ⟨ownLast, otherLast, rivalsLast⟩, by simpa using behind⟩

/-- The pair that costs as much as the compound in one word takes an alternative of lower index, and
comes second. -/
theorem search_against_index : ∃ table lattice forest root pair whole last stats own other,
    Forest.Parsed .compound .empty "ice cream" table lattice forest ∧ forest.root = some root ∧
      forest.search table ⟨10, 100, true, fun _ => false⟩ = .ok ([pair, whole, last], stats) ∧
      whole.cost = last.cost ∧ own.costless ≠ other.costless ∧
      forest.Rivals table root [] last.choices whole.choices own other := by
  obtain ⟨table, lattice, forest, root, pair, whole, last, stats, parsed, top, searching, -,
    chosenWhole, chosenLast, level, distinct, confirmed⟩ := exists_compound
  have part : Part [] last.choices whole.choices :=
    ⟨1, 0, 1, [(0, 1), (2, 0)], [], by decide, chosenLast, chosenWhole⟩
  obtain ⟨own, other, rivals, alike, alikeWhole⟩ :=
    (confirmed last (by simp)).exists_rivals (confirmed whole (by simp)) part
  refine ⟨table, lattice, forest, root, pair, whole, last, stats, own, other, parsed, top,
    searching, level, fun same => ?_, rivals⟩
  have meanings : whole.meaning.costless = last.meaning.costless :=
    alikeWhole.symm.trans (same.symm.trans alike)
  have places : 1 = 2 := distinct.place_eq rfl rfl meanings
  cases places

end Forest

end QueryGrammar
