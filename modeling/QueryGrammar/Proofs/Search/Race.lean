import QueryGrammar.Proofs.Search.Bound
import QueryGrammar.Proofs.Search.Order

namespace QueryGrammar

/-! Which of two derivations a search comes upon first.

Main statement: two derivations race from where they part.  Each is at the bound that its choices so
far leave it, the lower bound goes first, and of equal bounds the one that was queued earlier; a
derivation that goes on is queued anew.  The first that is complete comes before the other among the
results, and is the only one of the two if they mean the same.
-/

/-- Whether the first of two derivations is complete before the second, by the bounds that each of
them still has to pass; the flag says whether the first was queued earlier. -/
def outruns : Bool → List ℚ → List ℚ → Bool
  | _, [], _ => true
  | _, _ :: _, [] => false
  | earlier, bound :: bounds, other :: others =>
      if bound < other || (bound == other && earlier) then outruns false bounds (other :: others)
      else outruns true (bound :: bounds) others
termination_by _ bounds others => bounds.length + others.length

section

variable {earlier : Bool} {bound other : ℚ} {bounds others : List ℚ}

theorem outruns_of_first (first : bound < other ∨ bound = other ∧ earlier = true) :
    outruns earlier (bound :: bounds) (other :: others) =
      outruns false bounds (other :: others) := by
  rw [outruns, if_pos]
  simpa using first

theorem outruns_of_later (later : other < bound ∨ other = bound ∧ earlier = false) :
    outruns earlier (bound :: bounds) (other :: others) =
      outruns true (bound :: bounds) others := by
  rw [outruns, if_neg]
  simp only [Bool.or_eq_true, Bool.and_eq_true, decide_eq_true_eq, beq_iff_eq, not_or, not_and]
  rcases later with less | ⟨same, queued⟩
  · exact ⟨less.not_gt, fun same => absurd same less.ne'⟩
  · exact ⟨same.le.not_gt, fun _ => by simp [queued]⟩

/-- One of two derivations wins. -/
theorem outruns_swap (some : bounds ≠ []) (someAlso : others ≠ []) :
    outruns (!earlier) others bounds = !outruns earlier bounds others := by
  induction earlier, bounds, others using outruns.induct with
  | case1 => exact absurd rfl some
  | case2 => exact absurd rfl someAlso
  | case3 earlier bound bounds other others first ih =>
      have goes : bound < other ∨ bound = other ∧ earlier = true := by simpa using first
      rw [outruns_of_first goes,
        outruns_of_later (goes.imp_right fun tie => ⟨tie.1, by simp [tie.2]⟩)]
      cases bounds with
      | nil => simp [outruns]
      | cons => exact ih (List.cons_ne_nil _ _) (List.cons_ne_nil _ _)
  | case4 earlier bound bounds other others later ih =>
      have goes : other < bound ∨ other = bound ∧ earlier = false := by
        simp only [Bool.or_eq_true, Bool.and_eq_true, decide_eq_true_eq, beq_iff_eq, not_or,
          not_and, Bool.not_eq_true] at later
        rcases lt_or_eq_of_le (not_lt.1 later.1) with less | same
        · exact .inl less
        · exact .inr ⟨same, later.2 same.symm⟩
      rw [outruns_of_later goes,
        outruns_of_first (goes.imp_right fun tie => ⟨tie.1, by simp [tie.2]⟩)]
      cases others with
      | nil => simp [outruns]
      | cons => exact ih (List.cons_ne_nil _ _) (List.cons_ne_nil _ _)

/-- A derivation wins if it has no more bounds to pass than the other and each of them is no higher,
as long as it was queued earlier or has passed some of them already. -/
theorem outruns_of_ahead {passed : Nat} (queued : passed = 0 → earlier = true)
    (shorter : bounds.length ≤ others.length)
    (lower : ∀ (place : Nat) bound other, bounds[place]? = some bound →
      others[place]? = some other → bound ≤ other) :
    outruns earlier (bounds.drop passed) others = true := by
  generalize left : bounds.drop passed = rest
  induction earlier, rest, others using outruns.induct generalizing bounds passed with
  | case1 => rw [outruns]
  | case2 earlier bound rest =>
      rw [List.eq_nil_of_length_eq_zero (Nat.le_zero.1 shorter), List.drop_nil] at left
      cases left
  | case3 earlier bound rest other others first ih =>
      rw [outruns, if_pos first]
      have next : bounds.drop (passed + 1) = rest := by
        rw [← List.tail_drop, left, List.tail_cons]
      refine ih ?_ shorter lower next
      exact fun none => absurd none (Nat.succ_ne_zero passed)
  | case4 earlier bound rest other others later ih =>
      rw [outruns, if_neg later]
      cases passed with
      | zero =>
          have least := lower 0 bound other (by rw [List.drop_zero] at left; rw [left]; rfl) rfl
          refine absurd ?_ later
          rcases lt_or_eq_of_le least with less | same <;> simp [*]
      | succ passed =>
          cases bounds with
          | nil => cases left
          | cons first bounds =>
              exact ih (fun _ => rfl) (Nat.le_of_succ_le_succ shorter)
                (fun place bound other => lower (place + 1) bound other) left

end

section

variable {α : Type} {shared rest others start : List α} {first second one two : α}

/-- What begins two lists that part somewhere begins what they share. -/
theorem prefix_of_both (apart : first ≠ second) (begins : start <+: shared ++ first :: rest)
    (also : start <+: shared ++ second :: others) : start <+: shared := by
  rcases List.prefix_or_prefix_of_prefix begins (List.prefix_append shared _) with shorter | longer
  · exact shorter
  obtain ⟨more, rfl⟩ := longer
  rw [List.prefix_append_right_inj] at begins also
  cases more with
  | nil => simp
  | cons next more =>
      obtain ⟨rfl, -⟩ := List.cons_prefix_cons.1 begins
      exact absurd (List.cons_prefix_cons.1 also).1 apart

/-- Lists that begin in the same way part where they go on differently. -/
theorem eq_of_parting (apart : first ≠ second) (differ : one ≠ two)
    (begins : start ++ [one] <+: shared ++ first :: rest)
    (also : start ++ [two] <+: shared ++ second :: others) :
    start = shared ∧ one = first ∧ two = second := by
  have common := prefix_of_both apart ((List.prefix_append start [one]).trans begins)
    ((List.prefix_append start [two]).trans also)
  obtain ⟨more, rfl⟩ := common
  rw [List.append_assoc, List.prefix_append_right_inj] at begins also
  cases more with
  | nil =>
      rw [List.append_nil]
      exact ⟨rfl, (List.cons_prefix_cons.1 begins).1, (List.cons_prefix_cons.1 also).1⟩
  | cons next more =>
      have same := (List.cons_prefix_cons.1 begins).1
      exact absurd (same.trans (List.cons_prefix_cons.1 also).1.symm) differ

end

/-- The bounds that a derivation has to pass once some choices have been made, where each beginning
leaves it the bound that is said. -/
def boundsFrom (least : List Choice → ℚ) (whole : List Choice) (made : Nat) : List ℚ :=
  (List.range' made (whole.length + 1 - made)).map fun count => least (whole.take count)

theorem boundsFrom_of_begins {least : List Choice → ℚ} {start whole : List Choice}
    (begins : start <+: whole) : boundsFrom least whole start.length =
      least start :: boundsFrom least whole (start.length + 1) := by
  have more : whole.length + 1 - start.length =
      (whole.length + 1 - (start.length + 1)) + 1 := by
    have length := begins.length_le
    omega
  rw [boundsFrom, more, List.range'_succ, List.map_cons, ← List.prefix_iff_eq_take.1 begins]
  rfl

theorem boundsFrom_whole (least : List Choice → ℚ) (whole : List Choice) :
    boundsFrom least whole (whole.length + 1) = [] := by
  simp [boundsFrom]

namespace Search

variable {search : Search ℚ} {lattice : Lattice} {kindOf : String → ConceptKind}
  {InUse : Pool ℚ → Prop} {root : Nat} {limits : Limits} {before after : Progress ℚ}
  {least : List Choice → ℚ} {winner loser shared : List Choice} {meaning : Interpretation ℚ}
  {ahead behind next entry : Entry ℚ} {rank : Nat → Nat}

theorem orderOfQueue_eq_lt_iff {first second : ℚ × Nat} : orderOfQueue first second = .lt ↔
    first.1 < second.1 ∨ first.1 = second.1 ∧ first.2 < second.2 := by
  rw [orderOfQueue, Ordering.then_eq_lt]
  exact or_congr compare_lt_iff_lt (and_congr compare_eq_iff_eq compare_lt_iff_lt)

/-- How an entry for the winner stands to one for the loser: it is the same one as long as they have
not parted, and from there on it wins. -/
inductive Leads (least : List Choice → ℚ) (winner loser : List Choice) (ahead behind : Entry ℚ) :
    Prop
  | together : ahead = behind → Leads least winner loser ahead behind
  | apart : outruns (decide (ahead.1.2 < behind.1.2))
        (boundsFrom least winner ahead.2.choices.reverse.length)
        (boundsFrom least loser behind.2.choices.reverse.length) = true →
      Leads least winner loser ahead behind

/-- If the winner's entry comes first, it still leads once it has gone on, though it is queued
later. -/
theorem Leads.ahead_goes (leads : Leads least winner loser ahead behind)
    (first : orderOfQueue ahead.1 behind.1 = .lt)
    (begins : ahead.2.choices.reverse <+: winner) (also : behind.2.choices.reverse <+: loser)
    (bound : ahead.1.1 = least ahead.2.choices.reverse)
    (boundAlso : behind.1.1 = least behind.2.choices.reverse)
    (more : next.2.choices.length = ahead.2.choices.length + 1) (later : behind.1.2 ≤ next.1.2) :
    Leads least winner loser next behind := by
  cases leads with
  | together same =>
      subst same
      simp [orderOfQueue_eq_lt_iff] at first
  | apart wins =>
      rw [boundsFrom_of_begins begins, boundsFrom_of_begins also, outruns_of_first,
        ← boundsFrom_of_begins also] at wins
      · refine .apart ?_
        rw [decide_eq_false later.not_gt, List.length_reverse, more]
        simpa using wins
      · rw [← bound, ← boundAlso, decide_eq_true_iff]
        exact orderOfQueue_eq_lt_iff.1 first

/-- If the loser's entry comes first, it is still behind where it goes to, and queued later. -/
theorem Leads.behind_goes (leads : Leads least winner loser ahead behind)
    (first : orderOfQueue behind.1 ahead.1 = .lt)
    (begins : ahead.2.choices.reverse <+: winner) (also : behind.2.choices.reverse <+: loser)
    (bound : ahead.1.1 = least ahead.2.choices.reverse)
    (boundAlso : behind.1.1 = least behind.2.choices.reverse) :
    outruns true (boundsFrom least winner ahead.2.choices.reverse.length)
      (boundsFrom least loser (behind.2.choices.reverse.length + 1)) = true := by
  cases leads with
  | together same =>
      subst same
      simp [orderOfQueue_eq_lt_iff] at first
  | apart wins =>
      rw [boundsFrom_of_begins begins, boundsFrom_of_begins also, outruns_of_later,
        ← boundsFrom_of_begins begins] at wins
      · exact wins
      · rw [← bound, ← boundAlso, decide_eq_false_iff_not]
        exact (orderOfQueue_eq_lt_iff.1 first).imp_right fun tie => ⟨tie.1, tie.2.not_gt⟩

theorem Leads.behind_next (leads : Leads least winner loser ahead behind)
    (first : orderOfQueue behind.1 ahead.1 = .lt)
    (begins : ahead.2.choices.reverse <+: winner) (also : behind.2.choices.reverse <+: loser)
    (bound : ahead.1.1 = least ahead.2.choices.reverse)
    (boundAlso : behind.1.1 = least behind.2.choices.reverse)
    (more : next.2.choices.length = behind.2.choices.length + 1) (later : ahead.1.2 < next.1.2) :
    Leads least winner loser ahead next := by
  refine .apart ?_
  rw [decide_eq_true later, List.length_reverse, List.length_reverse, more]
  simpa using leads.behind_goes first begins also bound boundAlso

/-- Two derivations that part at a node, of which the first has a meaning and wins from there. -/
structure Race (search : Search ℚ) (root : Nat) (least : List Choice → ℚ)
    (winner loser : List Choice) (meaning : Interpretation ℚ) : Prop where
  isLeast : ∀ beginning suffix tree, search.forest.Spells [root] (beginning ++ suffix) [tree] →
    IsLeast (search.forest.costsFrom search.table root beginning) (least beginning)
  means : Means search root winner meaning
  parting : ∃ shared id index also rest restAlso, index ≠ also ∧
    winner = shared ++ (id, index) :: rest ∧ loser = shared ++ (id, also) :: restAlso ∧
    outruns (decide (index < also)) (boundsFrom least winner (shared.length + 1))
      (boundsFrom least loser (shared.length + 1)) = true

/-- Where the two go on differently, they have parted. -/
theorem Race.parts (race : Race search root least winner loser meaning) {start : List Choice}
    {id index other : Nat} (differ : index ≠ other) (begins : start ++ [(id, index)] <+: winner)
    (also : start ++ [(id, other)] <+: loser) :
    outruns (decide (index < other)) (boundsFrom least winner (start.length + 1))
      (boundsFrom least loser (start.length + 1)) = true := by
  obtain ⟨shared, parent, one, two, rest, restAlso, apart, rfl, rfl, wins⟩ := race.parting
  obtain ⟨rfl, first, second⟩ := eq_of_parting (fun equal => apart (Prod.mk.inj equal).2)
    (fun equal => differ (Prod.mk.inj equal).2) begins also
  cases first
  cases second
  exact wins

theorem Race.ne (race : Race search root least winner loser meaning) : winner ≠ loser := by
  obtain ⟨shared, parent, one, two, rest, restAlso, apart, rfl, rfl, -⟩ := race.parting
  simp [apart]

/-- Some entry is for the winner, and leads every entry for the loser. -/
def Racing (least : List Choice → ℚ) (winner loser : List Choice) (progress : Progress ℚ) : Prop :=
  ∃ ahead ∈ progress.queue.toList, ahead.2.choices.reverse <+: winner ∧
    ∀ behind ∈ progress.queue.toList, behind.2.choices.reverse <+: loser →
      Leads least winner loser ahead behind

/-- Every entry is under the least cost of the derivations that it stands for. -/
def Keyed (least : List Choice → ℚ) (progress : Progress ℚ) : Prop :=
  ∀ entry ∈ progress.queue.toList, entry.1.1 = least entry.2.choices.reverse ∧
    entry.1.2 < progress.queued

theorem Race.keyed (race : Race search root least winner loser meaning)
    (ready : search.Ready lattice kindOf InUse)
    (settled : search.forest.Settles search.table fun id cost => search.cheapest[id]? = some cost)
    (falls : ∀ parent child, search.forest.Child parent child → rank child < rank parent)
    (sound : Sound search kindOf InUse root before) (inOrder : InOrder search before) :
    Keyed least before := by
  intro entry member
  have waits : entry.2 ∈ before.waiting := List.mem_map_of_mem member
  have stands := sound.stands entry.2 waits
  obtain ⟨suffix, trees, below⟩ := ready.presents.exists_spells stands.inside
  obtain ⟨tree, spells, -⟩ := stands.spelled suffix trees below
  refine ⟨?_, sound.numbered.number entry member⟩
  rw [sound.numbered.bound entry member]
  exact ((inOrder.bounded entry.2 waits).isLeast ready settled falls stands).unique
    (race.isLeast _ suffix tree spells)

/-- Successors take alternatives in order. -/
theorem Expands.indices {κ : Type} [Cost κ] {search : Search κ} {candidate : Candidate κ}
    {id index : Nat} {steps : List Step} {alternatives : List Alternative}
    {successors : List (Candidate κ)}
    (expands : Expands search kindOf root candidate id steps index alternatives successors) :
    ∃ indices : List Nat, indices.Pairwise (· < ·) ∧ (∀ other ∈ indices, index ≤ other) ∧
      successors.map Candidate.choices =
        indices.map fun other => (id, other) :: candidate.choices := by
  induction expands with
  | nil => exact ⟨[], .nil, List.forall_mem_nil _, rfl⟩
  | @chosen index _ _ successor _ succeeds _ ih =>
      obtain ⟨indices, ascending, later, same⟩ := ih
      refine ⟨index :: indices, List.pairwise_cons.2 ⟨later, ascending⟩, ?_, ?_⟩
      · exact List.forall_mem_cons.2
          ⟨le_rfl, fun other member => Nat.le_of_succ_le (later other member)⟩
      · rw [List.map_cons, List.map_cons, succeeds.choices, same]
  | dropped _ _ ih =>
      obtain ⟨indices, ascending, later, same⟩ := ih
      exact ⟨indices, ascending, fun other member => Nat.le_of_succ_le (later other member), same⟩

/-- Successors are queued in the order of the alternatives that they take. -/
theorem Expands.exists_index {candidate : Candidate ℚ} {id : Nat} {steps : List Step}
    {alternatives : List Alternative} {successors : List (Candidate ℚ)}
    (expands : Expands search kindOf root candidate id steps 0 alternatives successors) :
    ∃ indexOf : Nat → Nat, (∀ (place : Nat) successor, successors[place]? = some successor →
        successor.choices = (id, indexOf place) :: candidate.choices) ∧
      ∀ place other, place < successors.length → other < successors.length →
        (place < other ↔ indexOf place < indexOf other) := by
  obtain ⟨indices, ascending, -, same⟩ := expands.indices
  have length : successors.length = indices.length := by
    simpa using congrArg List.length same
  refine ⟨fun place => indices[place]?.getD 0, fun place successor found => ?_,
    fun place other here there => ?_⟩
  · have inside : place < indices.length := length ▸ (List.getElem?_eq_some_iff.1 found).1
    have own := congrArg (·[place]?) same
    simp only [List.getElem?_map, found, List.getElem?_eq_getElem inside, Option.map_some,
      Option.some.injEq] at own
    rw [own]
    simp only [List.getElem?_eq_getElem inside, Option.getD_some]
  · rw [length] at here there
    simp only [List.getElem?_eq_getElem here, List.getElem?_eq_getElem there, Option.getD_some]
    have before := List.pairwise_iff_getElem.1 ascending
    rcases Nat.lt_trichotomy place other with less | rfl | more
    · exact iff_of_true less (before place other here there less)
    · exact iff_of_false (Nat.lt_irrefl _) (Nat.lt_irrefl _)
    · exact iff_of_false more.not_gt (before other place there here more).not_gt

/-- The winner's entry goes on to the successor that takes the winner's choice. -/
theorem Racing.expanded_ahead {successors : List (Candidate ℚ)} {rest : List (Entry ℚ)} {id : Nat}
    {steps : List Step} {node : Node} (race : Race search root least winner loser meaning)
    (keyed : Keyed least before) (serves : Serves before after ahead successors rest)
    (stands : ahead.2.Stands search kindOf root) (next : ahead.2.steps = .expand id :: steps)
    (found : search.forest.nodes[id]? = some node)
    (expands : Expands search kindOf root ahead.2 id steps 0 node.alternatives successors)
    (begins : ahead.2.choices.reverse <+: winner)
    (leads : ∀ behind ∈ before.queue.toList, behind.2.choices.reverse <+: loser →
      Leads least winner loser ahead behind) :
    Racing least winner loser after := by
  obtain ⟨indexOf, chosen, order⟩ := expands.exists_index
  obtain ⟨suffix, rfl⟩ := begins
  obtain ⟨tree, spells, own⟩ := race.means
  obtain ⟨index, more, inside, rfl⟩ := next_of_stands stands next found spells
  obtain ⟨successor, taken, choices⟩ :=
    (expands.mem index inside).resolve_right fun hopeless => by
      rw [Nat.zero_add] at hopeless
      rw [hopeless more tree (by simpa using spells)] at own
      cases own
  obtain ⟨place, placed⟩ := List.getElem?_of_mem taken
  rw [Nat.zero_add] at choices
  have begins : successor.choices.reverse <+: ahead.2.choices.reverse ++ (id, index) :: more := by
    rw [choices, List.reverse_cons]
    exact ⟨more, by simp⟩
  refine ⟨((successor.bound, before.queued + place), successor),
    serves.queued.mem_iff.2 (List.mem_append_left _
      (mem_entriesFrom.2 ⟨place, successor, placed, rfl⟩)),
    begins, fun behind waits also => ?_⟩
  rcases List.mem_append.1 (serves.queued.mem_iff.1 waits) with new | old
  · obtain ⟨other, rival, placedAlso, rfl⟩ := mem_entriesFrom.1 new
    by_cases same : other = place
    · subst same
      cases placed.symm.trans placedAlso
      exact .together rfl
    · have own : index = indexOf place := by simpa [choices] using chosen place successor placed
      have choicesAlso := chosen other rival placedAlso
      have here := (List.getElem?_eq_some_iff.1 placed).1
      have there := (List.getElem?_eq_some_iff.1 placedAlso).1
      have differ : index ≠ indexOf other := by
        have forth := order place other here there
        have back := order other place there here
        omega
      have queued : decide (before.queued + place < before.queued + other) =
          decide (index < indexOf other) := by
        rw [decide_eq_decide, Nat.add_lt_add_iff_left, order place other here there, own]
      rw [choices, List.reverse_cons] at begins
      rw [choicesAlso, List.reverse_cons] at also
      refine .apart ?_
      rw [queued]
      simpa [choices, choicesAlso] using race.parts differ begins also
  · have waited := serves.waited behind old
    refine (leads behind waited also).ahead_goes (serves.first behind old) ⟨_, rfl⟩ also
      (keyed ahead serves.served).1 (keyed behind waited).1 ?_ ?_
    · simp [choices]
    · exact (keyed behind waited).2.le.trans (Nat.le_add_right _ place)

/-- The winner's entry stays where it is while another one goes on. -/
theorem Racing.expanded_behind {successors : List (Candidate ℚ)} {rest : List (Entry ℚ)} {id : Nat}
    {steps : List Step} {alternatives : List Alternative} (keyed : Keyed least before)
    (serves : Serves before after entry successors rest)
    (expands : Expands search kindOf root entry.2 id steps 0 alternatives successors)
    (waits : ahead ∈ rest) (begins : ahead.2.choices.reverse <+: winner)
    (leads : ∀ behind ∈ before.queue.toList, behind.2.choices.reverse <+: loser →
      Leads least winner loser ahead behind) :
    Racing least winner loser after := by
  obtain ⟨indexOf, chosen, -⟩ := expands.exists_index
  refine ⟨ahead, serves.queued.mem_iff.2 (List.mem_append_right _ waits), begins,
    fun behind queued also => ?_⟩
  rcases List.mem_append.1 (serves.queued.mem_iff.1 queued) with new | old
  · obtain ⟨place, successor, placed, rfl⟩ := mem_entriesFrom.1 new
    have choices := chosen place successor placed
    have earlier : entry.2.choices.reverse <+: loser := by
      refine List.IsPrefix.trans ?_ also
      rw [choices, List.reverse_cons]
      exact List.prefix_append ..
    have waited := serves.waited ahead waits
    refine (leads entry serves.served earlier).behind_next (serves.first ahead waits) begins earlier
      (keyed ahead waited).1 (keyed entry serves.served).1 ?_ ?_
    · simp [choices]
    · exact Nat.lt_add_right place (keyed ahead waited).2
  · exact leads behind (serves.waited behind old) also

theorem Racing.expanded {successors : List (Candidate ℚ)} {rest : List (Entry ℚ)} {id : Nat}
    {steps : List Step} {node : Node} (racing : Racing least winner loser before)
    (race : Race search root least winner loser meaning) (keyed : Keyed least before)
    (serves : Serves before after entry successors rest)
    (stands : entry.2.Stands search kindOf root) (next : entry.2.steps = .expand id :: steps)
    (found : search.forest.nodes[id]? = some node)
    (expands : Expands search kindOf root entry.2 id steps 0 node.alternatives successors) :
    Racing least winner loser after := by
  obtain ⟨ahead, member, begins, leads⟩ := racing
  rcases List.mem_cons.1 (serves.taken.mem_iff.1 member) with rfl | waits
  · exact .expanded_ahead race keyed serves stands next found expands begins leads
  · exact .expanded_behind keyed serves expands waits begins leads

/-- The loser is not complete before the winner. -/
theorem Racing.completed {rest : List (Entry ℚ)} (racing : Racing least winner loser before)
    (race : Race search root least winner loser meaning) (keyed : Keyed least before)
    (serves : Serves before after entry [] rest) (stands : entry.2.Stands search kindOf root)
    (done : entry.2.steps = []) : entry.2.choices.reverse ≠ loser ∧
      (entry.2.choices.reverse = winner ∨ Racing least winner loser after) := by
  obtain ⟨ahead, member, begins, leads⟩ := racing
  rcases List.mem_cons.1 (serves.taken.mem_iff.1 member) with rfl | later
  · obtain ⟨suffix, rfl⟩ := begins
    obtain ⟨tree, spells, -⟩ := race.means
    have whole := nothing_follows stands done spells
    subst whole
    rw [List.append_nil] at race
    exact ⟨race.ne, .inl (List.append_nil _).symm⟩
  · refine ⟨fun lost => ?_, .inr ⟨ahead, serves.queued.mem_iff.2 later, begins, ?_⟩⟩
    · have all : entry.2.choices.reverse <+: loser := lost ▸ List.prefix_rfl
      have wins := (leads entry serves.served all).behind_goes (serves.first ahead later) begins
        all (keyed ahead member).1 (keyed entry serves.served).1
      rw [lost, boundsFrom_whole, boundsFrom_of_begins begins, outruns] at wins
      cases wins
    · intro behind waits also
      exact leads behind (serves.waited behind (serves.queued.mem_iff.1 waits)) also

/-- Wherever some choices are among the results, the meaning has been found before. -/
def Behind (loser : List Choice) (meaning : Interpretation ℚ) (results : List (Derivation ℚ)) :
    Prop :=
  ∀ (place : Nat) result, results[place]? = some result → result.choices = loser →
    ∃ earlier also, earlier < place ∧ results[earlier]? = some also ∧
      also.meaning.costless = meaning.costless

section

variable {results later : List (Derivation ℚ)}

/-- A meaning that has been found keeps its place. -/
theorem exists_place_of_continues (continues : Continues results later)
    (known : ∃ result ∈ results, result.meaning.costless = meaning.costless) :
    ∃ (place : Nat) (also : Derivation ℚ), place < results.length ∧ later[place]? = some also ∧
      also.meaning.costless = meaning.costless := by
  obtain ⟨result, member, same⟩ := known
  obtain ⟨place, found⟩ := List.getElem?_of_mem member
  obtain ⟨also, foundAlso, grows⟩ := continues place result found
  exact ⟨place, also, (List.getElem?_eq_some_iff.1 found).1, foundAlso, grows.meaning ▸ same⟩

theorem Behind.continues (behind : Behind loser meaning results)
    (continues : Continues results later)
    (new : ∀ (place : Nat) result, results.length ≤ place → later[place]? = some result →
      result.choices = loser → ∃ result ∈ results, result.meaning.costless = meaning.costless) :
    Behind loser meaning later := by
  intro place result found lost
  by_cases old : place < results.length
  · obtain ⟨also, foundAlso, grows⟩ := continues place _ (List.getElem?_eq_getElem old)
    cases found.symm.trans foundAlso
    obtain ⟨earlier, first, less, foundFirst, same⟩ :=
      behind place _ (List.getElem?_eq_getElem old) (grows.choices ▸ lost)
    obtain ⟨still, foundStill, growsFirst⟩ := continues earlier first foundFirst
    exact ⟨earlier, still, less, foundStill, growsFirst.meaning ▸ same⟩
  · have late := Nat.le_of_not_lt old
    obtain ⟨earlier, also, less, foundAlso, same⟩ :=
      exists_place_of_continues continues (new place result late found lost)
    exact ⟨earlier, also, Nat.lt_of_lt_of_le less late, foundAlso, same⟩

end

/-- How the race stands: it is open or the winner's meaning has been found, and the loser comes
after that. -/
structure Ran (search : Search ℚ) (least : List Choice → ℚ) (winner loser : List Choice)
    (meaning : Interpretation ℚ) (progress : Progress ℚ) : Prop where
  inOrder : InOrder search progress
  state : (∃ result ∈ progress.results, result.meaning.costless = meaning.costless) ∨
    Racing least winner loser progress
  behind : Behind loser meaning progress.results

theorem Ran.start : Ran search least winner loser meaning
    (firstProgress root (search.cheapestAt root)) where
  inOrder := firstProgress_inOrder
  state := by
    have first : (firstProgress root (search.cheapestAt root)).queue.toList.Perm
        [((search.cheapestAt root, 0), firstCandidate root (search.cheapestAt root))] :=
      SearchQueue.numbered_empty.toList_insert (firstCandidate root (search.cheapestAt root))
    refine .inr ⟨_, first.mem_iff.2 (List.mem_cons_self ..), List.nil_prefix, ?_⟩
    intro behind waits _
    exact .together (List.mem_singleton.1 (first.mem_iff.1 waits)).symm
  behind place result found := by cases found

theorem Ran.stopped (ran : Ran search least winner loser meaning before) :
    Ran search least winner loser meaning (stopped before) :=
  have order := ran.inOrder
  ⟨⟨order.bounded, order.later, order.ascending, order.duplicates⟩, ran.state, ran.behind⟩

section

variable (race : Race search root least winner loser meaning)
  (ready : search.Ready lattice kindOf InUse)
  (settled : search.forest.Settles search.table fun id cost => search.cheapest[id]? = some cost)
  (falls : ∀ parent child, search.forest.Child parent child → rank child < rank parent)

include race ready settled falls

theorem Ran.turn (sound : Sound search kindOf InUse root before)
    (turn : Turn search limits kindOf root before after)
    (round : Round search kindOf root before after)
    (ran : Ran search least winner loser meaning before) :
    Ran search least winner loser meaning after := by
  have keyed := race.keyed ready settled falls sound ran.inOrder
  have inOrder := turn.inOrder ran.inOrder ready settled
  cases round with
  | expanded serves stands next found expands same =>
      refine ⟨inOrder, ?_, same ▸ ran.behind⟩
      rw [same]
      exact ran.state.imp_right fun racing =>
        racing.expanded race keyed serves stands next found expands
  | completed serves stands done continues new finds =>
      refine ⟨inOrder, ?_, ?_⟩
      · rcases ran.state with known | racing
        · obtain ⟨place, result, -, found, same⟩ := exists_place_of_continues continues known
          exact .inl ⟨result, List.mem_of_getElem? found, same⟩
        · obtain ⟨-, won | racing⟩ := racing.completed race keyed serves stands done
          · exact .inl (finds meaning (won ▸ race.means))
          · exact .inr racing
      · refine ran.behind.continues continues fun place result late found lost => ?_
        rw [new place result late found] at lost
        exact ran.state.resolve_right fun racing =>
          (racing.completed race keyed serves stands done).1 lost

/-- The loser of a race comes after the winner's meaning, whatever the limits. -/
theorem Race.loser_behind (inUse : InUse .empty) (top : search.forest.root = some root)
    (inside : root < search.forest.nodes.size) {final : Progress ℚ}
    (discovering : search.discover limits = .ok final) : Behind loser meaning final.results := by
  by_cases unwanted : limits.results = 0
  · simp only [discover, top, unwanted, if_true, Except.ok.injEq] at discovering
    subst discovering
    exact fun place result found => by cases found
  · have ran : Ran search least winner loser meaning final :=
      discover_keeps ready inUse top inside unwanted (Ran.turn race ready settled falls) Ran.stopped
        Ran.start discovering
    exact ran.behind

end

end Search

end QueryGrammar
