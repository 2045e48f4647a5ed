import QueryGrammar.Proofs.Parse.Run
import QueryGrammar.Proofs.Table.Loaded

namespace QueryGrammar

/-! Recognition turn by turn, with the links that have been taken up.

Main statement: on every table whose references lead somewhere, a link waits once and is taken up
once, taking it up changes nothing before its position, and no position keeps links that wait.
-/

namespace Column

variable {column after : Column} {entry : Nat × Link}

/-- What waits has waited before or is a new link. -/
theorem Grows.waited_or_new (grows : column.Grows after) (later : after.Tidy)
    (member : entry ∈ after.waiting) : entry ∈ column.waiting ∨ entry ∉ column.allLinks := by
  obtain ⟨fresh, waiting, links⟩ := grows.fresh
  have apart := (List.nodup_append.1 (links.nodup_iff.1 later.distinct)).2.2
  rw [waiting, List.mem_append] at member
  rcases member with new | before
  · exact .inr fun old => apart entry new entry old rfl
  · exact .inl before

theorem Grows.nodup_waiting (grows : column.Grows after) (tidy : column.Tidy) (later : after.Tidy)
    (single : column.waiting.Nodup) : after.waiting.Nodup := by
  obtain ⟨fresh, waiting, links⟩ := grows.fresh
  obtain ⟨new, -, apart⟩ := List.nodup_append.1 (links.nodup_iff.1 later.distinct)
  rw [waiting]
  exact List.nodup_append.2 ⟨new, single, fun entry member other before =>
    apart entry member other (tidy.waiting other before)⟩

end Column

namespace Stack

variable {κ : Type} {table : Table κ} {lattice : Lattice} {stack after : Stack} {vertex : Vertex}
  {link : Link} {position state : Nat} {column : Column} {rest : List (Nat × Link)}
  {taken : List (Vertex × Link)}

/-- An account of the links of a stack: each of them waits or has been taken up, and does so once. -/
structure Ledger (stack : Stack) (taken : List (Vertex × Link)) : Prop where
  links : ∀ vertex link,
    stack.HasLink vertex link ↔ (vertex, link) ∈ taken ∨ stack.Waits vertex link
  once : taken.Nodup
  single : ∀ (position : Nat) column, stack.columns[position]? = some column → column.waiting.Nodup
  apart : ∀ vertex link, stack.Waits vertex link → (vertex, link) ∉ taken

theorem Extends.waits_iff {low : Nat} (extended : stack.Extends low after)
    (below : vertex.position < low) : after.Waits vertex link ↔ stack.Waits vertex link := by
  unfold Waits
  rw [extended.below _ below]

/-- Taking up a link moves it from those that wait to those that have been taken up. -/
theorem Ledger.take (ledger : stack.Ledger taken) (found : stack.columns[position]? = some column)
    (waiting : column.waiting = (state, link) :: rest) :
    (stack.setColumn position { column with waiting := rest }).Ledger
      (taken ++ [(⟨state, position⟩, link)]) := by
  have unique := ledger.single _ _ found
  rw [waiting, List.nodup_cons] at unique
  have waited : stack.Waits ⟨state, position⟩ link :=
    (waits_iff found).2 (waiting ▸ List.mem_cons_self ..)
  have kept : ∀ vertex other,
      (stack.setColumn position { column with waiting := rest }).Waits vertex other ↔
        stack.Waits vertex other ∧ (vertex, other) ≠ (⟨state, position⟩, link) := by
    rintro ⟨own, index⟩ other
    rw [waits_setColumn found]
    by_cases here : index = position
    · subst here
      rw [waits_iff found, waiting, List.mem_cons]
      constructor
      · rintro (⟨-, member⟩ | ⟨differ, -⟩)
        · refine ⟨.inr member, fun same => ?_⟩
          cases same
          exact unique.1 member
        · exact absurd rfl differ
      · rintro ⟨same | member, differ⟩
        · cases same
          exact absurd rfl differ
        · exact .inl ⟨rfl, member⟩
    · simp [here]
  refine ⟨fun vertex other => ?_, ?_, fun index other known => ?_, fun vertex other waits => ?_⟩
  · rw [hasLink_take found, ledger.links, kept, List.mem_append, List.mem_singleton]
    by_cases same : (vertex, other) = (⟨state, position⟩, link)
    · cases same
      simp [waited]
    · simp [same]
  · exact List.nodup_append.2 ⟨ledger.once, List.nodup_singleton _, fun pair member other last => by
      rw [List.mem_singleton.1 last]
      exact fun same => ledger.apart _ _ waited (same ▸ member)⟩
  · rw [getElem?_setColumn found] at known
    split at known
    · cases known
      exact unique.2
    · exact ledger.single index other known
  · obtain ⟨before, differ⟩ := (kept vertex other).1 waits
    rw [List.mem_append, List.mem_singleton, not_or]
    exact ⟨ledger.apart vertex other before, differ⟩

theorem drainBound_pos : 0 < drainBound table position :=
  Nat.succ_pos _

/-- Fewer links than bound the turns at a position have been taken up there. -/
theorem Ledger.taken_lt (ledger : stack.Ledger taken) (consistent : stack.Consistent table lattice)
    (position : Nat) :
    (taken.filter (·.1.position = position)).length < drainBound table position := by
  cases found : stack.columns[position]? with
  | none =>
      have none : taken.filter (·.1.position = position) = [] := by
        refine List.filter_eq_nil_iff.2 fun pair member here => ?_
        obtain ⟨column, present, -⟩ := (ledger.links pair.1 pair.2).2 (.inl member)
        rw [of_decide_eq_true here, found] at present
        cases present
      rw [none]
      exact drainBound_pos
  | some column =>
      refine Nat.lt_of_le_of_lt ?_ (allLinks_bounded consistent found)
      have injective : ((taken.filter (·.1.position = position)).map fun pair =>
          (pair.1.state, pair.2)).Nodup := by
        refine List.Nodup.map_on ?_ (ledger.once.filter _)
        rintro ⟨⟨state, first⟩, link⟩ member ⟨⟨other, second⟩, also⟩ memberAlso same
        have here : first = position := of_decide_eq_true (List.mem_filter.1 member).2
        have hereAlso : second = position := of_decide_eq_true (List.mem_filter.1 memberAlso).2
        cases same
        rw [here, hereAlso]
      have listed : ∀ entry ∈ (taken.filter (·.1.position = position)).map fun pair =>
          (pair.1.state, pair.2), entry ∈ column.allLinks := by
        intro entry member
        obtain ⟨pair, among, rfl⟩ := List.mem_map.1 member
        obtain ⟨given, here⟩ := List.mem_filter.1 among
        obtain ⟨again, present, known⟩ := (ledger.links pair.1 pair.2).2 (.inl given)
        rw [of_decide_eq_true here, found] at present
        cases present
        exact known
      rw [← List.length_map]
      exact (injective.subperm listed).length_le

section

variable (inRange : table.InRange) (spanning : lattice.Spanning)
  (consistent : stack.Consistent table lattice)
include inRange spanning consistent

/-- Steps make links that wait, and no others stop waiting. -/
theorem Ledger.steps {low : Nat} (ledger : stack.Ledger taken)
    (steps : Steps table lattice low stack after) : after.Ledger taken := by
  obtain ⟨later, extended⟩ := Steps.spec inRange spanning consistent steps
  have waits : ∀ vertex link, after.Waits vertex link ↔ stack.Waits vertex link ∨
      after.HasLink vertex link ∧ ¬ stack.HasLink vertex link := by
    intro vertex link
    constructor
    · rintro ⟨column, found, member⟩
      obtain ⟨before, present, grows⟩ :=
        Steps.exists_before inRange spanning consistent steps found
      refine (grows.waited_or_new (later.tidy _ _ found) member).imp
        (fun old => ⟨before, present, old⟩) fun new =>
          ⟨⟨column, found, (later.tidy _ _ found).waiting _ member⟩, ?_⟩
      rintro ⟨again, foundAgain, old⟩
      cases present.symm.trans foundAgain
      exact new old
    · rintro (old | ⟨has, new⟩)
      · exact Steps.waits inRange spanning consistent steps old
      · exact (Steps.waits_or_before inRange spanning consistent steps has).resolve_right new
  refine ⟨fun vertex link => ?_, ledger.once, fun position column found => ?_,
    fun vertex link waiting member => ?_⟩
  · have before := ledger.links vertex link
    have kept := extended.link vertex link
    rw [waits]
    tauto
  · obtain ⟨before, present, grows⟩ := Steps.exists_before inRange spanning consistent steps found
    exact grows.nodup_waiting (consistent.tidy _ _ present) (later.tidy _ _ found)
      (ledger.single _ _ present)
  · rcases (waits vertex link).1 waiting with before | ⟨-, new⟩
    · exact ledger.apart vertex link before member
    · exact new ((ledger.links vertex link).2 (.inl member))

end

/-- A stage of recognition: the position it has come to, the links that have been taken up so far, and
the stack. -/
structure Stage where
  position : Nat
  taken : List (Vertex × Link)
  stack : Stack

namespace Stage

def first (lattice : Lattice) : Stage :=
  ⟨0, [], initial lattice⟩

/-- The next stage: the latest link that waits at the position is taken up and reduced, or there is
none, and matches are followed to the positions further on. How often is not set beforehand. -/
inductive Next (table : Table κ) (lattice : Lattice) : Stage → Stage → Prop
  | turn {position state : Nat} {taken : List (Vertex × Link)} {stack after : Stack}
      {column : Column} {link : Link} {rest : List (Nat × Link)} :
      stack.columns[position]? = some column → column.waiting = (state, link) :: rest →
      reduce table (stack.setColumn position { column with waiting := rest }) ⟨state, position⟩
        link = .ok after →
      Next table lattice ⟨position, taken, stack⟩
        ⟨position, taken ++ [(⟨state, position⟩, link)], after⟩
  | shift {position : Nat} {taken : List (Vertex × Link)} {stack after : Stack} {column : Column} :
      position < lattice.length → stack.columns[position]? = some column → column.waiting = [] →
      Stack.shift table position stack = .ok after →
      Next table lattice ⟨position, taken, stack⟩ ⟨position + 1, taken, after⟩

abbrev Reaches (table : Table κ) (lattice : Lattice) : Stage → Stage → Prop :=
  Relation.ReflTransGen (Next table lattice)

/-- What holds of every stage. -/
structure Sound (table : Table κ) (lattice : Lattice) (stage : Stage) : Prop where
  consistent : stage.stack.Consistent table lattice
  ledger : stage.stack.Ledger stage.taken
  inside : stage.position ≤ lattice.length
  settled : ∀ vertex link, stage.stack.Waits vertex link → stage.position ≤ vertex.position

variable {stage later : Stage}

theorem first_sound (inRange : table.InRange) : (first lattice).Sound table lattice := by
  have done : Done table lattice 0 (initial lattice) := initial_done inRange
  have idle : ∀ (position : Nat) column, (initial lattice).columns[position]? = some column →
      column.waiting = [] := by
    intro position column found
    rw [getElem?_initial] at found
    split at found
    · cases found
      rfl
    · split at found
      · cases found
        rfl
      · cases found
  have none : ∀ vertex link, ¬ (initial lattice).Waits vertex link := by
    rintro vertex link ⟨column, found, member⟩
    rw [idle _ _ found] at member
    cases member
  refine ⟨done.consistent, ⟨fun vertex link => ⟨fun has => ?_, ?_⟩, .nil, fun position column found =>
    ?_, fun vertex link waits => absurd waits (none vertex link)⟩, Nat.zero_le _, fun vertex link waits =>
    absurd waits (none vertex link)⟩
  · exact .inr (done.waiting vertex link (Nat.zero_le _) has)
  · rintro (taken | waits)
    · cases taken
    · exact absurd waits (none vertex link)
  · rw [idle _ _ found]
    exact .nil

theorem Sound.exists_column (sound : stage.Sound table lattice) :
    ∃ column, stage.stack.columns[stage.position]? = some column := by
  have inside : stage.position < stage.stack.columns.size := by
    rw [sound.consistent.size]
    exact Nat.lt_succ_of_le sound.inside
  exact ⟨_, Array.getElem?_eq_getElem inside⟩

section

variable (inRange : table.InRange) (spanning : lattice.Spanning)
include inRange spanning

/-- A stage is sound if the one before is, and nothing has changed before the position of that. -/
theorem Sound.next (sound : stage.Sound table lattice) (goes : Next table lattice stage later) :
    later.Sound table lattice ∧
      ∀ earlier < stage.position, later.stack.columns[earlier]? = stage.stack.columns[earlier]? := by
  obtain ⟨consistent, ledger, inside, settled⟩ := sound
  cases goes with
  | @turn position state taken stack after column link rest found waiting reduced =>
      obtain ⟨⟨takenConsistent, extended⟩, next, again, steps, -⟩ :=
        exists_turn inRange spanning consistent found waiting
      cases reduced.symm.trans again
      obtain ⟨nextConsistent, onward⟩ := Steps.spec inRange spanning takenConsistent steps
      have whole := extended.trans onward
      refine ⟨⟨nextConsistent,
        (ledger.take found waiting).steps inRange spanning takenConsistent steps, inside,
        fun vertex other waits => ?_⟩, whole.below⟩
      by_contra before
      exact before (settled vertex other ((whole.waits_iff (Nat.lt_of_not_le before)).1 waits))
  | @shift position taken stack after column before found none shifted =>
      obtain ⟨next, again, steps, -⟩ := shift_spec inRange spanning consistent before
      cases shifted.symm.trans again
      obtain ⟨nextConsistent, extended⟩ := Steps.spec inRange spanning consistent steps
      refine ⟨⟨nextConsistent, ledger.steps inRange spanning consistent steps, before,
        fun vertex link waits => ?_⟩, fun earlier less => extended.below earlier (Nat.lt_succ_of_lt less)⟩
      by_contra short
      have below : vertex.position < position + 1 := Nat.lt_of_not_le short
      have old := (extended.waits_iff below).1 waits
      have here : vertex.position = position :=
        Nat.le_antisymm (Nat.le_of_lt_succ below) (settled vertex link old)
      obtain ⟨again, foundAgain, member⟩ := old
      rw [here, found] at foundAgain
      cases foundAgain
      rw [none] at member
      cases member

/-- There is a next stage until the last position has come and nothing waits. -/
theorem Sound.exists_next (sound : stage.Sound table lattice) :
    (∃ later, Next table lattice stage later) ∨
      stage.position = lattice.length ∧ ∀ vertex link, ¬ stage.stack.Waits vertex link := by
  obtain ⟨column, found⟩ := sound.exists_column
  obtain ⟨position, taken, stack⟩ := stage
  obtain ⟨consistent, ledger, inside, settled⟩ := sound
  cases waiting : column.waiting with
  | cons first rest =>
      obtain ⟨-, next, reduced, -⟩ := exists_turn inRange spanning consistent found waiting
      exact .inl ⟨_, .turn found waiting reduced⟩
  | nil =>
      rcases Nat.lt_or_eq_of_le inside with before | last
      · obtain ⟨next, shifted, -⟩ := shift_spec inRange spanning consistent before
        exact .inl ⟨_, .shift before found waiting shifted⟩
      · refine .inr ⟨last, fun vertex link waits => ?_⟩
        have most := consistent.inside ((ledger.links vertex link).2 (.inr waits))
        have here : vertex.position = position :=
          Nat.le_antisymm (most.trans_eq last.symm) (settled vertex link waits)
        obtain ⟨again, foundAgain, member⟩ := waits
        rw [here, found] at foundAgain
        cases foundAgain
        rw [waiting] at member
        cases member

/-- As many turns as the bound has are enough to take up all that waits at a position. -/
theorem Sound.drain {position fuel : Nat} {taken : List (Vertex × Link)} {stack : Stack}
    (sound : Sound table lattice ⟨position, taken, stack⟩)
    (enough : drainBound table position ≤
      fuel + (taken.filter (·.1.position = position)).length) :
    ∃ later after column, Stack.drain table position fuel stack = .ok after ∧
      Reaches table lattice ⟨position, taken, stack⟩ ⟨position, later, after⟩ ∧
      after.columns[position]? = some column ∧ column.waiting = [] := by
  induction fuel generalizing taken stack with
  | zero =>
      exact absurd (enough.trans_eq (Nat.zero_add _))
        (Nat.not_le_of_lt (sound.ledger.taken_lt sound.consistent position))
  | succ fuel ih =>
      obtain ⟨column, found⟩ := sound.exists_column
      dsimp only at found
      have columnFound : stack.columnAt position = .ok column := by
        simp [columnAt, Fault.lookUp, found]
      cases waiting : column.waiting with
      | nil =>
          refine ⟨taken, stack, _, ?_, .refl, found, waiting⟩
          simp only [Stack.drain, columnFound, waiting, bind, Except.bind]
      | cons first rest =>
          obtain ⟨state, link⟩ := first
          obtain ⟨-, next, reduced, -⟩ :=
            exists_turn inRange spanning sound.consistent found waiting
          have turn : Next table lattice ⟨position, taken, stack⟩
              ⟨position, taken ++ [(⟨state, position⟩, link)], next⟩ := .turn found waiting reduced
          obtain ⟨later, after, column, drained, reaches, last⟩ :=
            ih (sound.next inRange spanning turn).1 (by
              rw [List.filter_append, List.filter_singleton, List.length_append]
              simpa [Nat.add_assoc, Nat.add_comm 1] using enough)
          refine ⟨later, after, column, ?_, .head turn reaches, last⟩
          simp only [Stack.drain, columnFound, waiting, reduced, bind, Except.bind]
          exact drained

theorem Sound.of_reaches (sound : stage.Sound table lattice)
    (reaches : Reaches table lattice stage later) : later.Sound table lattice := by
  induction reaches with
  | refl => exact sound
  | tail _ goes ih => exact (ih.next inRange spanning goes).1

/-- A run goes through the stages, until nothing waits at the last position. -/
theorem Sound.run {position left : Nat} {taken : List (Vertex × Link)} {stack : Stack}
    (sound : Sound table lattice ⟨position, taken, stack⟩)
    (last : position + left = lattice.length) :
    ∃ later after column, Stack.run table position left stack = .ok after ∧
      Reaches table lattice ⟨position, taken, stack⟩ ⟨lattice.length, later, after⟩ ∧
      after.columns[lattice.length]? = some column ∧ column.waiting = [] := by
  induction left generalizing position taken stack with
  | zero =>
      cases last
      exact sound.drain inRange spanning (Nat.le_add_right _ _)
  | succ left ih =>
      have enough : drainBound table position ≤
          drainBound table position + (taken.filter (·.1.position = position)).length :=
        Nat.le_add_right _ _
      obtain ⟨some, drained, column, draining, reaches, found, none⟩ :=
        sound.drain inRange spanning enough
      have middle := sound.of_reaches inRange spanning reaches
      have before : position < lattice.length := by omega
      obtain ⟨shifted, shifting, -⟩ := shift_spec inRange spanning middle.consistent before
      have goes : Next table lattice ⟨position, some, drained⟩ ⟨position + 1, some, shifted⟩ :=
        .shift before found none shifting
      obtain ⟨later, after, finish, running, more, final⟩ :=
        ih (middle.next inRange spanning goes).1 (by omega)
      refine ⟨later, after, finish, ?_, reaches.trans (.head goes more), final⟩
      simp only [Stack.run, draining, shifting, bind, Except.bind]
      exact running

end

theorem Next.unique {other : Stage} (goes : Next table lattice stage later)
    (also : Next table lattice stage other) : later = other := by
  cases goes with
  | turn found waiting reduced =>
      cases also with
      | turn foundAlso waitingAlso reducedAlso =>
          cases found.symm.trans foundAlso
          cases waiting.symm.trans waitingAlso
          cases reduced.symm.trans reducedAlso
          rfl
      | shift before foundAlso none shifted =>
          cases found.symm.trans foundAlso
          cases waiting.symm.trans none
  | shift before found none shifted =>
      cases also with
      | turn foundAlso waiting reduced =>
          cases found.symm.trans foundAlso
          cases waiting.symm.trans none
      | shift _ _ _ shiftedAlso =>
          cases shifted.symm.trans shiftedAlso
          rfl

/-- Stages that lead to one without a next do not go on for ever. -/
theorem Reaches.acc (reaches : Reaches table lattice stage later)
    (last : ∀ next, ¬ Next table lattice later next) :
    Acc (fun next stage => Next table lattice stage next) stage := by
  induction reaches using Relation.ReflTransGen.head_induction_on with
  | refl => exact ⟨_, fun next goes => absurd goes (last next)⟩
  | head goes _ ih => exact ⟨_, fun next also => goes.unique also ▸ ih⟩

/-- What a reader of the queue can rely on at every stage. -/
structure Orderly (table : Table κ) (lattice : Lattice) (stage : Stage) : Prop where
  ledger : stage.stack.Ledger stage.taken
  settled : ∀ vertex link, stage.stack.Waits vertex link → stage.position ≤ vertex.position
  few : ∀ position,
    (stage.taken.filter (·.1.position = position)).length < drainBound table position
  before : ∀ later, Next table lattice stage later →
    ∀ earlier < stage.position, later.stack.columns[earlier]? = stage.stack.columns[earlier]?
  onward : (∃ later, Next table lattice stage later) ∨
    stage.position = lattice.length ∧ ∀ vertex link, ¬ stage.stack.Waits vertex link

/-- Recognition on a table whose references lead somewhere does not go on for ever. At every stage
each link waits or has been taken up, and this once; what is taken up at a position changes nothing
before it; and a run ends where nothing waits at any position. -/
theorem run_orderly (inRange : table.InRange) (spanning : lattice.Spanning) :
    (∀ stage, Reaches table lattice (first lattice) stage → stage.Orderly table lattice) ∧
    Acc (fun later stage => Next table lattice stage later) (first lattice) ∧
    ∃ stage, Reaches table lattice (first lattice) stage ∧ stage.position = lattice.length ∧
      (∀ vertex link, ¬ stage.stack.Waits vertex link) ∧
      Stack.run table 0 lattice.length (initial lattice) = .ok stage.stack := by
  have start : (first lattice).Sound table lattice := first_sound inRange
  obtain ⟨taken, stack, column, running, reaches, found, none⟩ :=
    start.run inRange spanning (Nat.zero_add _)
  have ended : ∀ next, ¬ Next table lattice ⟨lattice.length, taken, stack⟩ next := by
    rintro next (⟨present, waiting, -⟩ | ⟨before, -⟩)
    · cases found.symm.trans present
      cases none.symm.trans waiting
    · exact Nat.lt_irrefl _ before
  refine ⟨fun stage known => ?_, reaches.acc ended, _, reaches, rfl, ?_, running⟩
  · have sound := start.of_reaches inRange spanning known
    exact ⟨sound.ledger, sound.settled, sound.ledger.taken_lt sound.consistent,
      fun later goes => (sound.next inRange spanning goes).2, sound.exists_next inRange spanning⟩
  · have last := (start.of_reaches inRange spanning reaches).exists_next inRange spanning
    exact (last.resolve_left fun more => ended _ more.choose_spec).2

/-- A table that no grammar compiles to: a rule leads from its symbol to that alone, another begins
with its own symbol, and both are completed where nothing has been recognized. -/
def circular : Table Amount where
  start := 0
  symbols := #["S"]
  rules := #[⟨0, [], Rule.literal "x"⟩, ⟨0, [0], Rule.symbols ["S"]⟩,
    ⟨0, [0, 0], Rule.symbols ["S", "S"]⟩]
  literals := .ofList [("x", [0])]
  states := #[⟨[1, 2], #[(0, 1)], false⟩, ⟨[1, 2], #[(0, 1)], true⟩]
  longestLiteral := 1

/-- The same word three times. -/
def thrice : Lattice where
  tokens := [⟨"x", "x"⟩, ⟨"x", "x"⟩, ⟨"x", "x"⟩]
  found := #[⟨"x", 0, 1, "x", none⟩, ⟨"x", 1, 2, "x", none⟩, ⟨"x", 2, 3, "x", none⟩]

theorem run_orderly_circular : circular.InRange ∧ thrice.Spanning ∧
    Acc (fun later stage => Next circular thrice stage later) (first thrice) ∧
    ∃ stage, Reaches circular thrice (first thrice) stage ∧ stage.Orderly circular thrice ∧
      stage.position = 3 ∧ (∀ vertex link, ¬ stage.stack.Waits vertex link) ∧
      Stack.run circular 0 3 (initial thrice) = .ok stage.stack := by
  have fine : circular.flaw?.isNone = true := by decide +kernel
  have inRange := (Table.flaw?_eq_none_iff.1 (Option.isNone_iff_eq_none.1 fine)).inRange
  have spanning : thrice.Spanning := by
    simp [Lattice.Spanning, thrice, Lattice.length]
  obtain ⟨orderly, ends, stage, reaches, last, idle, running⟩ := run_orderly inRange spanning
  exact ⟨inRange, spanning, ends, stage, reaches, orderly stage reaches, last, idle, running⟩

end Stage

end Stack

end QueryGrammar
