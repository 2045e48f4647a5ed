import Mathlib.Data.Finset.Prod
import QueryGrammar.Proofs.Parse.Reduce

namespace QueryGrammar

/-! Taking up the links that wait at a position, until none is left.

Main statement: every link at the position is then reduced, and links made further on wait.  A
link is told apart by a symbol, a state and two positions, so the fuel is enough for all of them.
-/

namespace Stack

variable {κ : Type} {table : Table κ} {lattice : Lattice} {stack after : Stack}
  {vertex : Vertex} {link : Link} {position : Nat} {column : Column}

/-- The symbol and the start of a link's node, with the source of the link. -/
def signature (forest : Forest) (entry : Nat × Link) : (Nat × Nat) × Nat × Nat :=
  ((((forest.nodes[entry.2.node]?).map Node.symbol).getD 0,
      ((forest.nodes[entry.2.node]?).map Node.start).getD 0),
    entry.2.source.state, entry.2.source.position)

theorem signature_eq {forest : Forest} {state symbol start stop : Nat}
    (is : forest.Is link.node symbol start stop) :
    signature forest (state, link) =
      ((symbol, start), link.source.state, link.source.position) := by
  obtain ⟨node, found, rfl, rfl, rfl⟩ := is
  simp [signature, found]

theorem allLinks_bounded (consistent : stack.Consistent table lattice)
    (found : stack.columns[position]? = some column) :
    column.allLinks.length < drainBound table position := by
  have facts : ∀ state link, (state, link) ∈ column.allLinks →
      ∃ symbol, stack.forest.Is link.node symbol link.source.position position ∧
        symbol < table.symbols.size ∧ link.source.position < position ∧
        link.source.state < table.states.size ∧
        table.shift link.source.state symbol = .ok (some state) := by
    intro state link member
    have has : stack.HasLink ⟨state, position⟩ link := ⟨column, found, member⟩
    obtain ⟨known, symbol, is, shifted⟩ := consistent.link _ _ has
    obtain ⟨inside, before, -⟩ := consistent.node _ _ _ _ is
    exact ⟨symbol, is, inside, before, consistent.vertex _ known, shifted⟩
  have maps : ∀ entry ∈ column.allLinks.toFinset, signature stack.forest entry ∈
      (Finset.range table.symbols.size ×ˢ Finset.range (position + 1)) ×ˢ
        (Finset.range table.states.size ×ˢ Finset.range (position + 1)) := by
    intro entry member
    obtain ⟨state, link⟩ := entry
    obtain ⟨symbol, is, inside, before, known, -⟩ := facts state link (List.mem_toFinset.1 member)
    rw [signature_eq is]
    simp only [Finset.mem_product, Finset.mem_range]
    omega
  have injective : Set.InjOn (signature stack.forest) column.allLinks.toFinset := by
    intro first member second otherMember same
    obtain ⟨state, link⟩ := first
    obtain ⟨other, also⟩ := second
    obtain ⟨symbol, is, -, -, -, shifted⟩ := facts state link (by simpa using member)
    obtain ⟨symbol', is', -, -, -, shifted'⟩ := facts other also (by simpa using otherMember)
    rw [signature_eq is, signature_eq is'] at same
    simp only [Prod.mk.injEq] at same
    obtain ⟨⟨rfl, starts⟩, states, -⟩ := same
    have nodes := consistent.packed.unique is (starts ▸ is')
    rw [← states, shifted] at shifted'
    cases shifted'
    rcases link with ⟨node, ⟨source, begins⟩⟩
    rcases also with ⟨node', ⟨source', begins'⟩⟩
    simp_all
  have card := Finset.card_le_card_of_injOn _ maps injective
  rw [List.toFinset_card_of_nodup (consistent.tidy _ _ found).distinct] at card
  simp only [Finset.card_product, Finset.card_range] at card
  exact Nat.lt_succ_of_le card

/-- While links are taken up at a position: a link there waits or is reduced, and one further on
waits. -/
structure Draining (table : Table κ) (position : Nat) (stack : Stack) : Prop where
  pending : ∀ vertex link, vertex.position = position → stack.HasLink vertex link →
    stack.Waits vertex link ∨ stack.Reduced table vertex link
  beyond : ∀ vertex link, position < vertex.position → stack.HasLink vertex link →
    stack.Waits vertex link

theorem waits_iff {state : Nat} (found : stack.columns[position]? = some column) :
    stack.Waits ⟨state, position⟩ link ↔ (state, link) ∈ column.waiting := by
  simp [Waits, found]

theorem waits_setColumn {new : Column} (found : stack.columns[position]? = some column) :
    (stack.setColumn position new).Waits vertex link ↔
      vertex.position = position ∧ (vertex.state, link) ∈ new.waiting ∨
        vertex.position ≠ position ∧ stack.Waits vertex link := by
  unfold Waits
  rw [getElem?_setColumn found]
  by_cases here : vertex.position = position <;> simp [here]

/-- Only the link that is taken stops waiting. -/
theorem waits_take {state : Nat} {rest : List (Nat × Link)} {other : Link}
    (found : stack.columns[position]? = some column)
    (waiting : column.waiting = (state, link) :: rest) (waits : stack.Waits vertex other) :
    (stack.setColumn position { column with waiting := rest }).Waits vertex other ∨
      (vertex = ⟨state, position⟩ ∧ other = link) := by
  obtain ⟨own, index⟩ := vertex
  rw [waits_setColumn found]
  by_cases here : index = position
  · subst here
    rw [waits_iff found, waiting] at waits
    rcases List.mem_cons.1 waits with same | member
    · cases same
      exact .inr ⟨rfl, rfl⟩
    · exact .inl (.inl ⟨rfl, member⟩)
  · exact .inl (.inr ⟨here, waits⟩)

section

variable (inRange : table.InRange) (spanning : lattice.Spanning)
  (consistent : stack.Consistent table lattice)
include inRange spanning consistent

theorem Steps.exists_before {low : Nat} (steps : Steps table lattice low stack after)
    (found : after.columns[position]? = some column) :
    ∃ before, stack.columns[position]? = some before ∧ before.Grows column := by
  have later := (Steps.spec inRange spanning consistent steps).1
  have inside : position < stack.columns.size := by
    have bound := (Array.getElem?_eq_some_iff.1 found).1
    rwa [later.size, ← consistent.size] at bound
  have present := Array.getElem?_eq_getElem inside
  obtain ⟨again, foundAgain, grows⟩ := Steps.column inRange spanning consistent steps present
  cases found.symm.trans foundAgain
  exact ⟨_, present, grows⟩

theorem Steps.waits_or_before {low : Nat} (steps : Steps table lattice low stack after)
    (has : after.HasLink vertex link) : after.Waits vertex link ∨ stack.HasLink vertex link := by
  obtain ⟨grown, found, member⟩ := has
  obtain ⟨before, present, grows⟩ := Steps.exists_before inRange spanning consistent steps found
  exact (grows.waits_or_before member).imp (fun waits => ⟨grown, found, waits⟩)
    fun old => ⟨before, present, old⟩

theorem Steps.waits {low : Nat} (steps : Steps table lattice low stack after)
    (waits : stack.Waits vertex link) : after.Waits vertex link := by
  obtain ⟨column, found, member⟩ := waits
  obtain ⟨grown, present, grows⟩ := Steps.column inRange spanning consistent steps found
  exact ⟨grown, present, grows.mem_waiting member⟩

/-- A link that waits can be taken up and reduced. -/
theorem exists_turn {state : Nat} {rest : List (Nat × Link)}
    (found : stack.columns[position]? = some column)
    (waiting : column.waiting = (state, link) :: rest) :
    ((stack.setColumn position { column with waiting := rest }).Consistent table lattice ∧
      stack.Extends position (stack.setColumn position { column with waiting := rest })) ∧
    ∃ next, reduce table (stack.setColumn position { column with waiting := rest })
        ⟨state, position⟩ link = .ok next ∧
      Steps table lattice position (stack.setColumn position { column with waiting := rest }) next ∧
      next.Reduced table ⟨state, position⟩ link := by
  have take : Move table lattice position stack
      (stack.setColumn position { column with waiting := rest }) :=
    .take (Nat.le_refl _) found waiting
  have taken := take.spec inRange spanning consistent
  have has : (stack.setColumn position { column with waiting := rest }).HasLink
      ⟨state, position⟩ link := by
    refine (hasLink_take found).2 ⟨column, found, ?_⟩
    exact (consistent.tidy _ _ found).waiting _ (waiting ▸ List.mem_cons_self ..)
  exact ⟨taken, reduce_spec inRange spanning taken.1 has⟩

/-- Taking up a link and reducing it goes on draining. -/
theorem Draining.next {state : Nat} {rest : List (Nat × Link)}
    (draining : Draining table position stack) (found : stack.columns[position]? = some column)
    (waiting : column.waiting = (state, link) :: rest) :
    ∃ next grown, reduce table (stack.setColumn position { column with waiting := rest })
        ⟨state, position⟩ link = .ok next ∧
      Moves table lattice position stack next ∧ next.Consistent table lattice ∧
      Draining table position next ∧ next.columns[position]? = some grown ∧
      column.allLinks.length + grown.waiting.length + 1 =
        grown.allLinks.length + column.waiting.length := by
  have take : Move table lattice position stack
      (stack.setColumn position { column with waiting := rest }) :=
    .take (Nat.le_refl _) found waiting
  obtain ⟨⟨takenConsistent, extended⟩, next, reduced, steps, done⟩ :=
    exists_turn inRange spanning consistent found waiting
  have takenFound : (stack.setColumn position { column with waiting := rest }).columns[position]? =
      some { column with waiting := rest } := by
    rw [getElem?_setColumn found, if_pos rfl]
  obtain ⟨nextConsistent, onward⟩ := Steps.spec inRange spanning takenConsistent steps
  obtain ⟨grown, grownFound, grows⟩ :=
    Steps.column inRange spanning takenConsistent steps takenFound
  have stillWaits : ∀ vertex other, stack.Waits vertex other →
      next.Waits vertex other ∨ (vertex = ⟨state, position⟩ ∧ other = link) :=
    fun vertex other waits => (waits_take found waiting waits).imp_left
      (Steps.waits inRange spanning takenConsistent steps)
  refine ⟨next, grown, reduced,
    .head take (Relation.ReflTransGen.mono (fun _ _ => .step) _ _ steps), nextConsistent,
    ⟨fun vertex other here known => ?_, fun vertex other past known => ?_⟩, grownFound, ?_⟩
  · rcases Steps.waits_or_before inRange spanning takenConsistent steps known with waits | before
    · exact .inl waits
    · have earlier := (hasLink_take found).1 before
      rcases draining.pending vertex other here earlier with waits | old
      · rcases stillWaits vertex other waits with waits | ⟨rfl, rfl⟩
        · exact .inl waits
        · exact .inr done
      · exact .inr (old.mono (extended.trans onward) (here ▸ consistent.source_before earlier))
  · rcases Steps.waits_or_before inRange spanning takenConsistent steps known with waits | before
    · exact waits
    · have waits := draining.beyond vertex other past ((hasLink_take found).1 before)
      refine (stillWaits vertex other waits).resolve_right fun same => ?_
      rw [same.1] at past
      exact Nat.lt_irrefl _ past
  · have balance := grows.balance
    rw [waiting, List.length_cons]
    simp only [Column.allLinks] at balance ⊢
    omega

theorem drain_spec {fuel : Nat} (found : stack.columns[position]? = some column)
    (draining : Draining table position stack)
    (enough : drainBound table position + column.waiting.length ≤
      fuel + column.allLinks.length) :
    ∃ after, drain table position fuel stack = .ok after ∧
      Moves table lattice position stack after ∧
      (∀ vertex link, vertex.position = position → after.HasLink vertex link →
        after.Reduced table vertex link) ∧
      ∀ vertex link, position < vertex.position → after.HasLink vertex link →
        after.Waits vertex link := by
  induction fuel generalizing stack column with
  | zero =>
      have bounded := allLinks_bounded consistent found
      omega
  | succ fuel ih =>
      have columnFound : stack.columnAt position = .ok column := by
        simp [columnAt, Fault.lookUp, found]
      cases waiting : column.waiting with
      | nil =>
          refine ⟨stack, ?_, .refl, fun vertex link here has => ?_, draining.beyond⟩
          · simp only [drain, columnFound, waiting, bind, Except.bind]
          · refine (draining.pending vertex link here has).resolve_left fun waits => ?_
            obtain ⟨again, present, member⟩ := waits
            rw [here] at present
            cases found.symm.trans present
            rw [waiting] at member
            cases member
      | cons first rest =>
          obtain ⟨state, link⟩ := first
          obtain ⟨next, grown, reduced, moves, nextConsistent, still, grownFound, balance⟩ :=
            Draining.next inRange spanning consistent draining found waiting
          obtain ⟨last, drained, later, settled, further⟩ :=
            ih nextConsistent grownFound still (by omega)
          refine ⟨last, ?_, moves.trans later, settled, further⟩
          simp only [drain, columnFound, waiting, reduced, bind, Except.bind]
          exact drained

end

end Stack

end QueryGrammar
