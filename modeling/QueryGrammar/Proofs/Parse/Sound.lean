import QueryGrammar.Proofs.Forest.Phrase
import QueryGrammar.Proofs.Parse.Step

namespace QueryGrammar

/-! Recognition adds no derivation that the grammar does not have.

Main statement: on a compiled table, every step keeps a forest that presents the lattice.
-/

open Automaton

namespace Forest

variable {κ : Type} {table : Table κ} {lattice : Lattice} {before after : Forest}
  {id symbol start stop : Nat} {alternative : Alternative}

/-- What an alternative for a symbol over a stretch has to be. -/
inductive Fits (table : Table κ) (lattice : Lattice) (forest : Forest) :
    Nat → Nat → Nat → Alternative → Prop
  | literal {rule found : Nat} {hit : Match} {entry : IndexedRule κ} :
      lattice.found[found]? = some hit → rule ∈ table.literalRules hit.literal →
      table.rules[rule]? = some entry →
      Fits table lattice forest entry.symbol hit.start hit.stop (.terminal rule found)
  | branch {rule start stop : Nat} {entry : IndexedRule κ} {children : List Nat} :
      table.rules[rule]? = some entry → forest.Covers entry.slots children start stop →
      Fits table lattice forest entry.symbol start stop (.branch rule children)

theorem Recorded.contains (recorded : Recorded before after id symbol start stop alternative)
    (presents : before.Presents table lattice)
    (fits : Fits table lattice before symbol start stop alternative) :
    ∃ phrase, after.Contains id phrase := by
  have has := recorded.has
  have inhabited : ∀ child symbol start stop, before.Is child symbol start stop →
      ∃ phrase, after.Contains child phrase := by
    intro child symbol start stop is
    obtain ⟨phrase, contains⟩ := presents.inhabited _ _ _ _ is
    exact ⟨phrase, contains.mono fun _ _ known => (recorded.has_iff ..).2 (.inl known)⟩
  cases fits with
  | literal found listed known => exact ⟨_, .literal has⟩
  | branch known covers =>
      generalize entrySlots : IndexedRule.slots _ = slots at covers
      cases covers with
      | single child =>
          obtain ⟨part, contains⟩ := inhabited _ _ _ _ child
          exact ⟨_, .single has contains⟩
      | pair left right =>
          obtain ⟨leftPart, containsLeft⟩ := inhabited _ _ _ _ left
          obtain ⟨rightPart, containsRight⟩ := inhabited _ _ _ _ right
          exact ⟨_, .pair has containsLeft containsRight⟩

theorem Recorded.presents (recorded : Recorded before after id symbol start stop alternative)
    (presents : before.Presents table lattice)
    (fits : Fits table lattice before symbol start stop alternative)
    (node : symbol < table.symbols.size ∧ start < stop ∧ stop ≤ lattice.length) :
    after.Presents table lattice := by
  have is : ∀ id symbol start stop, before.Is id symbol start stop →
      after.Is id symbol start stop := fun _ _ _ _ known => (recorded.is_iff ..).2 (.inl known)
  refine ⟨recorded.packed, recorded.found.trans presents.found, fun other _ _ _ known => ?_,
    fun other _ _ _ known => ?_, fun other rule index known => ?_,
    fun other rule children known => ?_⟩
  · rcases (recorded.is_iff ..).1 known with old | ⟨rfl, rfl, rfl, rfl⟩
    · exact presents.node _ _ _ _ old
    · exact node
  · rcases (recorded.is_iff ..).1 known with old | ⟨rfl, rfl, rfl, rfl⟩
    · obtain ⟨phrase, contains⟩ := presents.inhabited _ _ _ _ old
      exact ⟨phrase, contains.mono fun _ _ has => (recorded.has_iff ..).2 (.inl has)⟩
    · exact recorded.contains presents fits
  · rcases (recorded.has_iff ..).1 known with old | ⟨rfl, rfl⟩
    · obtain ⟨hit, entry, found, listed, entryFound, own⟩ := presents.terminal _ _ _ old
      exact ⟨hit, entry, found, listed, entryFound, is _ _ _ _ own⟩
    · obtain ⟨found, listed, entryFound⟩ := fits
      exact ⟨_, _, found, listed, entryFound, recorded.is⟩
  · rcases (recorded.has_iff ..).1 known with old | ⟨rfl, rfl⟩
    · obtain ⟨entry, start, stop, entryFound, own, covers⟩ := presents.branch _ _ _ old
      exact ⟨entry, start, stop, entryFound, is _ _ _ _ own, covers.mono is⟩
    · obtain - | ⟨entryFound, covers⟩ := fits
      exact ⟨_, _, _, entryFound, recorded.is, covers.mono is⟩

theorem Presents.withRoot (presents : before.Presents table lattice) (root : Option Nat) :
    Presents table lattice { before with root } where
  packed := presents.packed.withRoot root
  found := presents.found
  node := presents.node
  inhabited _ _ _ _ is := by
    obtain ⟨phrase, contains⟩ := presents.inhabited _ _ _ _ is
    exact ⟨phrase, contains.mono fun _ _ has => has⟩
  terminal := presents.terminal
  branch _ _ _ has := by
    obtain ⟨entry, start, stop, known, is, covers⟩ := presents.branch _ _ _ has
    exact ⟨entry, start, stop, known, is, covers.mono fun _ _ _ _ is => is⟩

end Forest

namespace Stack

variable {κ : Type} {table : Table κ} {lattice : Lattice} {kernels : Array Kernel}
  {stack after : Stack} {vertex origin : Vertex} {link : Link} {low rule : Nat}
  {children : List Nat}

/-- The nodes on a way back along a link are those that a completed rule asks for: its items were
advanced over them. -/
theorem path_covers {state : State} {entry : IndexedRule κ} (compiled : table.Compiled kernels)
    (consistent : stack.Consistent table lattice) (has : stack.HasLink vertex link)
    (present : table.states[vertex.state]? = some state) (reduces : rule ∈ state.reductions)
    (known : table.rules[rule]? = some entry)
    (path : stack.Path link entry.slots.length origin children) :
    stack.forest.Covers entry.slots children origin.position vertex.position := by
  obtain ⟨-, symbol, is, shifted⟩ := consistent.link _ _ has
  obtain ⟨position, holds, complete⟩ := (compiled.mem_reductions present).1 reduces
  rw [Table.next?_rule known, List.getElem?_eq_none_iff] at complete
  generalize sized : entry.slots.length = length at path complete
  cases path with
  | single =>
      obtain ⟨slot, slots⟩ := List.length_eq_one_iff.1 sized
      obtain ⟨before, rfl⟩ := Nat.exists_eq_succ_of_ne_zero (n := position) (by omega)
      obtain ⟨-, next⟩ := compiled.holds_before shifted holds
      rw [Table.next?_rule known, slots, List.getElem?_singleton] at next
      split at next
      · cases next
        rw [slots]
        exact .single is
      · cases next
  | pair first =>
      obtain ⟨one, two, slots⟩ := List.length_eq_two.1 sized
      obtain ⟨-, symbolBefore, isBefore, shiftedBefore⟩ := consistent.link _ _ first
      obtain ⟨middle, rfl⟩ := Nat.exists_eq_succ_of_ne_zero (n := position) (by omega)
      obtain ⟨holdsMiddle, next⟩ := compiled.holds_before shifted holds
      rw [Table.next?_rule known, slots] at next
      obtain ⟨start, rfl⟩ := Nat.exists_eq_succ_of_ne_zero (n := middle) (by omega)
      obtain ⟨-, nextBefore⟩ := compiled.holds_before shiftedBefore holdsMiddle
      rw [Table.next?_rule known, slots] at nextBefore
      cases start with
      | zero =>
          cases next
          cases nextBefore
          rw [slots]
          exact .pair isBefore is
      | succ start => cases next

theorem Warrants.fits {symbol start stop : Nat} {alternative : Alternative}
    (compiled : table.Compiled kernels) (consistent : stack.Consistent table lattice)
    (warrant : Warrants table lattice stack symbol start stop alternative) :
    Forest.Fits table lattice stack.forest symbol start stop alternative := by
  cases warrant with
  | literal found listed known => exact .literal found listed known
  | branch has present reduces known path =>
      exact .branch known (path_covers compiled consistent has present reduces known path)

theorem Move.presents (compiled : table.Compiled kernels) (spanning : lattice.Spanning)
    (consistent : stack.Consistent table lattice) (presents : stack.forest.Presents table lattice)
    (move : Move table lattice low stack after) : after.forest.Presents table lattice := by
  cases move with
  | step step =>
      cases step with
      | record warrant recorded =>
          exact recorded.presents presents (warrant.fits compiled consistent)
            (consistent.warranted compiled.inRange spanning warrant)
      | link => exact presents
  | take => exact presents

theorem Moves.presents (compiled : table.Compiled kernels) (spanning : lattice.Spanning)
    (consistent : stack.Consistent table lattice) (presents : stack.forest.Presents table lattice)
    (moves : Moves table lattice low stack after) : after.forest.Presents table lattice := by
  induction moves with
  | refl => exact presents
  | tail before move ih =>
      have later := (Moves.spec compiled.inRange spanning consistent before).1
      exact move.presents compiled spanning later ih

end Stack

end QueryGrammar
