import Mathlib.Data.Finset.Powerset
import QueryGrammar.Proofs.Table.Outline

namespace QueryGrammar.Automaton

/-! The states of the automaton: one for every kernel that can be reached.

Main statement: the states are made of as many different kernels, the first of which is that of the
whole input, and every state does what the closure of its kernel says.  There are at most as many
kernels as sets of items, so the states are all made before the fuel runs out.
-/

open Std

variable {skeleton : Skeleton} {kernel target : Kernel} {kernels : Array Kernel} {item : Item}
  {moves : List (Nat × Kernel)} {states : Array State} {state : State} {symbol rule : Nat}

theorem orderOfShifts_eq_compareLex :
    orderOfShifts = compareLex (compareOn Prod.fst) (compareOn Prod.snd) := by
  funext shift other
  simp only [orderOfShifts, compareLex, compareOn]

instance : TransCmp orderOfShifts := by
  rw [orderOfShifts_eq_compareLex]
  infer_instance

instance : LawfulEqCmp orderOfShifts where
  eq_of_compare {shift other} same := by
    simp only [orderOfShifts, Ordering.then_eq_eq, Std.compare_eq_iff_eq] at same
    exact Prod.ext same.1 same.2

/-! Kernels are ascending lists of items within their rules, of which there are finitely many. -/

structure Skeleton.IsKernel (skeleton : Skeleton) (kernel : Kernel) : Prop where
  ascending : AscendingBy Item.order kernel
  within : ∀ item ∈ kernel, item.position ≤ (skeleton.slotsOf item).length
  known : ∀ item ∈ kernel, ∀ rule, item.rule = some rule → rule < skeleton.slots.size

def Skeleton.itemsOf (skeleton : Skeleton) (rule : Nat) : List Item :=
  (List.range ((skeleton.slotsOf ⟨some rule, 0⟩).length + 1)).map fun position =>
    ⟨some rule, position⟩

def Skeleton.allItems (skeleton : Skeleton) : List Item :=
  ⟨none, 0⟩ :: ⟨none, 1⟩ :: (List.range skeleton.slots.size).flatMap skeleton.itemsOf

theorem length_allItems : skeleton.allItems.length = skeleton.itemCount := by
  have lengths : (List.range skeleton.slots.size).map
      (fun rule => (skeleton.itemsOf rule).length) =
      skeleton.slots.toList.map fun slots => slots.length + 1 := by
    refine List.ext_getElem (by simp) fun rule inRange inSlots => ?_
    have inside : rule < skeleton.slots.size := by simpa using inRange
    simp [Skeleton.itemsOf, Skeleton.slotsOf, inside]
  have total : ∀ lists : List (List Nat),
      (lists.map fun slots => slots.length + 1).sum = lists.flatten.length + lists.length := by
    intro lists
    induction lists with
    | nil => rfl
    | cons first rest ih =>
        simp only [List.map_cons, List.sum_cons, ih, List.flatten_cons, List.length_append,
          List.length_cons]
        omega
  simp only [Skeleton.allItems, Skeleton.itemCount, List.length_cons, List.length_flatMap, lengths,
    total, Array.length_toList]

theorem Skeleton.IsKernel.mem_allItems (isKernel : skeleton.IsKernel kernel)
    (member : item ∈ kernel) : item ∈ skeleton.allItems := by
  have within := isKernel.within item member
  obtain ⟨itemRule, position⟩ := item
  cases itemRule with
  | none =>
      simp only [Skeleton.slotsOf, List.length_singleton] at within
      have ends : position = 0 ∨ position = 1 := by omega
      rcases ends with rfl | rfl <;> simp [Skeleton.allItems]
  | some rule =>
      have known := isKernel.known _ member rule rfl
      simp only [Skeleton.allItems, List.mem_cons, List.mem_flatMap, List.mem_range]
      refine .inr (.inr ⟨rule, known, List.mem_map.2 ⟨position, ?_, rfl⟩⟩)
      exact List.mem_range.2 (Nat.lt_succ_of_le within)

theorem kernels_bounded (unique : kernels.toList.Nodup)
    (areKernels : ∀ kernel ∈ kernels.toList, skeleton.IsKernel kernel) :
    kernels.size ≤ 2 ^ skeleton.itemCount := by
  have injective : ∀ first ∈ kernels.toList, ∀ second ∈ kernels.toList,
      first.toFinset = second.toFinset → first = second := by
    intro first firstMember second secondMember same
    refine (areKernels first firstMember).ascending.ext (areKernels second secondMember).ascending
      fun item => ?_
    rw [← List.mem_toFinset, same, List.mem_toFinset]
  have sets : (kernels.toList.map List.toFinset).Nodup := unique.map_on injective
  calc kernels.size = (kernels.toList.map List.toFinset).toFinset.card := by
        rw [List.toFinset_card_of_nodup sets, List.length_map, Array.length_toList]
    _ ≤ skeleton.allItems.toFinset.powerset.card := by
        refine Finset.card_le_card fun set member => ?_
        obtain ⟨kernel, inKernels, rfl⟩ := List.mem_map.1 (List.mem_toFinset.1 member)
        refine Finset.mem_powerset.2 fun item inKernel => List.mem_toFinset.2 ?_
        exact (areKernels kernel inKernels).mem_allItems (List.mem_toFinset.1 inKernel)
    _ = 2 ^ skeleton.allItems.toFinset.card := Finset.card_powerset _
    _ ≤ 2 ^ skeleton.itemCount := by
        rw [← length_allItems]
        exact Nat.pow_le_pow_right (by omega) (List.toFinset_card_le _)

/-! Numbering kernels keeps the numbers given before. -/

def Includes (kernels later : Array Kernel) : Prop :=
  ∀ (id : Nat) kernel, kernels[id]? = some kernel → later[id]? = some kernel

theorem Includes.trans {first second third : Array Kernel} (before : Includes first second)
    (after : Includes second third) : Includes first third :=
  fun id kernel found => after id kernel (before id kernel found)

theorem number_spec (kernels : Array Kernel) (kernel : Kernel) :
    Includes kernels (number kernels kernel).2 ∧
      (number kernels kernel).2[(number kernels kernel).1]? = some kernel ∧
      (kernels.toList.Nodup → (number kernels kernel).2.toList.Nodup) ∧
      ∀ other ∈ (number kernels kernel).2.toList, other ∈ kernels.toList ∨ other = kernel := by
  unfold number
  cases found : kernels.toList.findIdx? (· == kernel) with
  | some id =>
      obtain ⟨inside, same, -⟩ := List.findIdx?_eq_some_iff_getElem.1 found
      have inArray : id < kernels.size := by simpa using inside
      refine ⟨fun _ _ found => found, ?_, fun unique => unique, fun _ member => .inl member⟩
      simpa [Array.getElem?_eq_getElem inArray] using same
  | none =>
      have absent : kernel ∉ kernels.toList := fun member => by
        simpa using List.findIdx?_eq_none_iff.1 found kernel member
      refine ⟨fun id other present => ?_, by simp, fun unique => ?_, fun other member => ?_⟩
      · have inside := (Array.getElem?_eq_some_iff.1 present).1
        simpa [Array.getElem?_push_lt inside] using (Array.getElem?_eq_some_iff.1 present).2
      · rw [Array.toList_push]
        refine List.nodup_append.2 ⟨unique, by simp, fun other member last inLast => ?_⟩
        rw [List.mem_singleton.1 inLast]
        intro given
        subst given
        exact absent member
      · rw [Array.toList_push, List.mem_append, List.mem_singleton] at member
        exact member

/-- What the moves of a state turn into: the same symbols, with the numbers of their kernels. -/
structure Numbered (moves : List (Nat × Kernel)) (kernels later : Array Kernel)
    (shifts : List (Nat × Nat)) : Prop where
  includes : Includes kernels later
  unique : kernels.toList.Nodup → later.toList.Nodup
  symbols : shifts.map (·.1) = moves.map (·.1)
  shift : ∀ symbol id, (symbol, id) ∈ shifts → ∃ kernel, (symbol, kernel) ∈ moves ∧
    later[id]? = some kernel
  known : ∀ kernel ∈ later.toList, kernel ∈ kernels.toList ∨ ∃ symbol, (symbol, kernel) ∈ moves

theorem numberMoves_spec (kernels : Array Kernel) (moves : List (Nat × Kernel)) :
    Numbered moves kernels (numberMoves kernels moves).2 (numberMoves kernels moves).1 := by
  induction moves generalizing kernels with
  | nil =>
      exact ⟨fun _ _ found => found, fun unique => unique, rfl, by simp [numberMoves],
        fun _ member => .inl member⟩
  | cons first rest ih =>
      obtain ⟨symbol, kernel⟩ := first
      obtain ⟨includes, numbered, unique, known⟩ := number_spec kernels kernel
      have later := ih (number kernels kernel).2
      simp only [numberMoves]
      refine ⟨includes.trans later.includes, fun distinct => later.unique (unique distinct),
        by simp [later.symbols], fun other id member => ?_, fun other member => ?_⟩
      · rcases List.mem_cons.1 member with same | member
        · cases same
          exact ⟨kernel, by simp, later.includes _ _ numbered⟩
        · obtain ⟨target, move, found⟩ := later.shift other id member
          exact ⟨target, by simp [move], found⟩
      · rcases later.known other member with before | ⟨key, move⟩
        · rcases known other before with before | rfl
          · exact .inl before
          · exact .inr ⟨symbol, by simp⟩
        · exact .inr ⟨key, by simp [move]⟩

/-! A state and the kernel it is made of. -/

structure Skeleton.Describes (skeleton : Skeleton) (kernels : Array Kernel) (kernel : Kernel)
    (state : State) : Prop where
  sorted : state.reductions.Pairwise (· < ·)
  reductions : ∀ rule, rule ∈ state.reductions ↔ ∃ item, skeleton.Closure kernel item ∧
    skeleton.next? item = none ∧ item.rule = some rule
  accepts : state.accepts = true ↔ ∃ item, skeleton.Closure kernel item ∧
    skeleton.next? item = none ∧ item.rule = none
  ascending : state.shifts.toList.Pairwise fun first second => first.1 < second.1
  shift : ∀ symbol id, (symbol, id) ∈ state.shifts.toList → ∃ target, kernels[id]? = some target ∧
    target ≠ [] ∧ ∀ item, item ∈ target ↔ skeleton.Goto kernel symbol item
  goto : ∀ symbol item, skeleton.Goto kernel symbol item →
    ∃ id, (symbol, id) ∈ state.shifts.toList

theorem Skeleton.Describes.mono {later : Array Kernel} (includes : Includes kernels later)
    (describes : skeleton.Describes kernels kernel state) :
    skeleton.Describes later kernel state := by
  refine { describes with shift := fun symbol id member => ?_ }
  obtain ⟨target, found, rest⟩ := describes.shift symbol id member
  exact ⟨target, includes id target found, rest⟩

theorem symbols_ascend {shifts : List (Nat × Nat)} (unique : (shifts.map (·.1)).Nodup) :
    (ordered orderOfShifts shifts).Pairwise fun first second => first.1 < second.1 := by
  have members : ∀ shift ∈ ordered orderOfShifts shifts, shift ∈ shifts :=
    fun shift member => mem_ordered.1 member
  have ascending : AscendingBy orderOfShifts (ordered orderOfShifts shifts) := ascending_ordered
  refine List.Pairwise.imp_of_mem ?_ ascending
  intro first second firstMember secondMember before
  rcases Nat.lt_trichotomy first.1 second.1 with less | same | greater
  · exact less
  · have equal := List.inj_on_of_nodup_map unique (members first firstMember)
      (members second secondMember) same
    subst equal
    simp [ReflCmp.compare_self] at before
  · have after : compare first.1 second.1 = .gt := Nat.compare_eq_gt.2 greater
    simp [orderOfShifts, after] at before

theorem goto_isKernel (ascending : AscendingBy Item.order target)
    (goto : ∀ item, item ∈ target ↔ skeleton.Goto kernel symbol item) :
    skeleton.IsKernel target := by
  have advanced : ∀ item ∈ target, item.position ≤ (skeleton.slotsOf item).length ∧
      ∀ rule, item.rule = some rule → rule < skeleton.slots.size := by
    intro item member
    obtain ⟨before, -, next, rfl⟩ := (goto item).1 member
    obtain ⟨inside, -⟩ := List.getElem?_eq_some_iff.1 next
    have sameSlots : skeleton.slotsOf before.advance = skeleton.slotsOf before := rfl
    refine ⟨by rw [sameSlots]; exact inside, fun rule same => ?_⟩
    have ruleSame : before.rule = some rule := same
    by_contra beyond
    have empty : skeleton.slotsOf before = [] := by
      simp [Skeleton.slotsOf, ruleSame, Array.getElem?_eq_none (Nat.le_of_not_lt beyond)]
    simp [empty] at inside
  exact ⟨ascending, fun item member => (advanced item member).1,
    fun item member => (advanced item member).2⟩

/-- The kernels that can be reached from that of the whole input. -/
inductive Skeleton.Reached (skeleton : Skeleton) : Kernel → Prop
  | initial : skeleton.Reached [⟨none, 0⟩]
  | goto {kernel target : Kernel} {symbol : Nat} : skeleton.Reached kernel → target ≠ [] →
      (∀ item, item ∈ target ↔ skeleton.Goto kernel symbol item) → skeleton.Reached target

/-- States made so far, for the first of the kernels met so far. -/
structure Growing (skeleton : Skeleton) (states : Array State) (kernels : Array Kernel) : Prop where
  unique : kernels.toList.Nodup
  areKernels : ∀ kernel ∈ kernels.toList, skeleton.IsKernel kernel
  reached : ∀ kernel ∈ kernels.toList, skeleton.Reached kernel
  fewer : states.size ≤ kernels.size
  described : ∀ (id : Nat) state, states[id]? = some state → ∃ kernel, kernels[id]? = some kernel ∧
    skeleton.Describes kernels kernel state

/-- The state made of a kernel, with its moves numbered. -/
def stateOf (skeleton : Skeleton) (kernel : Kernel) (shifts : List (Nat × Nat)) : State where
  reductions := ordered compare (outline skeleton kernel).reductions
  shifts := (ordered orderOfShifts shifts).toArray
  accepts := (outline skeleton kernel).accepts

section

variable (bounded : skeleton.Bounded)
include bounded

theorem stateOf_described {later : Array Kernel} {shifts : List (Nat × Nat)}
    (numbered : Numbered (outline skeleton kernel).moves kernels later shifts) :
    skeleton.Describes later kernel (stateOf skeleton kernel shifts) where
  sorted := ascending_ordered.imp Nat.compare_eq_lt.1
  reductions rule := mem_ordered.trans (mem_outline_reductions bounded)
  accepts := outline_accepts_iff bounded
  ascending := by
    refine symbols_ascend ?_
    rw [numbered.symbols]
    exact (outlineOf_closure skeleton kernel).moves.unique
  shift symbol id member := by
    obtain ⟨target, move, found⟩ := numbered.shift symbol id (mem_ordered.1 member)
    obtain ⟨nonempty, -, goto⟩ := outline_moves_goto bounded move
    exact ⟨target, found, nonempty, goto⟩
  goto symbol item goto := by
    obtain ⟨target, move⟩ := exists_outline_move bounded goto
    have listed : symbol ∈ shifts.map (·.1) := by
      rw [numbered.symbols]
      exact List.mem_map.2 ⟨_, move, rfl⟩
    obtain ⟨⟨_, id⟩, member, rfl⟩ := List.mem_map.1 listed
    exact ⟨id, mem_ordered.2 member⟩

theorem Growing.step (growing : Growing skeleton states kernels)
    (found : kernels[states.size]? = some kernel) :
    Growing skeleton
      (states.push (stateOf skeleton kernel
        (numberMoves kernels (outline skeleton kernel).moves).1))
      (numberMoves kernels (outline skeleton kernel).moves).2 := by
  have numbered := numberMoves_spec kernels (outline skeleton kernel).moves
  have present := numbered.includes _ _ found
  refine ⟨numbered.unique growing.unique, fun other member => ?_, fun other member => ?_, ?_,
    fun id state made => ?_⟩
  · rcases numbered.known other member with before | ⟨symbol, move⟩
    · exact growing.areKernels other before
    · obtain ⟨-, ascending, goto⟩ := outline_moves_goto bounded move
      exact goto_isKernel ascending goto
  · rcases numbered.known other member with before | ⟨symbol, move⟩
    · exact growing.reached other before
    · obtain ⟨nonempty, -, goto⟩ := outline_moves_goto bounded move
      exact .goto (growing.reached kernel (Array.mem_toList_iff.2 (Array.mem_of_getElem? found)))
        nonempty goto
  · rw [Array.size_push]
    exact (Array.getElem?_eq_some_iff.1 present).1
  · by_cases last : id = states.size
    · subst last
      simp only [Array.getElem?_push_size, Option.some.injEq] at made
      subst made
      exact ⟨kernel, present, stateOf_described bounded numbered⟩
    · have inside : id < states.size := by
        have less := (Array.getElem?_eq_some_iff.1 made).1
        rw [Array.size_push] at less
        omega
      rw [Array.getElem?_push_lt inside, ← Array.getElem?_eq_getElem inside] at made
      obtain ⟨own, ownFound, describes⟩ := growing.described id state made
      exact ⟨own, numbered.includes _ _ ownFound, describes.mono numbered.includes⟩

/-- One turn of making states: that of the next kernel, if there is one. -/
def growTurn (skeleton : Skeleton) (made : Array State × Array Kernel) :
    (Array State × Array Kernel) ⊕ Array State :=
  match made.2[made.1.size]? with
  | none => .inr made.1
  | some kernel =>
      let numbered := numberMoves made.2 (outline skeleton kernel).moves
      .inl (made.1.push (stateOf skeleton kernel numbered.1), numbered.2)

theorem grow_halts {fuel : Nat} (growing : Growing skeleton states kernels)
    (enough : 2 ^ skeleton.itemCount < fuel + states.size) :
    ∃ turns ≤ fuel, Halts (growTurn skeleton) turns (states, kernels)
      (grow skeleton fuel states kernels) := by
  induction fuel generalizing states kernels with
  | zero =>
      have few := kernels_bounded growing.unique growing.areKernels
      have fewer := growing.fewer
      omega
  | succ fuel ih =>
      cases found : kernels[states.size]? with
      | none =>
          simp only [grow, found]
          exact ⟨1, Nat.le_add_left 1 fuel, .last (by simp only [growTurn, found])⟩
      | some kernel =>
          obtain ⟨turns, few, ends⟩ := ih (growing.step bounded found)
            (by rw [Array.size_push]; omega)
          simp only [grow, found]
          exact ⟨turns + 1, Nat.succ_le_succ few, .next (by simp only [growTurn, found]) ends⟩

theorem grow_spec {fuel : Nat} (growing : Growing skeleton states kernels)
    (enough : 2 ^ skeleton.itemCount < fuel + states.size) :
    ∃ all, Includes kernels all ∧ Growing skeleton (grow skeleton fuel states kernels) all ∧
      (grow skeleton fuel states kernels).size = all.size := by
  induction fuel generalizing states kernels with
  | zero =>
      have few := kernels_bounded growing.unique growing.areKernels
      have fewer := growing.fewer
      omega
  | succ fuel ih =>
      cases found : kernels[states.size]? with
      | none =>
          have beyond : kernels.size ≤ states.size := Array.getElem?_eq_none_iff.1 found
          simp only [grow, found]
          exact ⟨kernels, fun _ _ present => present, growing,
            Nat.le_antisymm growing.fewer beyond⟩
      | some kernel =>
          obtain ⟨all, includes, grown, same⟩ := ih (growing.step bounded found)
            (by rw [Array.size_push]; omega)
          have numbered := numberMoves_spec kernels (outline skeleton kernel).moves
          simp only [grow, found]
          exact ⟨all, numbered.includes.trans includes, grown, same⟩

end

/-- States and the kernels they are made of. -/
structure Skeleton.Collection (skeleton : Skeleton) (states : Array State)
    (kernels : Array Kernel) : Prop where
  unique : kernels.toList.Nodup
  size : states.size = kernels.size
  initial : kernels[0]? = some [⟨none, 0⟩]
  areKernels : ∀ kernel ∈ kernels.toList, skeleton.IsKernel kernel
  reached : ∀ kernel ∈ kernels.toList, skeleton.Reached kernel
  described : ∀ (id : Nat) state, states[id]? = some state → ∃ kernel, kernels[id]? = some kernel ∧
    skeleton.Describes kernels kernel state

theorem growing_initial (skeleton : Skeleton) : Growing skeleton #[] #[[⟨none, 0⟩]] := by
  have only : ∀ kernel ∈ (#[[⟨none, 0⟩]] : Array Kernel).toList, kernel = [⟨none, 0⟩] := by simp
  refine ⟨by simp, fun kernel member => ?_, fun kernel member => ?_, by simp, by simp⟩
  · rw [only kernel member]
    exact ⟨by simp [AscendingBy], by simp, by simp⟩
  · rw [only kernel member]
    exact .initial

theorem states_enough (skeleton : Skeleton) : 2 ^ skeleton.itemCount <
    Nat.pow 2 skeleton.itemCount + 1 + (#[] : Array State).size := by
  simp

theorem states_halts (bounded : skeleton.Bounded) : ∃ turns,
    Halts (growTurn skeleton) turns (#[], #[[⟨none, 0⟩]]) (Automaton.states skeleton) := by
  obtain ⟨turns, -, ends⟩ := grow_halts bounded (growing_initial skeleton) (states_enough skeleton)
  exact ⟨turns, ends⟩

theorem states_collection (bounded : skeleton.Bounded) :
    ∃ kernels, skeleton.Collection (Automaton.states skeleton) kernels := by
  obtain ⟨all, includes, grown, same⟩ :=
    grow_spec bounded (growing_initial skeleton) (states_enough skeleton)
  exact ⟨all, grown.unique, same, includes 0 _ rfl, grown.areKernels, grown.reached,
    grown.described⟩

end QueryGrammar.Automaton
