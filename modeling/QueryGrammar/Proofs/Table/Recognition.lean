import QueryGrammar.Proofs.Table.Compiled

namespace QueryGrammar

/-! What the automaton of a compiled table recognizes, in terms of the items of its states.

Main statements: a symbol that may come next leads on, to a state that holds the item advanced;
and an item inside of its rule was advanced over whatever symbol leads to its state.
-/

open Automaton

namespace Table

variable {κ : Type} {table : Table κ}

/-- Every reference of a table leads somewhere. -/
structure InRange (table : Table κ) : Prop where
  start : table.start < table.symbols.size
  initial : 0 < table.states.size
  symbol : ∀ (id : Nat) entry, table.rules[id]? = some entry → entry.symbol < table.symbols.size
  reduction : ∀ (id : Nat) state, table.states[id]? = some state →
    ∀ rule ∈ state.reductions, rule < table.rules.size
  target : ∀ (id : Nat) state, table.states[id]? = some state →
    ∀ symbol target, state.target? symbol = some target → target < table.states.size
  literal : ∀ literal, ∀ rule ∈ table.literalRules literal, rule < table.rules.size

theorem shift_eq_ok_iff {state symbol : Nat} {target : Option Nat} :
    table.shift state symbol = .ok target ↔
      ∃ found, table.states[state]? = some found ∧ found.target? symbol = target := by
  unfold shift stateAt Fault.lookUp
  cases table.states[state]? <;> simp [bind, Except.bind]

theorem InRange.shift_ok (inRange : table.InRange) {state : Nat} (known : state < table.states.size)
    (symbol : Nat) : ∃ target, table.shift state symbol = .ok target ∧
      ∀ next, target = some next → next < table.states.size := by
  have found := Array.getElem?_eq_getElem known
  refine ⟨_, shift_eq_ok_iff.2 ⟨_, found, rfl⟩, fun next same => ?_⟩
  exact inRange.target state _ found symbol next same

/-- The items that a state stands for. -/
def Holds (table : Table κ) (kernels : Array Kernel) (state : Nat) (item : Item) : Prop :=
  ∃ kernel, kernels[state]? = some kernel ∧ table.skeleton.Closure kernel item

theorem next?_rule {rule position : Nat} {entry : IndexedRule κ}
    (found : table.rules[rule]? = some entry) :
    table.skeleton.next? ⟨some rule, position⟩ = entry.slots[position]? :=
  Skeleton.next?_rule found

namespace Compiled

variable {kernels : Array Kernel} {state symbol rule target : Nat} {item : Item}
  {entry : IndexedRule κ} {found : State}

theorem known (compiled : table.Compiled kernels) (holds : table.Holds kernels state item)
    (isRule : item.rule = some rule) : rule < table.rules.size := by
  have sizes : table.skeleton.slots.size = table.rules.size := by simp [skeleton, Skeleton.ofRules]
  obtain ⟨kernel, found, closure⟩ := holds
  have isKernel := compiled.states.areKernels kernel
    (Array.mem_toList_iff.2 (Array.mem_of_getElem? found))
  cases closure with
  | kernel member => exact sizes ▸ isKernel.known item member rule isRule
  | beginning before next member =>
      obtain ⟨-, -, own, entry, sameRule, present, -⟩ := Skeleton.mem_beginnings.1 member
      rw [isRule] at sameRule
      cases sameRule
      exact (Array.getElem?_eq_some_iff.1 present).1

theorem described (compiled : table.Compiled kernels) (present : table.states[state]? = some found) :
    ∃ kernel, kernels[state]? = some kernel ∧
      table.skeleton.Describes kernels kernel found :=
  compiled.states.described state found present

theorem mem_reductions (compiled : table.Compiled kernels)
    (present : table.states[state]? = some found) : rule ∈ found.reductions ↔
      ∃ position, table.Holds kernels state ⟨some rule, position⟩ ∧
        table.skeleton.next? ⟨some rule, position⟩ = none := by
  obtain ⟨kernel, kernelFound, describes⟩ := compiled.described present
  refine (describes.reductions rule).trans ⟨?_, ?_⟩
  · intro given
    obtain ⟨⟨_, position⟩, closure, next, rfl⟩ := given
    exact ⟨position, ⟨kernel, kernelFound, closure⟩, next⟩
  · intro given
    obtain ⟨position, ⟨own, ownFound, closure⟩, next⟩ := given
    cases kernelFound.symm.trans ownFound
    exact ⟨_, closure, next, rfl⟩

theorem accepts_of_holds (compiled : table.Compiled kernels)
    (present : table.states[state]? = some found) (holds : table.Holds kernels state ⟨none, 1⟩) :
    found.accepts = true := by
  obtain ⟨kernel, kernelFound, describes⟩ := compiled.described present
  obtain ⟨own, ownFound, closure⟩ := holds
  cases kernelFound.symm.trans ownFound
  exact describes.accepts.2 ⟨_, closure, rfl, rfl⟩

theorem holds_initial (compiled : table.Compiled kernels) : table.Holds kernels 0 ⟨none, 0⟩ :=
  ⟨_, compiled.states.initial, .kernel (List.mem_singleton.2 rfl)⟩

/-- Where a symbol may come next, so may every rule on it. -/
theorem holds_beginning (compiled : table.Compiled kernels) (holds : table.Holds kernels state item)
    (next : table.skeleton.next? item = some symbol) (present : table.rules[rule]? = some entry)
    (onSymbol : entry.symbol = symbol) (slots : entry.slots ≠ []) :
    table.Holds kernels state ⟨some rule, 0⟩ := by
  obtain ⟨kernel, found, closure⟩ := holds
  refine ⟨kernel, found, .beginning closure next (Skeleton.mem_beginnings.2 ?_)⟩
  refine ⟨onSymbol ▸ compiled.symbol rule entry present, rfl, rule, entry, rfl, present, onSymbol,
    ?_⟩
  by_contra literal
  have arity := compiled.arity rule entry present
  rw [Bool.not_eq_false] at literal
  unfold Rule.isLiteral Production.isLiteral at literal
  unfold Rule.slots Production.slots at arity
  split at literal
  · rename_i text production
    rw [production] at arity
    exact slots (List.length_eq_zero_iff.1 arity)
  · cases literal

theorem lt_size_of_holds (compiled : table.Compiled kernels)
    (holds : table.Holds kernels state item) : state < table.states.size := by
  obtain ⟨kernel, found, -⟩ := holds
  exact compiled.states.size ▸ (Array.getElem?_eq_some_iff.1 found).1

/-- Where a symbol leads, as items: exactly the items of the state that are advanced over it. -/
theorem shift_kernel (compiled : table.Compiled kernels)
    (shifted : table.shift state symbol = .ok (some target)) :
    ∃ kernel next, kernels[state]? = some kernel ∧ kernels[target]? = some next ∧
      ∀ item, item ∈ next ↔ table.skeleton.Goto kernel symbol item := by
  obtain ⟨found, present, leads⟩ := shift_eq_ok_iff.1 shifted
  obtain ⟨kernel, kernelFound, describes⟩ := compiled.described present
  have member := (State.target?_eq_some_iff describes.ascending).1 leads
  obtain ⟨next, nextFound, -, goto⟩ := describes.shift symbol target member
  exact ⟨kernel, next, kernelFound, nextFound, goto⟩

theorem holds_advance (compiled : table.Compiled kernels) (holds : table.Holds kernels state item)
    (next : table.skeleton.next? item = some symbol) :
    ∃ target, table.shift state symbol = .ok (some target) ∧
      table.Holds kernels target item.advance := by
  have present := Array.getElem?_eq_getElem (compiled.lt_size_of_holds holds)
  obtain ⟨kernel, kernelFound, describes⟩ := compiled.described present
  obtain ⟨own, ownFound, closure⟩ := holds
  cases kernelFound.symm.trans ownFound
  have goto : table.skeleton.Goto kernel symbol item.advance := ⟨item, closure, next, rfl⟩
  obtain ⟨target, member⟩ := describes.goto symbol item.advance goto
  have leads := (State.target?_eq_some_iff describes.ascending).2 member
  obtain ⟨after, afterFound, -, items⟩ := describes.shift symbol target member
  exact ⟨target, shift_eq_ok_iff.2 ⟨_, present, leads⟩, after, afterFound,
    .kernel ((items item.advance).2 goto)⟩

theorem holds_before (compiled : table.Compiled kernels)
    (shifted : table.shift state symbol = .ok (some target)) {position : Nat} {itemRule : Option Nat}
    (holds : table.Holds kernels target ⟨itemRule, position + 1⟩) :
    table.Holds kernels state ⟨itemRule, position⟩ ∧
      table.skeleton.next? ⟨itemRule, position⟩ = some symbol := by
  obtain ⟨kernel, next, kernelFound, nextFound, goto⟩ := compiled.shift_kernel shifted
  obtain ⟨own, ownFound, closure⟩ := holds
  cases nextFound.symm.trans ownFound
  cases closure with
  | kernel member =>
      obtain ⟨⟨beforeRule, beforePosition⟩, before, leads, advanced⟩ := (goto _).1 member
      simp only [Item.advance, Item.mk.injEq, Nat.add_right_cancel_iff] at advanced
      obtain ⟨rfl, rfl⟩ := advanced
      exact ⟨⟨kernel, kernelFound, before⟩, leads⟩
  | beginning before leads member =>
      obtain ⟨-, first, -⟩ := Skeleton.mem_beginnings.1 member
      simp at first

theorem inRange (compiled : table.Compiled kernels) : table.InRange where
  start := compiled.start
  initial := compiled.lt_size_of_holds compiled.holds_initial
  symbol := compiled.symbol
  reduction id state present rule member := by
    obtain ⟨position, holds, -⟩ := (compiled.mem_reductions present).1 member
    exact compiled.known holds rfl
  target id state present symbol target leads := by
    obtain ⟨kernel, next, -, nextFound, -⟩ :=
      compiled.shift_kernel (shift_eq_ok_iff.2 ⟨state, present, leads⟩)
    exact compiled.states.size ▸ (Array.getElem?_eq_some_iff.1 nextFound).1
  literal literal rule member := by
    obtain ⟨entry, -, present, -⟩ := (compiled.literal literal rule).1 member
    exact (Array.getElem?_eq_some_iff.1 present).1

end Compiled

end Table

end QueryGrammar
