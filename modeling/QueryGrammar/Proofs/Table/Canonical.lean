import Mathlib.Data.Set.Function
import QueryGrammar.Proofs.Table.Recognition
import QueryGrammar.Proofs.Table.Rules

namespace QueryGrammar

/-! The canonical collection of item sets of a grammar, and the automaton compiled for it.

The items are the positions in the rules on symbols, which are known by their numbers among all
rules, and in the rule `none`, which has the start symbol on its right.

Main statement: the states of a table are the item sets that can be reached from the beginning of
the whole input, one for each; they shift, reduce and accept as those sets say.
-/

open Automaton

variable {κ : Type}

namespace Grammar

def symbolsOf (grammar : Grammar κ) : Option Nat → List String
  | none => [grammar.start]
  | some rule =>
      match grammar.allRules[rule]? with
      | some (_, rule) => rule.slots.map Slot.symbol
      | none => []

def symbolAfter (grammar : Grammar κ) (item : Item) : Option String :=
  (grammar.symbolsOf item.rule)[item.position]?

/-- The item is the beginning of a rule on symbols that `symbol` has. -/
def Begins (grammar : Grammar κ) (symbol : String) (item : Item) : Prop :=
  ∃ number rule, item = ⟨some number, 0⟩ ∧ grammar.allRules[number]? = some (symbol, rule) ∧
    rule.isLiteral = false

inductive Closure (grammar : Grammar κ) (items : Set Item) : Set Item
  | given {item : Item} : item ∈ items → Closure grammar items item
  | begins {before item : Item} {symbol : String} : Closure grammar items before →
      grammar.symbolAfter before = some symbol → grammar.Begins symbol item →
      Closure grammar items item

def advanced (grammar : Grammar κ) (items : Set Item) (symbol : String) : Set Item :=
  { item | ∃ before ∈ items, grammar.symbolAfter before = some symbol ∧ before.advance = item }

def goto (grammar : Grammar κ) (items : Set Item) (symbol : String) : Set Item :=
  grammar.Closure (grammar.advanced items symbol)

def initialItems (grammar : Grammar κ) : Set Item :=
  grammar.Closure {⟨none, 0⟩}

/-- The canonical collection: the nonempty item sets that shifts lead to from the initial one. -/
inductive Canonical (grammar : Grammar κ) : Set Item → Prop
  | initial : Canonical grammar grammar.initialItems
  | goto {items : Set Item} {symbol : String} : Canonical grammar items →
      (grammar.goto items symbol).Nonempty → Canonical grammar (grammar.goto items symbol)

theorem goto_nonempty_iff {grammar : Grammar κ} {items : Set Item} {symbol : String} :
    (grammar.goto items symbol).Nonempty ↔ (grammar.advanced items symbol).Nonempty := by
  constructor
  · intro given
    obtain ⟨item, closure⟩ := given
    induction closure with
    | given member => exact ⟨_, member⟩
    | begins _ _ _ ih => exact ih
  · intro given
    obtain ⟨item, member⟩ := given
    exact ⟨item, .given member⟩

end Grammar

namespace Table

variable {grammar : Grammar κ} {table : Table κ} {kernels : Array Kernel} {kernel target : Kernel}
  {item : Item} {symbol : String} {number state first second : Nat}

section

variable (built : build grammar = .ok table)
include built

theorem symbols_inj (one : table.symbols[first]? = some symbol)
    (other : table.symbols[second]? = some symbol) : first = second := by
  have distinct := grammar.rules.nodup_keys
  rw [(symbols_of_build built).1, List.getElem?_toArray] at one other
  exact (List.getElem?_inj (List.getElem?_eq_some_iff.1 one).1 distinct).1 (one.trans other.symm)

/-- The symbols in an item have the same names in the table and in the grammar. -/
theorem named_slotsOf (item : Item) :
    (table.skeleton.slotsOf item).map (table.symbols[·]?) =
      (grammar.symbolsOf item.rule).map some := by
  obtain ⟨-, start, size⟩ := symbols_of_build built
  cases isRule : item.rule with
  | none => simpa [Skeleton.slotsOf, isRule, Grammar.symbolsOf, skeleton, Skeleton.ofRules] using start
  | some rule =>
      cases known : table.rules[rule]? with
      | none =>
          have beyond : grammar.allRules[rule]? = none :=
            List.getElem?_eq_none (size ▸ Array.getElem?_eq_none_iff.1 known)
          simp [Skeleton.slotsOf, skeleton, Skeleton.ofRules, isRule, known, Grammar.symbolsOf,
            beyond]
      | some entry =>
          obtain ⟨name, position, -, spelled⟩ := entry_of_build built known
          simpa [Skeleton.slotsOf, skeleton, Skeleton.ofRules, isRule, known, Grammar.symbolsOf,
            position, Function.comp_def] using spelled

theorem next?_eq_none_iff : table.skeleton.next? item = none ↔ grammar.symbolAfter item = none := by
  have lengths := congrArg List.length (named_slotsOf built item)
  simp only [List.length_map] at lengths
  simp only [Skeleton.next?, Grammar.symbolAfter, List.getElem?_eq_none_iff, lengths]

theorem next?_eq_some_iff : table.skeleton.next? item = some number ↔
    ∃ symbol, grammar.symbolAfter item = some symbol ∧ table.symbols[number]? = some symbol := by
  have spelled := congrArg (·[item.position]?) (named_slotsOf built item)
  simp only [List.getElem?_map] at spelled
  unfold Skeleton.next? Grammar.symbolAfter
  cases next : (table.skeleton.slotsOf item)[item.position]? with
  | none =>
      cases after : (grammar.symbolsOf item.rule)[item.position]? with
      | none => simp
      | some symbol => simp [next, after] at spelled
  | some other =>
      cases after : (grammar.symbolsOf item.rule)[item.position]? with
      | none => simp [next, after] at spelled
      | some symbol =>
          have named : table.symbols[other]? = some symbol := by simpa [next, after] using spelled
          simp only [Option.some.injEq, exists_eq_left']
          constructor
          · intro same
            exact same ▸ named
          · exact symbols_inj built named

theorem exists_next (after : grammar.symbolAfter item = some symbol) :
    ∃ number, table.skeleton.next? item = some number ∧ table.symbols[number]? = some symbol := by
  cases next : table.skeleton.next? item with
  | none => simp [(next?_eq_none_iff built).1 next] at after
  | some number =>
      obtain ⟨other, same, named⟩ := (next?_eq_some_iff built).1 next
      cases after.symm.trans same
      exact ⟨number, rfl, named⟩

theorem mem_beginnings_iff (named : table.symbols[number]? = some symbol) :
    item ∈ table.skeleton.beginnings number ↔ grammar.Begins symbol item := by
  rw [skeleton, Skeleton.mem_beginnings]
  constructor
  · intro given
    obtain ⟨-, first, rule, entry, isRule, known, rfl, onSymbols⟩ := given
    obtain ⟨name, position, own, -⟩ := entry_of_build built known
    cases named.symm.trans own
    refine ⟨rule, entry.rule, ?_, position, onSymbols⟩
    cases item
    simp_all
  · intro given
    obtain ⟨rule, own, rfl, position, onSymbols⟩ := given
    have inside : rule < table.rules.size :=
      (symbols_of_build built).2.2 ▸ (List.getElem?_eq_some_iff.1 position).1
    have known := Array.getElem?_eq_getElem inside
    obtain ⟨name, positionAlso, entryNamed, -⟩ := entry_of_build built known
    cases position.symm.trans positionAlso
    exact ⟨(Array.getElem?_eq_some_iff.1 named).1, rfl, rule, _, rfl, known,
      symbols_inj built entryNamed named, onSymbols⟩

theorem closure_iff :
    table.skeleton.Closure kernel item ↔ item ∈ grammar.Closure { item | item ∈ kernel } := by
  constructor
  · intro closure
    induction closure with
    | kernel member => exact .given member
    | beginning _ next begun ih =>
        obtain ⟨symbol, after, named⟩ := (next?_eq_some_iff built).1 next
        exact .begins ih after ((mem_beginnings_iff built named).1 begun)
  · intro closure
    induction closure with
    | given member => exact .kernel member
    | begins _ after begins ih =>
        obtain ⟨number, next, named⟩ := exists_next built after
        exact .beginning ih next ((mem_beginnings_iff built named).2 begins)

theorem goto_iff (named : table.symbols[number]? = some symbol) :
    table.skeleton.Goto kernel number item ↔
      item ∈ grammar.advanced (grammar.Closure { item | item ∈ kernel }) symbol := by
  constructor
  · intro given
    obtain ⟨before, closure, next, same⟩ := given
    obtain ⟨other, after, also⟩ := (next?_eq_some_iff built).1 next
    cases named.symm.trans also
    exact ⟨before, (closure_iff built).1 closure, after, same⟩
  · intro given
    obtain ⟨before, closure, after, same⟩ := given
    obtain ⟨other, next, also⟩ := exists_next built after
    cases symbols_inj built named also
    exact ⟨before, (closure_iff built).2 closure, next, same⟩

/-- The items of a state that another leads to, as the textbook has them. -/
theorem closure_of_goto (named : table.symbols[number]? = some symbol)
    (goto : ∀ item, item ∈ target ↔ table.skeleton.Goto kernel number item) :
    grammar.Closure { item | item ∈ target } =
      grammar.goto (grammar.Closure { item | item ∈ kernel }) symbol := by
  have same : { item | item ∈ target } =
      grammar.advanced (grammar.Closure { item | item ∈ kernel }) symbol :=
    Set.ext fun item => (goto item).trans (goto_iff built named)
  rw [same, Grammar.goto]

theorem canonical_of_reached (reached : table.skeleton.Reached kernel) :
    grammar.Canonical (grammar.Closure { item | item ∈ kernel }) := by
  induction reached with
  | initial =>
      have same : { item | item ∈ [(⟨none, 0⟩ : Item)] } = {⟨none, 0⟩} := by simp
      rw [same]
      exact .initial
  | @goto kernel target number _ nonempty goto ih =>
      obtain ⟨item, rest, rfl⟩ := List.exists_cons_of_ne_nil nonempty
      obtain ⟨before, closure, next, same⟩ := (goto item).1 (List.mem_cons_self ..)
      obtain ⟨symbol, after, named⟩ := (next?_eq_some_iff built).1 next
      have equal := closure_of_goto built named goto
      rw [equal]
      exact .goto ih (equal ▸ ⟨item, .given (List.mem_cons_self ..)⟩)

end

/-- Closing a kernel only adds beginnings of rules, so that the kernel can be told from the rest. -/
theorem mem_kernel_iff (reached : table.skeleton.Reached kernel) :
    item ∈ kernel ↔ item ∈ grammar.Closure { item | item ∈ kernel } ∧
      (item.position ≠ 0 ∨ item.rule = none) := by
  constructor
  · intro member
    refine ⟨.given member, ?_⟩
    cases reached with
    | initial => exact .inr (by rw [List.mem_singleton.1 member])
    | goto _ _ goto =>
        obtain ⟨before, -, -, rfl⟩ := (goto item).1 member
        exact .inl (Nat.succ_ne_zero _)
  · intro given
    obtain ⟨closure, inner⟩ := given
    cases closure with
    | given member => exact member
    | begins _ _ begins =>
        obtain ⟨number, rule, rfl, -⟩ := begins
        simp at inner

def itemsOf (grammar : Grammar κ) (kernels : Array Kernel) (state : Nat) : Set Item :=
  grammar.Closure { item | item ∈ kernels.getD state [] }

theorem itemsOf_eq (found : kernels[state]? = some kernel) :
    itemsOf grammar kernels state = grammar.Closure { item | item ∈ kernel } := by
  rw [itemsOf, Array.getD_eq_getD_getElem?, found, Option.getD_some]

theorem mem_itemsOf (built : build grammar = .ok table) (known : kernels[state]? = some kernel) :
    item ∈ itemsOf grammar kernels state ↔ table.skeleton.Closure kernel item := by
  rw [itemsOf_eq known, closure_iff built]

section

variable (built : build grammar = .ok table)
  (collection : table.skeleton.Collection table.states kernels)
include collection

theorem exists_kernel (grammar : Grammar κ) (inside : state < table.states.size) :
    ∃ kernel, kernels[state]? = some kernel ∧ table.skeleton.IsKernel kernel ∧
      table.skeleton.Reached kernel ∧ itemsOf grammar kernels state =
        grammar.Closure { item | item ∈ kernel } := by
  have found := Array.getElem?_eq_getElem (collection.size ▸ inside)
  have member := Array.mem_toList_iff.2 (Array.mem_of_getElem? found)
  exact ⟨_, found, collection.areKernels _ member, collection.reached _ member, itemsOf_eq found⟩

theorem itemsOf_inj (one : first < table.states.size) (other : second < table.states.size)
    (same : itemsOf grammar kernels first = itemsOf grammar kernels second) : first = second := by
  obtain ⟨kernel, found, isKernel, reached, items⟩ := exists_kernel collection grammar one
  obtain ⟨also, foundAlso, isAlso, reachedAlso, itemsAlso⟩ := exists_kernel collection grammar other
  have closures : grammar.Closure { item | item ∈ kernel } = grammar.Closure { item | item ∈ also } :=
    items.symm.trans (same.trans itemsAlso)
  have equal : kernel = also := isKernel.ascending.ext isAlso.ascending fun item => by
    rw [mem_kernel_iff reached, closures, ← mem_kernel_iff reachedAlso]
  subst equal
  rw [← Array.getElem?_toList] at found foundAlso
  exact (List.getElem?_inj (List.getElem?_eq_some_iff.1 found).1 collection.unique).1
    (found.trans foundAlso.symm)

include built

theorem shift_items {found : State} (present : table.states[state]? = some found)
    {target : Nat} : found.target? number = some target ↔
      ∃ symbol, table.symbols[number]? = some symbol ∧
        (grammar.goto (itemsOf grammar kernels state) symbol).Nonempty ∧
        target < table.states.size ∧
        itemsOf grammar kernels target =
          grammar.goto (itemsOf grammar kernels state) symbol := by
  obtain ⟨kernel, known, describes⟩ := collection.described state found present
  rw [itemsOf_eq known, State.target?_eq_some_iff describes.ascending]
  -- Every entry leads to the state that it should; that there is one is what `goto` says.
  have leads : ∀ target, (number, target) ∈ found.shifts.toList → ∃ symbol,
      table.symbols[number]? = some symbol ∧
      (grammar.goto (grammar.Closure { item | item ∈ kernel }) symbol).Nonempty ∧
      target < table.states.size ∧ itemsOf grammar kernels target =
        grammar.goto (grammar.Closure { item | item ∈ kernel }) symbol := by
    intro target entry
    obtain ⟨next, nextFound, nonempty, goto⟩ := describes.shift number target entry
    obtain ⟨item, rest, rfl⟩ := List.exists_cons_of_ne_nil nonempty
    obtain ⟨before, closure, after, same⟩ := (goto item).1 (List.mem_cons_self ..)
    obtain ⟨symbol, -, named⟩ := (next?_eq_some_iff built).1 after
    have items := closure_of_goto built named goto
    refine ⟨symbol, named, items ▸ ⟨item, .given (List.mem_cons_self ..)⟩, ?_, ?_⟩
    · exact collection.size ▸ (Array.getElem?_eq_some_iff.1 nextFound).1
    · exact (itemsOf_eq nextFound).trans items
  constructor
  · exact leads target
  · intro given
    obtain ⟨symbol, named, nonempty, inside, items⟩ := given
    obtain ⟨item, member⟩ := Grammar.goto_nonempty_iff.1 nonempty
    obtain ⟨other, entry⟩ := describes.goto number item ((goto_iff built named).2 member)
    obtain ⟨also, namedAlso, -, otherInside, otherItems⟩ := leads other entry
    cases named.symm.trans namedAlso
    have same := itemsOf_inj collection inside otherInside (items.trans otherItems.symm)
    exact same ▸ entry

theorem exists_state {items : Set Item} (canonical : grammar.Canonical items) :
    ∃ state < table.states.size, itemsOf grammar kernels state = items := by
  induction canonical with
  | initial =>
      refine ⟨0, collection.size ▸ (Array.getElem?_eq_some_iff.1 collection.initial).1, ?_⟩
      rw [itemsOf_eq collection.initial, Grammar.initialItems]
      simp
  | @goto items symbol _ nonempty ih =>
      obtain ⟨state, inside, rfl⟩ := ih
      have present := Array.getElem?_eq_getElem inside
      obtain ⟨kernel, known, describes⟩ := collection.described state _ present
      obtain ⟨item, before, closure, after, same⟩ := Grammar.goto_nonempty_iff.1 nonempty
      obtain ⟨number, -, named⟩ := exists_next built after
      have advanced : table.skeleton.Goto kernel number item :=
        (goto_iff built named).2 ⟨before, itemsOf_eq known ▸ closure, after, same⟩
      obtain ⟨target, entry⟩ := describes.goto number item advanced
      have leads := (State.target?_eq_some_iff describes.ascending).2 entry
      obtain ⟨also, namedAlso, -, targetInside, items⟩ :=
        (shift_items built collection present).1 leads
      cases named.symm.trans namedAlso
      exact ⟨target, targetInside, items⟩

/-- In an item without a symbol left, all symbols have been recognized, and no more. -/
theorem position_of_complete (inside : state < table.states.size)
    (member : item ∈ itemsOf grammar kernels state) (complete : table.skeleton.next? item = none) :
    item.position = (grammar.symbolsOf item.rule).length := by
  obtain ⟨kernel, known, isKernel, -, -⟩ := exists_kernel collection grammar inside
  have lengths := congrArg List.length (named_slotsOf built item)
  simp only [List.length_map] at lengths
  have atLeast : (table.skeleton.slotsOf item).length ≤ item.position :=
    List.getElem?_eq_none_iff.1 complete
  have atMost : item.position ≤ (table.skeleton.slotsOf item).length := by
    cases (mem_itemsOf built known).1 member with
    | kernel own => exact isKernel.within item own
    | beginning _ _ begun =>
        rw [(Skeleton.mem_beginnings.1 begun).2.1]
        exact Nat.zero_le _
  omega

theorem mem_reductions_iff {found : State} {rule : Nat}
    (present : table.states[state]? = some found) : rule ∈ found.reductions ↔
      ⟨some rule, (grammar.symbolsOf (some rule)).length⟩ ∈ itemsOf grammar kernels state := by
  obtain ⟨kernel, known, describes⟩ := collection.described state found present
  have inside := (Array.getElem?_eq_some_iff.1 present).1
  rw [describes.reductions rule]
  constructor
  · intro given
    obtain ⟨⟨_, position⟩, closure, complete, rfl⟩ := given
    have member : _ ∈ itemsOf grammar kernels state := (mem_itemsOf built known).2 closure
    rwa [← position_of_complete built collection inside member complete]
  · intro member
    refine ⟨_, (mem_itemsOf built known).1 member, (next?_eq_none_iff built).2 ?_, rfl⟩
    exact List.getElem?_eq_none_iff.2 (Nat.le_refl _)

theorem accepts_iff {found : State} (present : table.states[state]? = some found) :
    found.accepts = true ↔ ⟨none, 1⟩ ∈ itemsOf grammar kernels state := by
  obtain ⟨kernel, known, describes⟩ := collection.described state found present
  have inside := (Array.getElem?_eq_some_iff.1 present).1
  rw [describes.accepts]
  constructor
  · intro given
    obtain ⟨⟨_, position⟩, closure, complete, rfl⟩ := given
    have member : _ ∈ itemsOf grammar kernels state := (mem_itemsOf built known).2 closure
    obtain rfl : position = 1 := position_of_complete built collection inside member complete
    exact member
  · intro member
    exact ⟨_, (mem_itemsOf built known).1 member, rfl, rfl⟩

end

/-- The automaton compiled for a grammar is its canonical collection of item sets. Making its states
goes from kernel to kernel, and closing a kernel from item to item, until none waits. -/
theorem build_canonical (built : build grammar = .ok table) :
    table.symbols = grammar.rules.keys.toArray ∧
    (∃ turns, Halts (growTurn table.skeleton) turns (#[], #[[⟨none, 0⟩]]) table.states) ∧
    (∀ kernel, ∃ turns, Halts (gatherTurn table.skeleton) turns (kernel, [], .empty)
      (outline table.skeleton kernel)) ∧
    ∃ itemsOf : Nat → Set Item,
      Set.BijOn itemsOf { state | state < table.states.size } { items | grammar.Canonical items } ∧
      0 < table.states.size ∧ itemsOf 0 = grammar.initialItems ∧
      ∀ (id : Nat) state, table.states[id]? = some state →
        (∀ number, ∃ found, table.shift id number = .ok found ∧ ∀ target, found = some target ↔
          ∃ symbol, table.symbols[number]? = some symbol ∧
            (grammar.goto (itemsOf id) symbol).Nonempty ∧ target < table.states.size ∧
            itemsOf target = grammar.goto (itemsOf id) symbol) ∧
        state.reductions.Pairwise (· < ·) ∧
        (∀ rule, rule ∈ state.reductions ↔
          ⟨some rule, (grammar.symbolsOf (some rule)).length⟩ ∈ itemsOf id) ∧
        (state.accepts = true ↔ ⟨none, 1⟩ ∈ itemsOf id) := by
  obtain ⟨kernels, compiled⟩ := build_compiled built
  have collection := compiled.states
  have bounded : table.skeleton.Bounded := Skeleton.ofRules_bounded ..
  refine ⟨(symbols_of_build built).1, states_of_build built ▸ states_halts bounded,
    outline_halts bounded, itemsOf grammar kernels, ⟨?_, ?_, ?_⟩, ?_, ?_, ?_⟩
  · intro state inside
    obtain ⟨kernel, -, -, reached, items⟩ := exists_kernel collection grammar inside
    exact items ▸ canonical_of_reached built reached
  · intro first one second other same
    exact itemsOf_inj collection one other same
  · intro items canonical
    exact exists_state built collection canonical
  · exact collection.size ▸ (Array.getElem?_eq_some_iff.1 collection.initial).1
  · rw [itemsOf_eq collection.initial, Grammar.initialItems]
    simp
  · intro id state present
    obtain ⟨kernel, -, describes⟩ := collection.described id state present
    refine ⟨fun number => ?_, describes.sorted, fun rule => mem_reductions_iff built collection present,
      accepts_iff built collection present⟩
    exact ⟨_, shift_eq_ok_iff.2 ⟨state, present, rfl⟩, fun target =>
      shift_items built collection present⟩

end Table

/-- One symbol that starts with itself, and one for single words. -/
def Grammar.phrases : Grammar Amount where
  start := "P"
  rules := .ofList [("P", [.symbols ["P", "W"], .symbols ["W"]]), ("W", [.literal "w"])]
  concepts := {}

set_option maxRecDepth 100000 in
theorem Table.build_canonical_phrases : ∃ table, build Grammar.phrases = .ok table ∧
    table.states.size = 4 ∧ table.symbols = Grammar.phrases.rules.keys.toArray ∧
    (∃ turns, Halts (growTurn table.skeleton) turns (#[], #[[⟨none, 0⟩]]) table.states) ∧
    (∀ kernel, ∃ turns, Halts (gatherTurn table.skeleton) turns (kernel, [], .empty)
      (outline table.skeleton kernel)) ∧
    ∃ itemsOf : Nat → Set Item,
      Set.BijOn itemsOf { state | state < table.states.size }
        { items | Grammar.phrases.Canonical items } ∧
      0 < table.states.size ∧ itemsOf 0 = Grammar.phrases.initialItems ∧
      ∀ (id : Nat) state, table.states[id]? = some state →
        (∀ number, ∃ found, table.shift id number = .ok found ∧ ∀ target, found = some target ↔
          ∃ symbol, table.symbols[number]? = some symbol ∧
            (Grammar.phrases.goto (itemsOf id) symbol).Nonempty ∧ target < table.states.size ∧
            itemsOf target = Grammar.phrases.goto (itemsOf id) symbol) ∧
        state.reductions.Pairwise (· < ·) ∧
        (∀ rule, rule ∈ state.reductions ↔
          ⟨some rule, (Grammar.phrases.symbolsOf (some rule)).length⟩ ∈ itemsOf id) ∧
        (state.accepts = true ↔ ⟨none, 1⟩ ∈ itemsOf id) := by
  have compiles : ((build Grammar.phrases).toOption.any fun table =>
      decide (table.states.size = 4)) = true := by
    decide +kernel
  obtain ⟨table, built, size⟩ := exists_ok_of_any compiles
  exact ⟨table, built, of_decide_eq_true size, build_canonical built⟩

end QueryGrammar
