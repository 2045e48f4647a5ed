import Mathlib.Algebra.BigOperators.Group.Finset.Basic
import QueryGrammar.Proofs.Data.Halts
import QueryGrammar.Proofs.Data.Ordered
import QueryGrammar.Table.Automaton

namespace QueryGrammar

/-! The items of a state, as a relation: what its kernel closes to, and where it leads.

Main statement: the outline of a kernel lists the rules completed in its closure and, for every
symbol that may come next, the kernel of all items advanced over that symbol.
-/

open Std

theorem Item.orderOfRules_eq_compare (rule other : Option Nat) :
    orderOfRules rule other = compare rule other := by
  cases rule <;> cases other <;> rfl

theorem Item.order_eq_compareLex :
    Item.order = compareLex (compareOn Item.rule) (compareOn Item.position) := by
  funext item other
  simp only [Item.order, compareLex, compareOn, orderOfRules_eq_compare]

instance : TransCmp Item.order := by
  rw [Item.order_eq_compareLex]
  infer_instance

instance : LawfulEqCmp Item.order where
  eq_of_compare {item other} same := by
    simp only [Item.order, Item.orderOfRules_eq_compare, Ordering.then_eq_eq,
      Std.compare_eq_iff_eq] at same
    cases item
    cases other
    simp_all

namespace Automaton

variable {skeleton : Skeleton} {kernel : Kernel} {item : Item} {items : List Item}
  {closed : List Nat} {symbol fuel : Nat}

/-- The items of a kernel, and the beginnings of the rules on every symbol that may come next. -/
inductive Skeleton.Closure (skeleton : Skeleton) (kernel : Kernel) : Item → Prop
  | kernel {item : Item} : item ∈ kernel → skeleton.Closure kernel item
  | beginning {before item : Item} {symbol : Nat} : skeleton.Closure kernel before →
      skeleton.next? before = some symbol → item ∈ skeleton.beginnings symbol →
      skeleton.Closure kernel item

/-- The items to which a symbol advances those of a kernel's closure. -/
def Skeleton.Goto (skeleton : Skeleton) (kernel : Kernel) (symbol : Nat) (item : Item) : Prop :=
  ∃ before, skeleton.Closure kernel before ∧ skeleton.next? before = some symbol ∧
    before.advance = item

/-- The items in the order in which they are taken up. -/
def closureFrom (skeleton : Skeleton) : Nat → List Item → List Nat → List Item
  | 0, _, _ => []
  | _ + 1, [], _ => []
  | fuel + 1, item :: rest, closed =>
      item :: match skeleton.next? item with
        | none => closureFrom skeleton fuel rest closed
        | some symbol =>
            if closed.contains symbol then closureFrom skeleton fuel rest closed
            else closureFrom skeleton fuel (rest ++ skeleton.beginnings symbol) (symbol :: closed)

def Outline.take (skeleton : Skeleton) (outline : Outline) (item : Item) : Outline :=
  match skeleton.next? item with
  | some symbol => { outline with moves := addMove symbol item.advance outline.moves }
  | none =>
      match item.rule with
      | none => { outline with accepts := true }
      | some rule => { outline with reductions := outline.reductions ++ [rule] }

theorem gather_eq_foldl (outline : Outline) :
    gather skeleton fuel items closed outline =
      (closureFrom skeleton fuel items closed).foldl (Outline.take skeleton) outline := by
  induction fuel generalizing items closed outline with
  | zero => rfl
  | succ fuel ih =>
      cases items with
      | nil => rfl
      | cons item rest =>
          simp only [gather, closureFrom, List.foldl_cons, Outline.take]
          cases next : skeleton.next? item with
          | none =>
              cases item.rule <;> exact ih _
          | some symbol =>
              simp only [ih]
              split <;> rfl

theorem closureFrom_sound (sound : ∀ item ∈ items, skeleton.Closure kernel item) :
    ∀ item ∈ closureFrom skeleton fuel items closed, skeleton.Closure kernel item := by
  induction fuel generalizing items closed with
  | zero => simp [closureFrom]
  | succ fuel ih =>
      cases items with
      | nil => simp [closureFrom]
      | cons first rest =>
          have firstSound := sound first (by simp)
          have restSound : ∀ item ∈ rest, skeleton.Closure kernel item :=
            fun item member => sound item (by simp [member])
          intro item member
          rcases List.mem_cons.1 member with same | member
          · exact same ▸ firstSound
          · cases next : skeleton.next? first with
            | none =>
                simp only [next] at member
                exact ih restSound item member
            | some symbol =>
                simp only [next] at member
                split at member
                · exact ih restSound item member
                · refine ih (fun later found => ?_) item member
                  rcases List.mem_append.1 found with found | found
                  · exact restSound later found
                  · exact .beginning firstSound next found

/-! A symbol is opened at most once, so the rules on the symbols not opened yet bound the items
still to join. -/

def Skeleton.unopened (skeleton : Skeleton) (closed : List Nat) : Nat :=
  ∑ symbol ∈ (Finset.range skeleton.expansions.size).filter (· ∉ closed),
    (skeleton.beginnings symbol).length

theorem unopened_cons (skeleton : Skeleton) (fresh : symbol ∉ closed) :
    skeleton.unopened (symbol :: closed) + (skeleton.beginnings symbol).length =
      skeleton.unopened closed := by
  have others : (Finset.range skeleton.expansions.size).filter (· ∉ symbol :: closed) =
      ((Finset.range skeleton.expansions.size).filter (· ∉ closed)).erase symbol := by
    ext other
    simp only [Finset.mem_filter, Finset.mem_erase, List.mem_cons, not_or]
    tauto
  unfold Skeleton.unopened
  rw [others]
  by_cases inside : symbol < skeleton.expansions.size
  · refine Finset.sum_erase_add _ _ ?_
    simp [inside, fresh]
  · have absent : symbol ∉ (Finset.range skeleton.expansions.size).filter (· ∉ closed) := by
      simp [inside]
    have nothing : skeleton.beginnings symbol = [] := by
      simp [Skeleton.beginnings, Array.getElem?_eq_none (Nat.le_of_not_lt inside)]
    simp [Finset.erase_eq_of_notMem absent, nothing]

/-- With enough fuel nothing is left out: all items are taken up, and every symbol that may come
next was opened before or is opened now. -/
theorem closureFrom_complete (items : List Item) (closed : List Nat)
    (enough : items.length + skeleton.unopened closed ≤ fuel) :
    (∀ item ∈ items, item ∈ closureFrom skeleton fuel items closed) ∧
      ∀ item ∈ closureFrom skeleton fuel items closed, ∀ symbol,
        skeleton.next? item = some symbol → symbol ∈ closed ∨
          ∀ later ∈ skeleton.beginnings symbol,
            later ∈ closureFrom skeleton fuel items closed := by
  induction fuel generalizing items closed with
  | zero =>
      have empty : items = [] := List.eq_nil_of_length_eq_zero (by omega)
      simp [empty, closureFrom]
  | succ fuel ih =>
      cases items with
      | nil => simp [closureFrom]
      | cons first rest =>
          simp only [List.length_cons] at enough
          cases next : skeleton.next? first with
          | none =>
              obtain ⟨taken, opened⟩ := ih rest closed (by omega)
              simp only [closureFrom, next, List.mem_cons, forall_eq_or_imp, reduceCtorEq,
                false_implies, implies_true, true_or, true_and]
              refine ⟨fun item member => .inr (taken item member), ?_⟩
              intro item member symbol nextItem
              exact (opened item member symbol nextItem).imp_right
                fun all later found => .inr (all later found)
          | some symbol =>
              by_cases known : symbol ∈ closed
              · obtain ⟨taken, opened⟩ := ih rest closed (by omega)
                simp only [closureFrom, next, List.contains_iff_mem, known, if_true, List.mem_cons,
                  forall_eq_or_imp, Option.some.injEq, true_or, true_and]
                refine ⟨fun item member => .inr (taken item member), ?_, ?_⟩
                · intro _ given
                  subst given
                  exact .inl known
                · intro item member other nextItem
                  exact (opened item member other nextItem).imp_right
                    fun all later found => .inr (all later found)
              · have fewer := unopened_cons skeleton known
                obtain ⟨taken, opened⟩ := ih (rest ++ skeleton.beginnings symbol)
                  (symbol :: closed) (by simp only [List.length_append]; omega)
                simp only [closureFrom, next, List.contains_iff_mem, known, if_false, List.mem_cons,
                  forall_eq_or_imp, Option.some.injEq, true_or, true_and]
                have begun : ∀ later ∈ skeleton.beginnings symbol,
                    later ∈ closureFrom skeleton fuel (rest ++ skeleton.beginnings symbol)
                      (symbol :: closed) :=
                  fun later found => taken later (by simp [found])
                refine ⟨fun item member => .inr (taken item (by simp [member])), ?_, ?_⟩
                · intro _ given
                  subst given
                  exact .inr fun later found => .inr (begun later found)
                · intro item member other nextItem
                  rcases opened item member other nextItem with inClosed | all
                  · rcases List.mem_cons.1 inClosed with same | inClosed
                    · subst same
                      exact .inr fun later found => .inr (begun later found)
                    · exact .inl inClosed
                  · exact .inr fun later found => .inr (all later found)

/-- The rules of all symbols together are no more than there are rules. -/
def Skeleton.Bounded (skeleton : Skeleton) : Prop :=
  skeleton.unopened [] ≤ skeleton.slots.size

def Skeleton.closureOf (skeleton : Skeleton) (kernel : Kernel) : List Item :=
  closureFrom skeleton (kernel.length + skeleton.slots.size + 1) kernel []

theorem mem_closureOf (bounded : skeleton.Bounded) :
    item ∈ skeleton.closureOf kernel ↔ skeleton.Closure kernel item := by
  refine ⟨closureFrom_sound (fun item member => .kernel member) item, fun closure => ?_⟩
  have enough : kernel.length + skeleton.unopened [] ≤ kernel.length + skeleton.slots.size + 1 :=
    Nat.le_succ_of_le (Nat.add_le_add_left bounded _)
  obtain ⟨taken, opened⟩ := closureFrom_complete kernel [] enough
  induction closure with
  | kernel member => exact taken _ member
  | beginning _ next begun ih =>
      rcases opened _ ih _ next with impossible | all
      · cases impossible
      · exact all _ begun

/-- One turn of taking items up, with those that wait, the symbols that are closed, and the outline.
It ends where no item waits. -/
def gatherTurn (skeleton : Skeleton) : List Item × List Nat × Outline →
    (List Item × List Nat × Outline) ⊕ Outline
  | ([], _, outline) => .inr outline
  | (item :: rest, closed, outline) =>
      let taken := outline.take skeleton item
      match skeleton.next? item with
      | none => .inl (rest, closed, taken)
      | some symbol =>
          if closed.contains symbol then .inl (rest, closed, taken)
          else .inl (rest ++ skeleton.beginnings symbol, symbol :: closed, taken)

theorem outline_halts (bounded : skeleton.Bounded) (kernel : Kernel) :
    ∃ turns, Halts (gatherTurn skeleton) turns (kernel, [], .empty) (outline skeleton kernel) := by
  have enough : kernel.length + skeleton.unopened [] ≤ kernel.length + skeleton.slots.size + 1 :=
    Nat.le_succ_of_le (Nat.add_le_add_left bounded _)
  refine (halts_of_bounded (σ := List Item × List Nat × Outline)
    (fun fuel state => gather skeleton fuel state.1 state.2.1 state.2.2)
    (fun state => state.1.length + skeleton.unopened state.2.1) (fun state nothing => ?_)
    (fun fuel state => ?_) enough).imp fun turns ended => ended.2
  · obtain ⟨items, closed, outline⟩ := state
    have idle : items = [] := List.length_eq_zero_iff.1 (Nat.eq_zero_of_add_eq_zero_right nothing)
    subst idle
    rfl
  · obtain ⟨items | ⟨item, rest⟩, closed, outline⟩ := state
    · exact .inl rfl
    right
    simp only [gatherTurn, gather, Outline.take]
    cases next : skeleton.next? item with
    | none => cases item.rule <;> exact ⟨_, rfl, by simp, rfl⟩
    | some symbol =>
        simp only
        split
        · exact ⟨_, rfl, by simp, rfl⟩
        · rename_i new
          have fewer := unopened_cons skeleton (mt List.contains_iff_mem.2 new)
          refine ⟨_, rfl, ?_, rfl⟩
          simp only [List.length_append, List.length_cons]
          omega

theorem outline_eq_foldl :
    outline skeleton kernel =
      (skeleton.closureOf kernel).foldl (Outline.take skeleton) .empty :=
  gather_eq_foldl _

end Automaton

end QueryGrammar
