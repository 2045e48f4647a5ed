import Mathlib.Data.Finset.Card
import Mathlib.Data.Set.Finite.Lattice
import Mathlib.Data.Finite.Prod
import Mathlib.Logic.Relation
import QueryGrammar.Proofs.Forest.Spelling

namespace QueryGrammar

/-! Forests without cycles.

Main statement: where no symbol derives itself through rules on single symbols, the children of a
node rank below it, so there are finitely many trees.
-/

/-- Numbers below a bound that fall along every edge of a graph without cycles: how many vertices
can be reached. -/
theorem exists_rank {bound : Nat} {edge : Nat → Nat → Prop}
    (inside : ∀ first second, edge first second → second < bound)
    (acyclic : ∀ vertex, ¬ Relation.TransGen edge vertex vertex) :
    ∃ rank : Nat → Nat, (∀ vertex, rank vertex ≤ bound) ∧
      ∀ first second, edge first second → rank second < rank first := by
  classical
  refine ⟨fun vertex => ((Finset.range bound).filter (Relation.TransGen edge vertex)).card,
    fun vertex => ?_, fun first second related => Finset.card_lt_card ?_⟩
  · exact (Finset.card_filter_le _ _).trans_eq (Finset.card_range bound)
  · refine Finset.ssubset_iff_of_subset (fun vertex member => ?_) |>.2 ⟨second, ?_, ?_⟩
    · obtain ⟨below, reached⟩ := Finset.mem_filter.1 member
      exact Finset.mem_filter.2 ⟨below, .head related reached⟩
    · exact Finset.mem_filter.2 ⟨Finset.mem_range.2 (inside _ _ related), .single related⟩
    · exact fun member => acyclic second (Finset.mem_filter.1 member).2

namespace Table

variable {κ : Type}

/-- A rule leads from its symbol to the only symbol on its right. -/
def UnaryStep (table : Table κ) (symbol other : Nat) : Prop :=
  ∃ (rule : Nat) (entry : IndexedRule κ), table.rules[rule]? = some entry ∧
    entry.symbol = symbol ∧ entry.slots = [other]

def HasNoUnaryCycle (table : Table κ) : Prop :=
  ∀ symbol, ¬ Relation.TransGen table.UnaryStep symbol symbol

theorem hasNoUnaryCycle_of_slots {table : Table κ}
    (several : ∀ entry ∈ table.rules, entry.slots.length ≠ 1) : table.HasNoUnaryCycle := by
  intro symbol cycle
  have noStep : ∀ first second, ¬ table.UnaryStep first second := by
    intro first second ⟨rule, entry, known, _, slots⟩
    exact several entry (Array.mem_of_getElem? known) (by simp [slots])
  cases cycle with
  | single step => exact noStep _ _ step
  | tail _ step => exact noStep _ _ step

end Table

namespace Forest

variable {κ : Type} {table : Table κ} {lattice : Lattice} {forest : Forest}
  {parent child id symbol start stop : Nat}

def Child (forest : Forest) (parent child : Nat) : Prop :=
  ∃ rule children, forest.Has parent (.branch rule children) ∧ child ∈ children

theorem child_of_has {alternative : Alternative} (has : forest.Has parent alternative)
    (member : child ∈ alternative.children) : forest.Child parent child := by
  cases alternative with
  | terminal rule index => cases member
  | branch rule children => exact ⟨rule, children, has, member⟩

/-- Below a node the stretches are shorter, or they are the same and a rule on a single symbol
leads there. -/
def Below (table : Table κ) (forest : Forest) (parent child : Nat) : Prop :=
  ∃ symbol start stop symbol' start' stop', forest.Is parent symbol start stop ∧
    forest.Is child symbol' start' stop' ∧ (stop' - start' < stop - start ∨
      start' = start ∧ stop' = stop ∧ Relation.TransGen table.UnaryStep symbol symbol')

theorem Presents.below_of_child (presents : forest.Presents table lattice)
    (related : forest.Child parent child) : Below table forest parent child := by
  obtain ⟨rule, children, has, member⟩ := related
  obtain ⟨entry, start, stop, known, is, covers⟩ := presents.branch _ _ _ has
  generalize slots : entry.slots = symbols at covers
  cases covers with
  | single own =>
      rw [List.mem_singleton.1 member]
      exact ⟨_, _, _, _, _, _, is, own, .inr ⟨rfl, rfl, .single ⟨rule, entry, known, rfl, slots⟩⟩⟩
  | pair left right =>
      have leftSpan := (presents.node _ _ _ _ left).2.1
      have rightSpan := (presents.node _ _ _ _ right).2.1
      rcases List.mem_cons.1 member with rfl | member
      · exact ⟨_, _, _, _, _, _, is, left, .inl (by omega)⟩
      · rw [List.mem_singleton.1 member]
        exact ⟨_, _, _, _, _, _, is, right, .inl (by omega)⟩

theorem Below.trans {middle : Nat} (first : Below table forest parent middle)
    (second : Below table forest middle child) : Below table forest parent child := by
  obtain ⟨symbol, start, stop, between, start', stop', is, isMiddle, above⟩ := first
  obtain ⟨_, _, _, symbol', _, _, isAgain, isChild, below⟩ := second
  obtain ⟨rfl, rfl, rfl⟩ := isMiddle.same isAgain
  refine ⟨_, _, _, _, _, _, is, isChild, ?_⟩
  rcases above with shorter | ⟨rfl, rfl, derives⟩ <;> rcases below with less | ⟨rfl, rfl, also⟩
  · exact .inl (Nat.lt_trans less shorter)
  · exact .inl shorter
  · exact .inl less
  · exact .inr ⟨rfl, rfl, derives.trans also⟩

theorem Presents.acyclic (presents : forest.Presents table lattice)
    (noCycle : table.HasNoUnaryCycle) (id : Nat) : ¬ Relation.TransGen forest.Child id id := by
  have below : ∀ {parent child}, Relation.TransGen forest.Child parent child →
      Below table forest parent child := by
    intro parent child path
    induction path with
    | single related => exact presents.below_of_child related
    | tail _ related ih => exact ih.trans (presents.below_of_child related)
  intro cycle
  obtain ⟨symbol, start, stop, symbol', start', stop', is, again, shrinks⟩ := below cycle
  obtain ⟨rfl, rfl, rfl⟩ := is.same again
  rcases shrinks with less | ⟨-, -, derives⟩
  · exact Nat.lt_irrefl _ less
  · exact noCycle symbol derives

theorem Presents.child_inside (presents : forest.Presents table lattice)
    (related : forest.Child parent child) : child < forest.nodes.size := by
  obtain ⟨_, _, _, _, _, _, -, is, -⟩ := presents.below_of_child related
  exact is.lt_size

theorem Presents.exists_rank (presents : forest.Presents table lattice)
    (noCycle : table.HasNoUnaryCycle) : ∃ rank : Nat → Nat,
      (∀ id, rank id ≤ forest.nodes.size) ∧
        ∀ parent child, forest.Child parent child → rank child < rank parent :=
  QueryGrammar.exists_rank (fun _ _ => presents.child_inside) (presents.acyclic noCycle)

/-- All choices that spell trees for nodes in order. -/
def readings (forest : Forest) (nodes : List Nat) : Set (List Choice) :=
  { choices | ∃ trees, forest.Spells nodes choices trees }

theorem readings_cons_subset {rest : List Nat} : forest.readings (id :: rest) ⊆
    Set.image2 (· ++ ·) (forest.readings [id]) (forest.readings rest) := by
  intro choices given
  obtain ⟨trees, spells⟩ := given
  have joined : forest.Spells ([id] ++ rest) choices trees := spells
  obtain ⟨first, second, left, right, rfl, rfl, before, after⟩ := joined.split
  exact ⟨first, ⟨left, before⟩, second, ⟨right, after⟩, rfl⟩

theorem finite_readings {rank : Nat → Nat}
    (falls : ∀ parent child, forest.Child parent child → rank child < rank parent)
    (nodes : List Nat) : (forest.readings nodes).Finite := by
  have several : ∀ nodes : List Nat, (∀ id ∈ nodes, (forest.readings [id]).Finite) →
      (forest.readings nodes).Finite := by
    intro nodes each
    induction nodes with
    | nil =>
        refine (Set.finite_singleton []).subset fun choices ⟨trees, spells⟩ => ?_
        cases spells
        rfl
    | cons id rest ih =>
        have first := each id (List.mem_cons_self ..)
        have others := ih fun id member => each id (List.mem_cons_of_mem _ member)
        exact (first.image2 _ others).subset readings_cons_subset
  have one : ∀ bound id, rank id < bound → (forest.readings [id]).Finite := by
    intro bound
    induction bound with
    | zero => exact fun id below => absurd below (Nat.not_lt_zero _)
    | succ bound ih =>
        intro id below
        cases found : forest.nodes[id]? with
        | none =>
            refine Set.finite_empty.subset fun choices ⟨trees, spells⟩ => ?_
            obtain ⟨node, _, _, _, _, present, -⟩ := spells_one.1 spells
            cases found.symm.trans present
        | some node =>
            have inner : ∀ index : Fin node.alternatives.length,
                (forest.readings node.alternatives[index].children).Finite := by
              intro index
              refine several _ fun child member => ih child ?_
              have has := has_of_getElem? found (List.getElem?_eq_getElem index.2)
              exact Nat.lt_of_lt_of_le (falls id child (child_of_has has member))
                (Nat.le_of_lt_succ below)
            refine (Set.finite_iUnion fun index : Fin node.alternatives.length =>
              (inner index).image ((id, index.1) :: ·)).subset fun choices ⟨trees, spells⟩ => ?_
            obtain ⟨again, index, alternative, inside, parts, present, chosen, spelled, rfl, -⟩ :=
              spells_one.1 spells
            cases found.symm.trans present
            obtain ⟨bound, rfl⟩ := List.getElem?_eq_some_iff.1 chosen
            exact Set.mem_iUnion.2 ⟨⟨index, bound⟩, inside, ⟨parts, spelled⟩, rfl⟩
  exact several nodes fun id _ => one (rank id + 1) id (Nat.lt_succ_self _)

end Forest

end QueryGrammar
