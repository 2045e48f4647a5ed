import QueryGrammar.Forest.Cheapest
import QueryGrammar.Proofs.Forest.Acyclic

namespace QueryGrammar.Forest

/-! The cheapest costs of nodes.

Main statement: in a forest without cycles every node is given the least cost of its alternatives,
where an alternative costs what its rule costs and what its children were given.
-/

variable {κ : Type} [Cost κ] {table : Table κ} {lattice : Lattice} {forest : Forest}
  {memo middle after : Memo κ} {rank : Nat → Nat} {limit fuel id : Nat}
  {visit : Nat → Memo κ → Except Fault (κ × Memo κ)}

/-- The rules and nodes that alternatives refer to are there. -/
structure Linked (table : Table κ) (forest : Forest) : Prop where
  rule : ∀ id alternative, forest.Has id alternative →
    ∃ entry, table.rules[alternative.rule]? = some entry
  child : ∀ parent child, forest.Child parent child → child < forest.nodes.size

omit [Cost κ] in
/-- Where children do not go round in circles, ranks of nodes fall along them. -/
theorem Linked.exists_rank (linked : forest.Linked table)
    (founded : WellFounded fun child parent => forest.Child parent child) :
    ∃ rank : Nat → Nat, (∀ id, rank id ≤ forest.nodes.size) ∧
      ∀ parent child, forest.Child parent child → rank child < rank parent := by
  refine QueryGrammar.exists_rank linked.child fun id cycle => ?_
  exact founded.transGen.irrefl.irrefl id (Relation.transGen_swap.1 cycle)

/-- All alternatives, each with its node. -/
def listed (forest : Forest) : List (Nat × Alternative) :=
  forest.nodes.toList.zipIdx.flatMap fun (node, id) =>
    node.alternatives.map fun alternative => (id, alternative)

theorem mem_listed {alternative : Alternative} :
    (id, alternative) ∈ forest.listed ↔ forest.Has id alternative := by
  simp [listed, Has, List.mem_zipIdx_iff_getElem?]

omit [Cost κ] in
theorem linked_iff : forest.Linked table ↔ ∀ pair ∈ forest.listed,
    pair.2.rule < table.rules.size ∧ ∀ child ∈ pair.2.children, child < forest.nodes.size := by
  constructor
  · rintro linked ⟨id, alternative⟩ listed
    have has := mem_listed.1 listed
    obtain ⟨entry, known⟩ := linked.rule id alternative has
    exact ⟨(Array.getElem?_eq_some_iff.1 known).1,
      fun child member => linked.child id child (child_of_has has member)⟩
  · intro each
    refine ⟨fun id alternative has => ?_, fun parent child related => ?_⟩
    · exact ⟨_, Array.getElem?_eq_getElem (each _ (mem_listed.2 has)).1⟩
    · obtain ⟨rule, children, has, member⟩ := related
      exact (each _ (mem_listed.2 has)).2 child member

omit [Cost κ] in
instance : Decidable (forest.Linked table) :=
  decidable_of_iff _ linked_iff.symm

omit [Cost κ] in
theorem Presents.linked (presents : forest.Presents table lattice) : forest.Linked table :=
  ⟨fun _ _ => presents.rule_known, fun _ _ => presents.child_inside⟩

/-- What an alternative costs, where nodes cost what is said of them. -/
def Amounts (table : Table κ) (given : Nat → κ → Prop) (alternative : Alternative) (cost : κ) :
    Prop :=
  ∃ entry costs, table.rules[alternative.rule]? = some entry ∧
    List.Forall₂ given alternative.children costs ∧ cost = costs.foldl (· + ·) entry.rule.cost

/-- Whatever is said of a node is the least cost of its alternatives. -/
def Settles (table : Table κ) (forest : Forest) (given : Nat → κ → Prop) : Prop :=
  ∀ id cost, given id cost → ∃ node costs, forest.nodes[id]? = some node ∧
    List.Forall₂ (Amounts table given) node.alternatives costs ∧ cost = Cost.least costs

def Remembers (memo : Memo κ) (id : Nat) (cost : κ) : Prop :=
  memo[id]? = some (some cost)

/-- What visiting nodes below a rank does to the costs that are remembered. -/
structure Visited (table : Table κ) (forest : Forest) (rank : Nat → Nat) (limit : Nat)
    (memo after : Memo κ) : Prop where
  size : after.size = memo.size
  keeps : ∀ id cost, Remembers memo id cost → Remembers after id cost
  untouched : ∀ id, limit ≤ rank id → after[id]? = memo[id]?
  settles : forest.Settles table (Remembers memo) → forest.Settles table (Remembers after)

theorem Visited.refl (memo : Memo κ) : Visited table forest rank limit memo memo where
  size := rfl
  keeps _ _ known := known
  untouched _ _ := rfl
  settles settled := settled

theorem Visited.trans (first : Visited table forest rank limit memo middle)
    (second : Visited table forest rank limit middle after) :
    Visited table forest rank limit memo after where
  size := second.size.trans first.size
  keeps id cost known := second.keeps id cost (first.keeps id cost known)
  untouched id above := (second.untouched id above).trans (first.untouched id above)
  settles settled := second.settles (first.settles settled)

theorem Visited.mono {higher : Nat} (visited : Visited table forest rank limit memo after)
    (above : limit ≤ higher) : Visited table forest rank higher memo after where
  size := visited.size
  keeps := visited.keeps
  untouched id beyond := visited.untouched id (Nat.le_trans above beyond)
  settles := visited.settles

/-- A way to visit nodes of a rank that the fuel allows. -/
def Visits (table : Table κ) (forest : Forest) (rank : Nat → Nat)
    (visit : Nat → Memo κ → Except Fault (κ × Memo κ)) (fuel : Nat) : Prop :=
  ∀ id memo, rank id < fuel → id < forest.nodes.size → memo.size = forest.nodes.size →
    ∃ cost after, visit id memo = .ok (cost, after) ∧
      Visited table forest rank (rank id + 1) memo after ∧ Remembers after id cost

theorem Amounts.mono {alternative : Alternative} {cost : κ} {given also : Nat → κ → Prop}
    (amounts : Amounts table given alternative cost)
    (more : ∀ id cost, given id cost → also id cost) : Amounts table also alternative cost := by
  obtain ⟨entry, costs, known, children, total⟩ := amounts
  exact ⟨entry, costs, known, children.imp more, total⟩

theorem addChildren_spec (visits : Visits table forest rank visit fuel)
    (enough : limit ≤ fuel) {children : List Nat}
    (below : ∀ child ∈ children, rank child < limit ∧ child < forest.nodes.size) (start : κ)
    (size : memo.size = forest.nodes.size) :
    ∃ costs after, addChildren visit start children memo =
        .ok (costs.foldl (· + ·) start, after) ∧
      Visited table forest rank limit memo after ∧
      List.Forall₂ (Remembers after) children costs := by
  induction children generalizing start memo with
  | nil => exact ⟨[], memo, rfl, .refl memo, .nil⟩
  | cons child rest ih =>
      obtain ⟨⟨lower, inside⟩, others⟩ := List.forall_mem_cons.1 below
      obtain ⟨cost, middle, visiting, visited, known⟩ := visits child memo
        (Nat.lt_of_lt_of_le lower enough) inside size
      obtain ⟨costs, after, adding, more, remembered⟩ :=
        ih others (start + cost) (visited.size.trans size)
      refine ⟨cost :: costs, after, ?_, (visited.mono lower).trans more, .cons (more.keeps _ _ known) remembered⟩
      simp only [addChildren, visiting, adding, bind, Except.bind, List.foldl_cons]

theorem costsOfAlternatives_spec (visits : Visits table forest rank visit fuel)
    (enough : limit ≤ fuel)
    {alternatives : List Alternative}
    (known : ∀ alternative ∈ alternatives, ∃ entry, table.rules[alternative.rule]? = some entry)
    (below : ∀ alternative ∈ alternatives, ∀ child ∈ alternative.children,
      rank child < limit ∧ child < forest.nodes.size)
    (size : memo.size = forest.nodes.size) :
    ∃ costs after, costsOfAlternatives table visit alternatives memo = .ok (costs, after) ∧
      Visited table forest rank limit memo after ∧
      List.Forall₂ (Amounts table (Remembers after)) alternatives costs := by
  induction alternatives generalizing memo with
  | nil => exact ⟨[], memo, rfl, .refl memo, .nil⟩
  | cons alternative rest ih =>
      obtain ⟨⟨entry, present⟩, knownRest⟩ := List.forall_mem_cons.1 known
      obtain ⟨belowFirst, belowRest⟩ := List.forall_mem_cons.1 below
      obtain ⟨own, middle, adding, visited, children⟩ :=
        addChildren_spec visits enough belowFirst entry.rule.cost size
      obtain ⟨costs, after, going, more, amounts⟩ :=
        ih knownRest belowRest (visited.size.trans size)
      refine ⟨own.foldl (· + ·) entry.rule.cost :: costs, after, ?_, visited.trans more,
        .cons ⟨entry, own, present, children.imp more.keeps, rfl⟩ amounts⟩
      simp only [costsOfAlternatives, Table.costOf, Table.ruleAt, Fault.lookUp, present, adding,
        going, bind, Except.bind]

theorem cheapestAt_visits (linked : forest.Linked table)
    (falls : ∀ parent child, forest.Child parent child → rank child < rank parent) (fuel : Nat) :
    Visits table forest rank (cheapestAt table forest fuel) fuel := by
  induction fuel with
  | zero => exact fun id memo below => absurd below (Nat.not_lt_zero _)
  | succ fuel ih =>
      intro id memo below inside size
      have bound : id < memo.size := size ▸ inside
      cases here : memo[id] with
      | some cost =>
          have remembered : Remembers memo id cost := by
            rw [Remembers, Array.getElem?_eq_getElem bound, here]
          refine ⟨cost, memo, ?_, .refl memo, remembered⟩
          simp only [cheapestAt, Fault.lookUp, Array.getElem?_eq_getElem bound, here, bind,
            Except.bind]
      | none =>
          -- The children rank below the node, so it is still unknown once they are known.
          have present := Array.getElem?_eq_getElem inside
          have has : ∀ alternative ∈ forest.nodes[id].alternatives, forest.Has id alternative :=
            fun alternative member => ⟨_, present, member⟩
          have lower : ∀ alternative ∈ forest.nodes[id].alternatives,
              ∀ child ∈ alternative.children, rank child < rank id ∧
                child < forest.nodes.size := fun alternative member child below =>
            have related := child_of_has (has alternative member) below
            ⟨falls _ _ related, linked.child _ _ related⟩
          obtain ⟨costs, middle, going, visited, amounts⟩ := costsOfAlternatives_spec ih
            (Nat.le_of_lt_succ below) (fun alternative member => linked.rule _ _
              (has alternative member)) lower size
          have unknown : middle[id]? = some none := by
            rw [visited.untouched id (Nat.le_refl _), Array.getElem?_eq_getElem bound, here]
          have room : id < middle.size := visited.size ▸ bound
          have own : (middle.setIfInBounds id (some (Cost.least costs)))[id]? =
              some (some (Cost.least costs)) := by
            rw [Array.getElem?_setIfInBounds, if_pos rfl, if_pos room]
          have keeps : ∀ other cost, Remembers middle other cost →
              Remembers (middle.setIfInBounds id (some (Cost.least costs))) other cost := by
            intro other cost known
            have apart : id ≠ other := by
              intro given
              subst given
              cases unknown.symm.trans known
            rwa [Remembers, Array.getElem?_setIfInBounds, if_neg apart]
          refine ⟨Cost.least costs, _, ?_, ⟨?_, ?_, ?_, fun settled other cost known => ?_⟩, own⟩
          · simp only [cheapestAt, Fault.lookUp, Array.getElem?_eq_getElem bound, here, nodeAt,
              present, going, bind, Except.bind]
          · rw [Array.size_setIfInBounds, visited.size]
          · exact fun other cost known => keeps other cost (visited.keeps other cost known)
          · intro other above
            have apart : id ≠ other := by
              intro given
              subst given
              omega
            rw [Array.getElem?_setIfInBounds, if_neg apart, visited.untouched other (by omega)]
          · by_cases same : id = other
            · subst same
              cases own.symm.trans known
              exact ⟨_, costs, present, amounts.imp fun _ _ known => known.mono keeps, rfl⟩
            · rw [Remembers, Array.getElem?_setIfInBounds, if_neg same] at known
              obtain ⟨node, own, found, each, least⟩ := visited.settles settled other cost known
              exact ⟨node, own, found, each.imp fun _ _ known => known.mono keeps, least⟩

theorem cheapestFrom_spec (linked : forest.Linked table)
    (falls : ∀ parent child, forest.Child parent child → rank child < rank parent)
    (bounded : ∀ id, rank id ≤ forest.nodes.size) {nodes : List Nat}
    (inside : ∀ id ∈ nodes, id < forest.nodes.size) (size : memo.size = forest.nodes.size)
    (settled : forest.Settles table (Remembers memo)) :
    ∃ after, cheapestFrom table forest nodes memo = .ok after ∧
      after.size = forest.nodes.size ∧ forest.Settles table (Remembers after) ∧
      (∀ id cost, Remembers memo id cost → Remembers after id cost) ∧
      ∀ id ∈ nodes, ∃ cost, Remembers after id cost := by
  induction nodes generalizing memo with
  | nil => exact ⟨memo, rfl, size, settled, fun _ _ known => known, by simp⟩
  | cons id rest ih =>
      obtain ⟨own, others⟩ := List.forall_mem_cons.1 inside
      obtain ⟨cost, middle, visiting, visited, known⟩ := cheapestAt_visits linked falls
        (forest.nodes.size + 1) id memo (Nat.lt_succ_of_le (bounded id)) own size
      obtain ⟨after, going, sizeAfter, settledAfter, keeps, all⟩ :=
        ih others (visited.size.trans size) (visited.settles settled)
      refine ⟨after, ?_, sizeAfter, settledAfter, fun other cost known =>
        keeps other cost (visited.keeps other cost known), ?_⟩
      · simp only [cheapestFrom, visiting, going, bind, Except.bind]
      · exact List.forall_mem_cons.2 ⟨⟨cost, keeps id cost known⟩, all⟩

theorem settles_unknown (count : Nat) :
    forest.Settles table (Remembers (Array.replicate count none)) := by
  intro id cost known
  simp only [Remembers, Array.getElem?_replicate] at known
  split at known <;> cases known

/-- Every node is given the least cost of its alternatives, where children rank below. -/
theorem cheapest_settles (linked : forest.Linked table)
    (falls : ∀ parent child, forest.Child parent child → rank child < rank parent)
    (bounded : ∀ id, rank id ≤ forest.nodes.size) :
    ∃ costs : Array κ, forest.cheapest table = .ok costs ∧ costs.size = forest.nodes.size ∧
      forest.Settles table fun id cost => costs[id]? = some cost := by
  obtain ⟨memo, going, size, settled, -, all⟩ := cheapestFrom_spec linked falls bounded
    (fun id member => List.mem_range.1 member) Array.size_replicate (settles_unknown _)
  refine ⟨memo.map fun cost => cost.getD (Cost.least []), ?_, by simp [size], ?_⟩
  · simp only [cheapest] at going ⊢
    simp only [going, bind, Except.bind]
  · have alike : ∀ (id : Nat) cost, (memo.map fun cost => cost.getD (Cost.least []))[id]? =
        some cost ↔ Remembers memo id cost := by
      intro id cost
      rw [Array.getElem?_map]
      constructor
      · intro found
        obtain ⟨remembered, present, rfl⟩ := Option.map_eq_some_iff.1 found
        have inside : id < forest.nodes.size := size ▸ (Array.getElem?_eq_some_iff.1 present).1
        obtain ⟨known, own⟩ := all id (List.mem_range.2 inside)
        cases present.symm.trans own
        exact own
      · intro known
        rw [show memo[id]? = some (some cost) from known]
        rfl
    intro id cost known
    obtain ⟨node, own, found, each, least⟩ := settled id cost ((alike id cost).1 known)
    exact ⟨node, own, found, each.imp fun _ _ amounts => amounts.mono fun id cost known =>
      (alike id cost).2 known, least⟩

/-- Every node is given the least cost of its alternatives. -/
theorem cheapest_spec (presents : forest.Presents table lattice)
    (noCycle : table.HasNoUnaryCycle) : ∃ costs : Array κ, forest.cheapest table = .ok costs ∧
      costs.size = forest.nodes.size ∧
      forest.Settles table fun id cost => costs[id]? = some cost := by
  obtain ⟨rank, bounded, falls⟩ := presents.exists_rank noCycle
  exact cheapest_settles presents.linked falls bounded

end QueryGrammar.Forest
