import Mathlib.Data.List.Basic
import Mathlib.Logic.Relation
import QueryGrammar.Data.Reach
import QueryGrammar.Proofs.Data.Halts

namespace QueryGrammar.Edges

/-! What searches along edges find.

Main statements: both find exactly what lies at the end of a path, whatever cycles there are, and
both end by themselves, the one where nothing waits and the other there or at its goal.
-/

open Relation

variable {edges : Edges} {waiting marked found : List String} {turns : Nat}
  {start goal vertex other : String}

/-- One vertex leads to another. -/
def Leads (edges : Edges) (vertex other : String) : Prop :=
  (vertex, other) ∈ edges

theorem Leads.mono (leads : edges.Leads vertex other) (more : List (String × String)) :
    Edges.Leads (edges ++ more) vertex other :=
  List.mem_append_left _ leads

theorem mem_targets : other ∈ edges.targets vertex ↔ edges.Leads vertex other := by
  simp only [targets, List.mem_map, List.mem_filter, beq_iff_eq, Leads]
  constructor
  · intro given
    obtain ⟨edge, ⟨member, rfl⟩, rfl⟩ := given
    exact member
  · exact fun member => ⟨(vertex, other), ⟨member, rfl⟩, rfl⟩

/-! Marking what is found. -/

theorem mem_unmarked {vertices : List String} :
    vertex ∈ unmarked marked vertices ↔ vertex ∈ vertices ∧ vertex ∉ marked := by
  induction vertices generalizing marked with
  | nil => simp [unmarked]
  | cons first rest ih =>
      by_cases known : first ∈ marked
      · rw [unmarked, if_pos (List.contains_iff_mem.2 known), ih, List.mem_cons]
        constructor
        · exact fun given => ⟨.inr given.1, given.2⟩
        · intro given
          obtain ⟨rfl | later, fresh⟩ := given
          · exact absurd known fresh
          · exact ⟨later, fresh⟩
      · rw [unmarked, if_neg (mt List.contains_iff_mem.1 known), List.mem_cons, ih, List.mem_cons,
          List.mem_cons]
        by_cases here : vertex = first
        · simp [here, known]
        · simp [here]

theorem nodup_unmarked {vertices : List String} : (unmarked marked vertices).Nodup := by
  induction vertices generalizing marked with
  | nil => exact .nil
  | cons first rest ih =>
      rw [unmarked]
      split
      · exact ih
      · exact List.nodup_cons.2 ⟨fun again => (mem_unmarked.1 again).2 (List.mem_cons_self ..), ih⟩

/-- The edges to what is not marked yet. -/
def undiscovered (edges : Edges) (marked : List String) : Nat :=
  (edges.filter fun edge => !marked.contains edge.2).length

theorem undiscovered_cons_lt (leads : edges.Leads vertex other) (fresh : other ∉ marked) :
    edges.undiscovered (other :: marked) < edges.undiscovered marked := by
  have fewer : (edges.filter fun edge => !(other :: marked).contains edge.2) =
      (edges.filter fun edge => !marked.contains edge.2).filter fun edge => !edge.2 == other := by
    rw [List.filter_filter]
    refine List.filter_congr fun edge _ => ?_
    by_cases here : edge.2 = other <;> simp [here]
  rw [undiscovered, undiscovered, fewer]
  refine List.length_filter_lt_length_iff_exists.2 ⟨(vertex, other), ?_, by simp⟩
  exact List.mem_filter.2 ⟨leads, by simpa using fresh⟩

/-- What is found is at the end of an edge that led to nothing marked before. -/
theorem undiscovered_append_le (unique : found.Nodup)
    (reached : ∀ other ∈ found, ∃ vertex, edges.Leads vertex other)
    (fresh : ∀ other ∈ found, other ∉ marked) :
    found.length + edges.undiscovered (found ++ marked) ≤ edges.undiscovered marked := by
  induction found with
  | nil => simp
  | cons first rest ih =>
      obtain ⟨apart, unique⟩ := List.nodup_cons.1 unique
      obtain ⟨⟨vertex, leads⟩, reached⟩ := List.forall_mem_cons.1 reached
      obtain ⟨new, fresh⟩ := List.forall_mem_cons.1 fresh
      have before := ih unique reached fresh
      have less := undiscovered_cons_lt leads
        (List.mem_append.not.2 (not_or.2 ⟨apart, new⟩))
      rw [List.length_cons, List.cons_append]
      omega

theorem undiscovered_targets_le (edges : Edges) (marked : List String) (vertex : String) :
    (unmarked marked (edges.targets vertex)).length +
      edges.undiscovered (unmarked marked (edges.targets vertex) ++ marked) ≤
        edges.undiscovered marked :=
  undiscovered_append_le nodup_unmarked
    (fun _ member => ⟨vertex, mem_targets.1 (mem_unmarked.1 member).1⟩)
    fun _ member => (mem_unmarked.1 member).2

/-- Whatever is marked and had its turn has its targets marked. -/
structure Spreading (edges : Edges) (waiting marked : List String) : Prop where
  waits : ∀ vertex ∈ waiting, vertex ∈ marked
  done : ∀ vertex ∈ marked, vertex ∉ waiting → ∀ other, edges.Leads vertex other → other ∈ marked

theorem Spreading.turn (spreading : edges.Spreading (vertex :: waiting) marked) :
    edges.Spreading (waiting ++ unmarked marked (edges.targets vertex))
      (unmarked marked (edges.targets vertex) ++ marked) where
  waits other member := by
    rcases List.mem_append.1 member with later | new
    · exact List.mem_append_right _ (spreading.waits other (List.mem_cons_of_mem _ later))
    · exact List.mem_append_left _ new
  done other member idle next leads := by
    obtain ⟨notLater, notNew⟩ := not_or.1 (List.mem_append.not.1 idle)
    have before := (List.mem_append.1 member).resolve_left notNew
    by_cases here : other = vertex
    · subst here
      by_cases known : next ∈ marked
      · exact List.mem_append_right _ known
      · exact List.mem_append_left _ (mem_unmarked.2 ⟨mem_targets.2 leads, known⟩)
    · have waited : other ∉ vertex :: waiting :=
        List.mem_cons.not.2 (not_or.2 ⟨here, notLater⟩)
      exact List.mem_append_right _ (spreading.done other before waited next leads)

/-- A search marks what is marked already and, with a vertex, all that it leads to. -/
theorem spread_complete (enough : waiting.length + edges.undiscovered marked ≤ turns)
    (spreading : edges.Spreading waiting marked) :
    (∀ vertex ∈ marked, vertex ∈ edges.spread turns waiting marked) ∧
      ∀ vertex ∈ edges.spread turns waiting marked, ∀ other, edges.Leads vertex other →
        other ∈ edges.spread turns waiting marked := by
  induction turns generalizing waiting marked with
  | zero =>
      have nothing : waiting = [] := List.length_eq_zero_iff.1 (by omega)
      subst nothing
      exact ⟨fun _ member => member, fun vertex member => spreading.done vertex member (by simp)⟩
  | succ turns ih =>
      cases waiting with
      | nil =>
          exact ⟨fun _ member => member, fun vertex member => spreading.done vertex member (by simp)⟩
      | cons vertex rest =>
          have fewer := undiscovered_targets_le edges marked vertex
          obtain ⟨covers, closed⟩ := ih
            (by rw [List.length_cons] at enough; rw [List.length_append]; omega) spreading.turn
          exact ⟨fun other member => covers other (List.mem_append_right _ member), closed⟩

theorem spread_sound (reached : ∀ vertex ∈ marked, ReflTransGen edges.Leads start vertex)
    (waits : ∀ vertex ∈ waiting, vertex ∈ marked) :
    ∀ vertex ∈ edges.spread turns waiting marked, ReflTransGen edges.Leads start vertex := by
  induction turns generalizing waiting marked with
  | zero => exact reached
  | succ turns ih =>
      cases waiting with
      | nil => exact reached
      | cons vertex rest =>
          obtain ⟨known, others⟩ := List.forall_mem_cons.1 waits
          refine ih (List.forall_mem_append.2 ⟨fun other new => ?_, reached⟩)
            (List.forall_mem_append.2 ⟨fun other later => ?_, fun other new => ?_⟩)
          · exact (reached vertex known).tail (mem_targets.1 (mem_unmarked.1 new).1)
          · exact List.mem_append_right _ (others other later)
          · exact List.mem_append_left _ new

theorem undiscovered_le (edges : Edges) (marked : List String) :
    edges.undiscovered marked ≤ edges.length :=
  List.length_filter_le ..

theorem mem_reachable : goal ∈ edges.reachable start ↔ ReflTransGen edges.Leads start goal := by
  have waits : ∀ vertex ∈ [start], vertex ∈ [start] := fun _ member => member
  constructor
  · intro found
    refine spread_sound (fun vertex member => ?_) waits goal found
    rw [List.mem_singleton.1 member]
  · intro path
    have few := undiscovered_le edges [start]
    have enough : [start].length + edges.undiscovered [start] ≤ edges.length + 1 := by
      rw [List.length_singleton]
      omega
    obtain ⟨covers, closed⟩ := spread_complete enough
      ⟨waits, fun vertex member idle => absurd member idle⟩
    induction path with
    | refl => exact covers start (List.mem_singleton_self _)
    | tail _ leads ih => exact closed _ ih _ leads

/-- One turn of the search, with what waits and what is marked. It ends where nothing waits. -/
def spreadTurn (edges : Edges) : List String × List String →
    (List String × List String) ⊕ List String
  | ([], marked) => .inr marked
  | (vertex :: waiting, marked) =>
      let found := unmarked marked (edges.targets vertex)
      .inl (waiting ++ found, found ++ marked)

/-- The search ends by itself, and what it has marked then is what is said to be reachable. -/
theorem reachable_halts (edges : Edges) (start : String) : ∃ turns ≤ edges.length + 2,
    Halts edges.spreadTurn turns ([start], [start]) (edges.reachable start) := by
  refine halts_of_bounded (σ := List String × List String)
    (fun turns state => edges.spread turns state.1 state.2)
    (fun state => state.1.length + edges.undiscovered state.2) (fun state nothing => ?_)
    (fun turns state => ?_) ?_
  · obtain ⟨waiting, marked⟩ := state
    have idle : waiting = [] := List.length_eq_zero_iff.1 (Nat.eq_zero_of_add_eq_zero_right nothing)
    subst idle
    rfl
  · obtain ⟨waiting | ⟨vertex, waiting⟩, marked⟩ := state
    · exact .inl rfl
    · have fewer := undiscovered_targets_le edges marked vertex
      refine .inr ⟨_, rfl, ?_, rfl⟩
      simp only [List.length_append, List.length_cons]
      omega
  · have few := undiscovered_le edges [start]
    simp only [List.length_singleton]
    omega

/-! Stopping at a goal. -/

/-- The edges that a search has still to follow. -/
def unexpanded (edges : Edges) (marked : List String) : Nat :=
  (edges.filter fun edge => !marked.contains edge.1).length

theorem unexpanded_cons (edges : Edges) (fresh : vertex ∉ marked) :
    (edges.targets vertex).length + edges.unexpanded (vertex :: marked) =
      edges.unexpanded marked := by
  simp only [targets, unexpanded, List.length_map]
  induction edges with
  | nil => rfl
  | cons edge rest ih =>
      by_cases here : edge.1 = vertex
      · simp [here, fresh] at ih ⊢
        omega
      · by_cases before : edge.1 ∈ marked <;> simp [here, before] at ih ⊢ <;> omega

/-- What is marked is not the goal, and its targets are marked or waiting. -/
structure Chasing (edges : Edges) (goal : String) (waiting marked : List String) : Prop where
  apart : goal ∉ marked
  done : ∀ vertex ∈ marked, ∀ other, edges.Leads vertex other → other ∈ marked ∨ other ∈ waiting

/-- A path to the goal leaves what is marked at a vertex that waits. -/
theorem Chasing.exists_waiting (chasing : edges.Chasing goal waiting marked)
    (path : ReflTransGen edges.Leads vertex goal) (member : vertex ∈ marked) :
    ∃ first ∈ waiting, ReflTransGen edges.Leads first goal := by
  induction path using ReflTransGen.head_induction_on with
  | refl => exact absurd member chasing.apart
  | @head vertex next leads rest ih =>
      rcases chasing.done vertex member next leads with known | waits
      · exact ih known
      · exact ⟨next, waits, rest⟩

theorem Chasing.pass (chasing : edges.Chasing goal (vertex :: waiting) marked)
    (known : vertex ∈ marked) : edges.Chasing goal waiting marked where
  apart := chasing.apart
  done other member next leads := by
    rcases chasing.done other member next leads with before | waits
    · exact .inl before
    · rcases List.mem_cons.1 waits with rfl | later
      · exact .inl known
      · exact .inr later

theorem Chasing.expand (chasing : edges.Chasing goal (vertex :: waiting) marked)
    (differs : vertex ≠ goal) :
    edges.Chasing goal ((edges.targets vertex).reverse ++ waiting) (vertex :: marked) where
  apart := List.mem_cons.not.2 (not_or.2 ⟨differs.symm, chasing.apart⟩)
  done other member next leads := by
    rcases List.mem_cons.1 member with rfl | before
    · exact .inr (List.mem_append_left _ (List.mem_reverse.2 (mem_targets.2 leads)))
    · rcases chasing.done other before next leads with seen | waits
      · exact .inl (List.mem_cons_of_mem _ seen)
      · rcases List.mem_cons.1 waits with rfl | later
        · exact .inl (List.mem_cons_self ..)
        · exact .inr (List.mem_append_right _ later)

theorem chase_iff (enough : waiting.length + edges.unexpanded marked ≤ turns)
    (chasing : edges.Chasing goal waiting marked) :
    edges.chase goal turns waiting marked = true ↔
      ∃ first ∈ waiting, ReflTransGen edges.Leads first goal := by
  induction turns generalizing waiting marked with
  | zero =>
      have nothing : waiting = [] := List.length_eq_zero_iff.1 (by omega)
      simp [nothing, chase]
  | succ turns ih =>
      cases waiting with
      | nil => simp [chase]
      | cons vertex rest =>
          rw [List.length_cons] at enough
          rw [chase, List.exists_mem_cons_iff]
          by_cases here : vertex = goal
          · simp [here, ReflTransGen.refl]
          rw [if_neg (mt beq_iff_eq.1 here)]
          by_cases known : vertex ∈ marked
          · rw [if_pos (List.contains_iff_mem.2 known), ih (by omega) (chasing.pass known)]
            refine ⟨.inr, fun given => ?_⟩
            rcases given with path | later
            · exact (chasing.pass known).exists_waiting path known
            · exact later
          · have fewer := unexpanded_cons edges known
            rw [if_neg (mt List.contains_iff_mem.1 known), ih (by
              rw [List.length_append, List.length_reverse]; omega) (chasing.expand here)]
            simp only [List.mem_append, List.mem_reverse, mem_targets, or_and_right, exists_or]
            refine or_congr_left ⟨fun given => ?_, fun path => ?_⟩
            · obtain ⟨next, leads, path⟩ := given
              exact .head leads path
            · rcases ReflTransGen.cases_head path with same | ⟨next, leads, path⟩
              · exact absurd same here
              · exact ⟨next, leads, path⟩

theorem unexpanded_nil (edges : Edges) : edges.unexpanded [] = edges.length := by
  simp [unexpanded]

theorem reaches_iff : edges.reaches start goal = true ↔ TransGen edges.Leads start goal := by
  rw [reaches, chase_iff (Nat.le_of_eq (by rw [unexpanded_nil])) ⟨by simp, by simp⟩,
    TransGen.head'_iff]
  simp only [List.mem_reverse, mem_targets]

/-- One turn of the search, with what waits and what is marked. It ends at the goal, and where nothing
waits. -/
def chaseTurn (edges : Edges) (goal : String) : List String × List String →
    (List String × List String) ⊕ Bool
  | ([], _) => .inr false
  | (vertex :: waiting, marked) =>
      if vertex == goal then .inr true
      else if marked.contains vertex then .inl (waiting, marked)
      else .inl ((edges.targets vertex).reverse ++ waiting, vertex :: marked)

/-- The search ends by itself, and the answer is what it ends with. -/
theorem reaches_halts (edges : Edges) (start goal : String) :
    ∃ turns ≤ (edges.targets start).length + edges.length + 1,
      Halts (edges.chaseTurn goal) turns ((edges.targets start).reverse, [])
        (edges.reaches start goal) := by
  rw [← List.length_reverse]
  refine halts_of_bounded (σ := List String × List String)
    (fun turns state => edges.chase goal turns state.1 state.2)
    (fun state => state.1.length + edges.unexpanded state.2) (fun state nothing => ?_)
    (fun turns state => ?_) (Nat.le_of_eq (by rw [unexpanded_nil]))
  · obtain ⟨waiting, marked⟩ := state
    have idle : waiting = [] := List.length_eq_zero_iff.1 (Nat.eq_zero_of_add_eq_zero_right nothing)
    subst idle
    rfl
  · obtain ⟨waiting | ⟨vertex, waiting⟩, marked⟩ := state
    · exact .inl rfl
    simp only [chaseTurn, chase]
    split
    · exact .inl rfl
    · split
      · exact .inr ⟨_, rfl, by simp, rfl⟩
      · rename_i new
        have fewer := unexpanded_cons edges (mt List.contains_iff_mem.2 new)
        refine .inr ⟨_, rfl, ?_, rfl⟩
        simp only [List.length_append, List.length_reverse, List.length_cons]
        omega

/-- A new edge takes paths from its source to its target, and nowhere else. -/
theorem transGen_append {source target : String}
    (path : TransGen (Edges.Leads (edges ++ [(source, target)])) start goal) :
    TransGen edges.Leads start goal ∨
      ReflTransGen edges.Leads start source ∧ ReflTransGen edges.Leads target goal := by
  have old : ∀ {vertex other}, Edges.Leads (edges ++ [(source, target)]) vertex other →
      edges.Leads vertex other ∨ vertex = source ∧ other = target := by
    intro vertex other leads
    simpa [Leads] using leads
  induction path with
  | single leads =>
      rcases old leads with known | ⟨rfl, rfl⟩
      · exact .inl (.single known)
      · exact .inr ⟨.refl, .refl⟩
  | tail _ leads ih =>
      rcases ih with before | ⟨before, after⟩ <;> rcases old leads with known | ⟨rfl, rfl⟩
      · exact .inl (before.tail known)
      · exact .inr ⟨before.to_reflTransGen, .refl⟩
      · exact .inr ⟨before, after.tail known⟩
      · exact .inr ⟨before, .refl⟩

/-- An edge closes no cycle unless its target leads back to its source. -/
theorem acyclic_append {source target : String}
    (acyclic : ∀ vertex, ¬ TransGen edges.Leads vertex vertex) (apart : target ≠ source)
    (away : ¬ TransGen edges.Leads target source) (vertex : String) :
    ¬ TransGen (Edges.Leads (edges ++ [(source, target)])) vertex vertex := by
  intro cycle
  rcases transGen_append cycle with before | ⟨before, after⟩
  · exact acyclic vertex before
  · rcases reflTransGen_iff_eq_or_transGen.1 (after.trans before) with same | back
    · exact apart same.symm
    · exact away back

end QueryGrammar.Edges
