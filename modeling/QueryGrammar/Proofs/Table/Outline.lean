import QueryGrammar.Proofs.Table.Closure

namespace QueryGrammar.Automaton

/-! What the outline of a kernel says about the items of its closure. -/

variable {skeleton : Skeleton} {kernel : Kernel} {item : Item} {items : List Item}
  {moves : List (Nat × Kernel)} {symbol rule : Nat}

theorem lookup_cons_ne {entries : List (Nat × Kernel)} {other : Nat} (apart : other ≠ symbol) :
    ((symbol, kernel) :: entries).lookup other = entries.lookup other := by
  simp [List.lookup_cons, beq_eq_false_iff_ne.2 apart]

theorem lookup_addMove (other : Nat) :
    (addMove symbol item moves).lookup other =
      if other = symbol then
        some (((moves.lookup symbol).map (insertOrdered Item.order item)).getD [item])
      else moves.lookup other := by
  induction moves with
  | nil =>
      by_cases same : other = symbol
      · simp [addMove, same]
      · rw [addMove, lookup_cons_ne same, if_neg same]
  | cons first rest ih =>
      obtain ⟨present, known⟩ := first
      simp only [addMove]
      by_cases here : present = symbol
      · subst here
        by_cases same : other = present
        · simp [same]
        · simp only [if_true, lookup_cons_ne same, if_neg same]
      · rw [if_neg here, lookup_cons_ne (Ne.symm here)]
        by_cases found : other = present
        · subst found
          simp [here]
        · rw [lookup_cons_ne found, lookup_cons_ne found, ih]

theorem keys_addMove :
    (addMove symbol item moves).map (·.1) =
      if symbol ∈ moves.map (·.1) then moves.map (·.1) else moves.map (·.1) ++ [symbol] := by
  induction moves with
  | nil => simp [addMove]
  | cons first rest ih =>
      obtain ⟨present, known⟩ := first
      simp only [addMove]
      by_cases here : present = symbol
      · simp [here]
      · have apart : ¬ symbol = present := fun same => here same.symm
        simp only [here, if_false, List.map_cons, ih, List.mem_cons, apart, false_or]
        split <;> simp

theorem mem_iff_lookup {entries : List (Nat × Kernel)} (unique : (entries.map (·.1)).Nodup) :
    (symbol, kernel) ∈ entries ↔ entries.lookup symbol = some kernel := by
  induction entries with
  | nil => simp
  | cons first rest ih =>
      obtain ⟨present, known⟩ := first
      simp only [List.map_cons, List.nodup_cons] at unique
      by_cases here : symbol = present
      · subst here
        have absent : (symbol, kernel) ∉ rest :=
          fun member => unique.1 (List.mem_map.2 ⟨_, member, rfl⟩)
        simp [absent, eq_comm]
      · rw [lookup_cons_ne here, ← ih unique.2]
        simp [here]

/-- Moves that belong to a list of items: for every symbol after one of them, the items advanced
over it, in order. -/
structure MovesOf (skeleton : Skeleton) (items : List Item) (moves : List (Nat × Kernel)) :
    Prop where
  unique : (moves.map (·.1)).Nodup
  ascending : ∀ symbol kernel, moves.lookup symbol = some kernel →
    AscendingBy Item.order kernel
  kernel : ∀ symbol item, item ∈ (moves.lookup symbol).getD [] ↔
    ∃ before ∈ items, skeleton.next? before = some symbol ∧ before.advance = item
  nonempty : ∀ symbol, moves.lookup symbol ≠ some []

theorem MovesOf.nil : MovesOf skeleton [] [] where
  unique := .nil
  ascending := by simp
  kernel := by simp
  nonempty := by simp

theorem MovesOf.skip (made : MovesOf skeleton items moves) (last : skeleton.next? item = none) :
    MovesOf skeleton (items ++ [item]) moves := by
  refine ⟨made.unique, made.ascending, fun symbol advanced => ?_, made.nonempty⟩
  simp only [made.kernel, List.mem_append, List.mem_singleton]
  constructor
  · intro given
    obtain ⟨before, member, next, same⟩ := given
    exact ⟨before, .inl member, next, same⟩
  · intro given
    obtain ⟨before, member | rfl, next, same⟩ := given
    · exact ⟨before, member, next, same⟩
    · rw [last] at next
      cases next

theorem MovesOf.add (made : MovesOf skeleton items moves)
    (next : skeleton.next? item = some symbol) :
    MovesOf skeleton (items ++ [item]) (addMove symbol item.advance moves) := by
  have inserted : ∀ kernel, (addMove symbol item.advance moves).lookup symbol = some kernel →
      kernel = insertOrdered Item.order item.advance ((moves.lookup symbol).getD []) := by
    intro kernel found
    rw [lookup_addMove, if_pos rfl] at found
    cases present : moves.lookup symbol with
    | none => simpa [present, insertOrdered] using found.symm
    | some known => simpa [present] using found.symm
  refine ⟨?_, fun other kernel found => ?_, fun other advanced => ?_, fun other empty => ?_⟩
  · rw [keys_addMove]
    split
    · exact made.unique
    · rename_i absent
      refine List.nodup_append.2 ⟨made.unique, by simp, ?_⟩
      intro key member other same
      rw [List.mem_singleton.1 same]
      intro given
      subst given
      exact absent member
  · by_cases here : other = symbol
    · subst here
      rw [inserted kernel found]
      refine ascending_insertOrdered ?_
      cases present : moves.lookup other with
      | none => exact .nil
      | some known => exact made.ascending other known present
    · rw [lookup_addMove, if_neg here] at found
      exact made.ascending other kernel found
  · by_cases here : other = symbol
    · subst here
      obtain ⟨kernel, found⟩ : ∃ kernel,
          (addMove other item.advance moves).lookup other = some kernel :=
        ⟨_, by rw [lookup_addMove, if_pos rfl]⟩
      rw [found, Option.getD_some, inserted kernel found, mem_insertOrdered, made.kernel]
      constructor
      · intro given
        rcases given with rfl | ⟨before, member, nextBefore, same⟩
        · exact ⟨item, by simp, next, rfl⟩
        · exact ⟨before, by simp [member], nextBefore, same⟩
      · intro given
        obtain ⟨before, member, nextBefore, same⟩ := given
        rcases List.mem_append.1 member with member | last
        · exact .inr ⟨before, member, nextBefore, same⟩
        · rw [List.mem_singleton.1 last] at same
          exact .inl same.symm
    · rw [lookup_addMove, if_neg here, made.kernel]
      constructor
      · intro given
        obtain ⟨before, member, nextBefore, same⟩ := given
        exact ⟨before, by simp [member], nextBefore, same⟩
      · intro given
        obtain ⟨before, member, nextBefore, same⟩ := given
        rcases List.mem_append.1 member with member | last
        · exact ⟨before, member, nextBefore, same⟩
        · rw [List.mem_singleton.1 last, next] at nextBefore
          exact absurd (Option.some.inj nextBefore).symm here
  · by_cases here : other = symbol
    · subst here
      have none := inserted [] empty
      have member : item.advance ∈
          insertOrdered Item.order item.advance ((moves.lookup other).getD []) :=
        mem_insertOrdered.2 (.inl rfl)
      rw [← none] at member
      cases member
    · rw [lookup_addMove, if_neg here] at empty
      exact made.nonempty other empty

/-- An outline that belongs to a list of items. -/
structure OutlineOf (skeleton : Skeleton) (items : List Item) (outline : Outline) : Prop where
  reductions : ∀ rule, rule ∈ outline.reductions ↔
    ∃ item ∈ items, skeleton.next? item = none ∧ item.rule = some rule
  accepts : outline.accepts = true ↔
    ∃ item ∈ items, skeleton.next? item = none ∧ item.rule = none
  moves : MovesOf skeleton items outline.moves

theorem OutlineOf.empty : OutlineOf skeleton [] .empty where
  reductions := by simp [Outline.empty]
  accepts := by simp [Outline.empty]
  moves := .nil

theorem OutlineOf.take {outline : Outline} (made : OutlineOf skeleton items outline)
    (item : Item) :
    OutlineOf skeleton (items ++ [item]) (outline.take skeleton item) := by
  cases next : skeleton.next? item with
  | some symbol =>
      simp only [Outline.take, next]
      refine ⟨fun rule => ?_, ?_, made.moves.add next⟩
      · simp [made.reductions, or_and_right, exists_or, next]
      · simp [made.accepts, or_and_right, exists_or, next]
  | none =>
      cases completed : item.rule with
      | none =>
          simp only [Outline.take, next, completed]
          refine ⟨fun rule => ?_, ?_, made.moves.skip next⟩
          · simp [made.reductions, or_and_right, exists_or, completed]
          · simp [or_and_right, exists_or, next, completed]
      | some rule =>
          simp only [Outline.take, next, completed]
          refine ⟨fun other => ?_, ?_, made.moves.skip next⟩
          · simp [made.reductions, or_and_right, exists_or, next, completed, eq_comm]
          · simp [made.accepts, or_and_right, exists_or, completed]

theorem OutlineOf.foldl {outline : Outline} {later : List Item}
    (made : OutlineOf skeleton items outline) :
    OutlineOf skeleton (items ++ later) (later.foldl (Outline.take skeleton) outline) := by
  induction later generalizing items outline with
  | nil => simpa using made
  | cons item rest ih => simpa using ih (made.take item)

theorem outlineOf_closure (skeleton : Skeleton) (kernel : Kernel) :
    OutlineOf skeleton (skeleton.closureOf kernel) (outline skeleton kernel) := by
  rw [outline_eq_foldl]
  exact OutlineOf.empty.foldl

variable (bounded : skeleton.Bounded)
include bounded

theorem mem_outline_reductions :
    rule ∈ (outline skeleton kernel).reductions ↔
      ∃ item, skeleton.Closure kernel item ∧ skeleton.next? item = none ∧
        item.rule = some rule := by
  simp only [(outlineOf_closure skeleton kernel).reductions, mem_closureOf bounded]

theorem outline_accepts_iff :
    (outline skeleton kernel).accepts = true ↔
      ∃ item, skeleton.Closure kernel item ∧ skeleton.next? item = none ∧ item.rule = none := by
  simp only [(outlineOf_closure skeleton kernel).accepts, mem_closureOf bounded]

theorem outline_moves_goto {target : Kernel}
    (move : (symbol, target) ∈ (outline skeleton kernel).moves) :
    target ≠ [] ∧ AscendingBy Item.order target ∧
      ∀ item, item ∈ target ↔ skeleton.Goto kernel symbol item := by
  have made := (outlineOf_closure skeleton kernel).moves
  have found := (mem_iff_lookup made.unique).1 move
  refine ⟨?_, made.ascending symbol target found, fun item => ?_⟩
  · intro given
    subst given
    exact made.nonempty symbol found
  · have member := made.kernel symbol item
    rw [found, Option.getD_some] at member
    rw [member]
    simp only [mem_closureOf bounded, Skeleton.Goto]

theorem exists_outline_move (goto : skeleton.Goto kernel symbol item) :
    ∃ target, (symbol, target) ∈ (outline skeleton kernel).moves := by
  have made := (outlineOf_closure skeleton kernel).moves
  obtain ⟨before, closure, next, same⟩ := goto
  have member := (made.kernel symbol item).2
    ⟨before, (mem_closureOf bounded).2 closure, next, same⟩
  cases found : (outline skeleton kernel).moves.lookup symbol with
  | none => simp [found] at member
  | some target => exact ⟨target, (mem_iff_lookup made.unique).2 found⟩

end QueryGrammar.Automaton
