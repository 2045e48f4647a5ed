import QueryGrammar.Table.Basic

namespace QueryGrammar

/-! Looking up where a symbol leads: on shifts in ascending order the search finds every entry. -/

namespace State

variable {state : State} {shifts : Array (Nat × Nat)} {symbol target : Nat}

abbrev Ascends (shifts : Array (Nat × Nat)) : Prop :=
  shifts.toList.Pairwise fun first second => first.1 < second.1

theorem Ascends.key_lt (ascending : Ascends shifts) {before after : Nat}
    {first second : Nat × Nat} (less : before < after)
    (firstFound : shifts[before]? = some first) (secondFound : shifts[after]? = some second) :
    first.1 < second.1 := by
  obtain ⟨beforeInside, firstSame⟩ := Array.getElem?_eq_some_iff.1 firstFound
  obtain ⟨afterInside, secondSame⟩ := Array.getElem?_eq_some_iff.1 secondFound
  have ordered := List.pairwise_iff_getElem.1 ascending before after
    (by simpa using beforeInside) (by simpa using afterInside) less
  simpa only [Array.getElem_toList, firstSame, secondSame] using ordered

/-- The range keeps the entry in question: the later half is kept unless it starts beyond it. -/
theorem narrow_eq (ascending : Ascends shifts) {index base size fuel : Nat}
    (found : shifts[index]? = some (symbol, target))
    (lower : base ≤ index) (upper : index < base + size)
    (inside : base + size ≤ shifts.size) (enough : size ≤ fuel + 1) :
    narrow shifts symbol fuel base size = index := by
  induction fuel generalizing base size with
  | zero =>
      simp only [narrow]
      omega
  | succ fuel ih =>
      simp only [narrow]
      by_cases single : size ≤ 1
      · rw [if_pos single]
        omega
      · rw [if_neg single]
        have middleInside : base + size / 2 < shifts.size := by omega
        have middleFound := Array.getElem?_eq_getElem middleInside
        simp only [middleFound]
        by_cases beyond : index < base + size / 2
        · have later := ascending.key_lt beyond found middleFound
          rw [decide_eq_true later, if_pos rfl]
          exact ih lower (by omega) (by omega) (by omega)
        · have notLater : ¬ symbol < shifts[base + size / 2].1 := by
            rcases Nat.lt_or_eq_of_le (Nat.le_of_not_lt beyond) with less | same
            · exact Nat.lt_asymm (ascending.key_lt less middleFound found)
            · subst same
              rw [found] at middleFound
              rw [← Option.some.inj middleFound]
              exact Nat.lt_irrefl _
          rw [decide_eq_false notLater, if_neg Bool.false_ne_true]
          exact ih (by omega) (by omega) (by omega) (by omega)

/-- The search makes no entry up, in whatever order the shifts are. -/
theorem mem_shifts_of_target? (found : state.target? symbol = some target) :
    (symbol, target) ∈ state.shifts.toList := by
  unfold target? at found
  split at found
  · rename_i key reached entry
    split at found
    · rename_i same
      cases found
      subst same
      exact Array.mem_toList_iff.2 (Array.mem_of_getElem? entry)
    · cases found
  · cases found

/-- The binary search neither misses an entry nor makes one up. -/
theorem target?_eq_some_iff (ascending : Ascends state.shifts) :
    state.target? symbol = some target ↔ (symbol, target) ∈ state.shifts.toList := by
  constructor
  · exact mem_shifts_of_target?
  · intro member
    obtain ⟨index, inside, same⟩ := List.mem_iff_getElem.1 member
    have entry : state.shifts[index]? = some (symbol, target) := by
      rw [Array.length_toList] at inside
      rw [Array.getElem?_eq_getElem inside]
      exact congrArg some same
    have bound : index < state.shifts.size := by simpa using inside
    have reached : narrow state.shifts symbol state.shifts.size 0 state.shifts.size = index :=
      narrow_eq ascending entry (by omega) (by omega) (by omega) (by omega)
    simp [target?, reached, entry]

end State

end QueryGrammar
