namespace QueryGrammar

/-! Loops that set no bound beforehand.

Main statement: a loop ends if what is left gets less with every turn, and a function that takes a
bound gives what the loop ends with if the bound is no less than what is left.
-/

/-- A loop, in each turn of which a state leads to another one or to a result, ends with a result
after a number of turns. -/
inductive Halts {σ ρ : Type} (turn : σ → σ ⊕ ρ) : Nat → σ → ρ → Prop
  | last {state : σ} {result : ρ} (ended : turn state = .inr result) : Halts turn 1 state result
  | next {turns : Nat} {state later : σ} {result : ρ} (goes : turn state = .inl later)
      (rest : Halts turn turns later result) : Halts turn (turns + 1) state result

variable {σ ρ : Type} {turn : σ → σ ⊕ ρ}

theorem halts_of_bounded (run : Nat → σ → ρ) (size : σ → Nat)
    (idle : ∀ state, size state = 0 → turn state = .inr (run 0 state))
    (step : ∀ bound state, turn state = .inr (run (bound + 1) state) ∨
      ∃ later, turn state = .inl later ∧ size later < size state ∧
        run (bound + 1) state = run bound later)
    {bound : Nat} {state : σ} (enough : size state ≤ bound) :
    ∃ turns ≤ bound + 1, Halts turn turns state (run bound state) := by
  induction bound generalizing state with
  | zero => exact ⟨1, Nat.le_refl 1, .last (idle state (Nat.le_zero.1 enough))⟩
  | succ bound ih =>
      rcases step bound state with ended | ⟨later, goes, less, same⟩
      · exact ⟨1, Nat.le_add_left 1 _, .last ended⟩
      · obtain ⟨turns, few, rest⟩ := ih (Nat.le_of_lt_succ (Nat.lt_of_lt_of_le less enough))
        exact ⟨turns + 1, Nat.succ_le_succ few, .next goes (same ▸ rest)⟩

theorem exists_halts (size : σ → Nat) (result : σ → ρ)
    (ended : ∀ state final, turn state = .inr final → final = result state)
    (goes : ∀ state later, turn state = .inl later →
      size later < size state ∧ result later = result state)
    (state : σ) : ∃ turns ≤ size state + 1, Halts turn turns state (result state) := by
  have step : ∀ state, turn state = .inr (result state) ∨
      ∃ later, turn state = .inl later ∧ size later < size state ∧ result state = result later := by
    intro state
    cases taken : turn state with
    | inr final => exact .inl (congrArg Sum.inr (ended state final taken))
    | inl later =>
        obtain ⟨less, same⟩ := goes state later taken
        exact .inr ⟨later, rfl, less, same.symm⟩
  refine halts_of_bounded (fun _ => result) size (fun state nothing => ?_) (fun _ => step)
    (Nat.le_refl _)
  rcases step state with ended | ⟨later, goes, less, same⟩
  · exact ended
  · exact absurd (nothing ▸ less) (Nat.not_lt_zero _)

end QueryGrammar
