namespace QueryGrammar

/-! Checks that go through a list and stop at the first failure. -/

def checkAll (check : α → Except ε Unit) : List α → Except ε Unit
  | [] => .ok ()
  | first :: rest =>
      match check first with
      | .ok () => checkAll check rest
      | .error cause => .error cause

def mapAll (f : α → Except ε β) : List α → Except ε (List β)
  | [] => .ok []
  | first :: rest =>
      match f first with
      | .ok value =>
          match mapAll f rest with
          | .ok values => .ok (value :: values)
          | .error cause => .error cause
      | .error cause => .error cause

def require (condition : Bool) (cause : ε) : Except ε Unit :=
  if condition then .ok () else .error cause

theorem checkAll_ok_iff {check : α → Except ε Unit} {values : List α} :
    checkAll check values = .ok () ↔ ∀ value ∈ values, check value = .ok () := by
  induction values with
  | nil => simp [checkAll]
  | cons first rest step =>
      simp only [checkAll, List.mem_cons, forall_eq_or_imp]
      cases found : check first with
      | ok value => simp [step]
      | error cause => simp

theorem exists_ok_mapAll {f : α → Except ε β} {values : List α}
    (each : ∀ value ∈ values, ∃ result, f value = .ok result) :
    ∃ results, mapAll f values = .ok results := by
  induction values with
  | nil => exact ⟨[], rfl⟩
  | cons first rest step =>
      obtain ⟨own, others⟩ := List.forall_mem_cons.1 each
      obtain ⟨result, head⟩ := own
      obtain ⟨results, tail⟩ := step others
      exact ⟨result :: results, by simp only [mapAll, head, tail]⟩

theorem exists_ok_of_mapAll {f : α → Except ε β} {values : List α} {results : List β}
    (mapped : mapAll f values = .ok results) : ∀ value ∈ values, ∃ result, f value = .ok result := by
  induction values generalizing results with
  | nil => nofun
  | cons first rest step =>
      simp only [mapAll] at mapped
      split at mapped
      · rename_i result head
        split at mapped
        · rename_i tail
          exact List.forall_mem_cons.2 ⟨⟨result, head⟩, step tail⟩
        · cases mapped
      · cases mapped

theorem length_of_mapAll {f : α → Except ε β} {values : List α} {results : List β}
    (mapped : mapAll f values = .ok results) : results.length = values.length := by
  induction values generalizing results with
  | nil => cases mapped; rfl
  | cons first rest step =>
      simp only [mapAll] at mapped
      split at mapped
      · split at mapped
        · rename_i tail
          cases mapped
          simp [step tail]
        · cases mapped
      · cases mapped

theorem getElem?_of_mapAll {f : α → Except ε β} {values : List α} {results : List β}
    {index : Nat} {result : β} (mapped : mapAll f values = .ok results)
    (found : results[index]? = some result) :
    ∃ value, values[index]? = some value ∧ f value = .ok result := by
  induction values generalizing results index with
  | nil => cases mapped; simp at found
  | cons first rest step =>
      simp only [mapAll] at mapped
      split at mapped
      · rename_i head
        split at mapped
        · rename_i tail
          cases mapped
          cases index with
          | zero =>
              cases found
              exact ⟨first, rfl, head⟩
          | succ index => exact step tail found
        · cases mapped
      · cases mapped

end QueryGrammar
