import Mathlib.Data.List.Pairwise
import QueryGrammar.Proofs.Meaning.Legal

namespace QueryGrammar

/-! Meanings that can be completed.

Main statement: a meaning whose functions take the arguments that they are given can be completed
just if no function in it that has none stands beside others or takes none.
-/

variable {κ : Type}

/-- Functions that take some number of arguments. -/
def Concept.TakesSome (concept : Concept κ) : Prop :=
  ∃ count, 0 < count ∧ concept.Takes count

instance (concept : Concept κ) : Decidable concept.TakesSome :=
  match kind : concept.kind with
  | .argument => .isFalse fun ⟨_, _, takes⟩ => by
      have argument := takes.isArgument
      simp [Concept.isArgument, kind] at argument
  | .function fewest most exclusive people =>
      decidable_of_iff (0 < most ∧ fewest ≤ most)
        ⟨fun ⟨positive, fits⟩ => ⟨most, positive, fewest, most, exclusive, people, kind, fits, Nat.le_refl most⟩,
          fun ⟨count, positive, _, _, _, _, same, enough, few⟩ => by
            rw [kind] at same
            cases same
            omega⟩

namespace Meaning

/-- Every function takes the arguments that it is given. -/
def Checked (meaning : Meaning κ) : Prop :=
  ∀ part ∈ meaning.parts, part.args ≠ [] → part.Applied

/-- Whatever in a meaning waits for arguments is the only argument of its function, and waits for
something. -/
structure Placed (meaning : Meaning κ) : Prop where
  alone : ∀ part ∈ meaning.parts, part.args.length ≠ 1 → ∀ arg ∈ part.args, arg.isOpen = false
  takes : ∀ part ∈ meaning.parts, part.isArgument = false → part.args = [] →
    part.concept.TakesSome

instance (meaning : Meaning κ) : Decidable meaning.Placed :=
  decidable_of_iff ((∀ part ∈ meaning.parts, part.args.length ≠ 1 →
      ∀ arg ∈ part.args, arg.isOpen = false) ∧
    ∀ part ∈ meaning.parts, part.isArgument = false → part.args.isEmpty = true →
      part.concept.TakesSome)
    ⟨fun ⟨alone, takes⟩ => ⟨alone, fun part inside function bare =>
        takes part inside function (List.isEmpty_iff.2 bare)⟩,
      fun placed => ⟨placed.alone, fun part inside function bare =>
        placed.takes part inside function (List.isEmpty_iff.1 bare)⟩⟩

/-- Legal, or open within functions of a single argument so that some legal siblings make it
legal. -/
def Completable (meaning : Meaning κ) : Prop :=
  meaning.Legal ∨ meaning.OpenChain ∧ ∃ siblings result, siblings ≠ [] ∧
    (∀ sibling ∈ siblings, sibling.Legal) ∧ meaning.fill? siblings = some result ∧ result.Legal

variable {concept : Concept κ} {args siblings : List (Meaning κ)}
  {meaning arg inner result : Meaning κ} {count : Nat}

theorem checked_apply : (apply concept args).Checked ↔
    (args ≠ [] → (apply concept args).Applied) ∧ ∀ arg ∈ args, arg.Checked := by
  simp only [Checked, mem_parts_apply, forall_eq_or_imp]
  refine and_congr_right fun _ => ⟨fun all arg member part inside => ?_, fun all part inside => ?_⟩
  · exact all part ⟨arg, member, inside⟩
  · obtain ⟨arg, member, within⟩ := inside
    exact all arg member part within

theorem Placed.within (placed : (apply concept args).Placed) (member : arg ∈ args) :
    arg.Placed where
  alone part inside := placed.alone part (mem_parts_apply.2 (.inr ⟨arg, member, inside⟩))
  takes part inside := placed.takes part (mem_parts_apply.2 (.inr ⟨arg, member, inside⟩))

theorem placed_apply : (apply concept args).Placed ↔
    (args.length ≠ 1 → ∀ arg ∈ args, arg.isOpen = false) ∧
      (concept.isArgument = false → args = [] → concept.TakesSome) ∧ ∀ arg ∈ args, arg.Placed := by
  constructor
  · intro placed
    have own : apply concept args ∈ (apply concept args).parts := mem_parts_apply.2 (.inl rfl)
    exact ⟨placed.alone _ own, placed.takes _ own, fun arg member => placed.within member⟩
  · intro given
    obtain ⟨alone, takes, inner⟩ := given
    constructor
    · intro part inside
      rcases mem_parts_apply.1 inside with rfl | ⟨arg, member, within⟩
      · exact alone
      · exact (inner arg member).alone part within
    · intro part inside
      rcases mem_parts_apply.1 inside with rfl | ⟨arg, member, within⟩
      · exact takes
      · exact (inner arg member).takes part within

/-! Siblings to complete meanings with. -/

theorem order_eq_name {first second : Meaning κ} (same : order first second = .eq) :
    first.name = second.name := by
  cases first
  cases second
  rw [order, Ordering.then_eq_eq] at same
  exact Std.compare_eq_iff_eq.1 same.1

theorem neighboursAgree_of_pairwise
    (agrees : siblings.Pairwise fun first second => agree first second = true) :
    neighboursAgree siblings = true := by
  induction siblings with
  | nil => rfl
  | cons first rest ih =>
      cases rest with
      | nil => rfl
      | cons second rest =>
          obtain ⟨own, others⟩ := List.pairwise_cons.1 agrees
          exact Bool.and_eq_true_iff.2 ⟨own second (List.mem_cons_self ..), ih others⟩

/-- Arguments with different names can stand side by side. -/
theorem exists_arrange? (arguments : ∀ sibling ∈ siblings, sibling.isArgument = true)
    (distinct : siblings.Pairwise fun first second => first.name ≠ second.name) :
    ∃ arranged, arrange? siblings = some arranged := by
  have perm : (siblings.mergeSort isBefore).Perm siblings := List.mergeSort_perm ..
  have apart := perm.symm.pairwise distinct fun differ => Ne.symm differ
  have agrees : (siblings.mergeSort isBefore).Pairwise fun first second =>
      agree first second = true := by
    refine apart.imp_of_mem fun {first second} _ _ differ => ?_
    have other : (first == second) = false := by
      refine Bool.eq_false_iff.2 fun same => differ (order_eq_name ?_)
      exact eq_of_beq (show (order first second == .eq) = true from same)
    simp [agree, other, differ]
  have uniform : isUniform (siblings.mergeSort isBefore) = true := by
    have none : (siblings.mergeSort isBefore).filter (!·.isArgument) = [] :=
      List.filter_eq_nil_iff.2 fun sibling member => by
        simp [arguments sibling (perm.mem_iff.1 member)]
    rw [isUniform, none]
  exact ⟨_, if_pos (Bool.and_eq_true_iff.2 ⟨neighboursAgree_of_pairwise agrees, uniform⟩)⟩

/-- So many different arguments. -/
def sample [Cost κ] (count : Nat) : List (Meaning κ) :=
  (List.range count).map fun length => .entity (String.ofList (List.replicate length 'a'))

theorem exists_application? [Cost κ] (takes : concept.TakesSome) :
    ∃ siblings result, siblings ≠ [] ∧ (∀ sibling ∈ siblings, sibling.Legal) ∧
      application? concept siblings = some result := by
  obtain ⟨count, positive, takes⟩ := takes
  have arguments : ∀ sibling ∈ (sample count : List (Meaning κ)), sibling.isArgument = true := by
    simp [sample, entity, leaf, isArgument, Concept.isArgument, Meaning.concept]
  have distinct : (sample count : List (Meaning κ)).Pairwise fun first second =>
      first.name ≠ second.name := by
    refine List.pairwise_map.2 (List.nodup_range.imp fun differ same => differ ?_)
    have texts := String.ofList_injective same
    simpa using congrArg List.length texts
  obtain ⟨args, arranged⟩ := exists_arrange? arguments distinct
  have length : args.length = count := by
    simpa [sample] using (arrange?_perm arranged).length_eq
  refine ⟨sample count, .apply concept args, ?_, ?_, ?_⟩
  · exact List.ne_nil_of_length_pos (by simpa [sample] using positive)
  · simp [sample, legal_entity]
  · exact application?_eq_some_iff.2 ⟨args, arranged, length ▸ takes, rfl⟩

/-- An open meaning whose innermost function takes something can be given that. -/
theorem OpenChain.exists_fill? [Cost κ] (chain : meaning.OpenChain) (placed : meaning.Placed) :
    ∃ siblings result, siblings ≠ [] ∧ (∀ sibling ∈ siblings, sibling.Legal) ∧
      meaning.fill? siblings = some result := by
  induction chain with
  | bare function =>
      have takes := (placed_apply.1 placed).2.1 function rfl
      simpa only [leaf, fill?] using exists_application? takes
  | @around concept inner takes chain ih =>
      obtain ⟨siblings, middle, given, legal, filled⟩ :=
        ih (placed.within (List.mem_singleton_self inner))
      refine ⟨siblings, .apply concept [middle], given, legal, ?_⟩
      simp only [fill?, filled]
      exact application?_eq_some_iff.2 ⟨[middle], arrange?_singleton middle, takes, rfl⟩

/-- What can be given to an open meaning shows that its innermost function takes something. -/
theorem OpenChain.placed (chain : meaning.OpenChain) (filled : meaning.fill? siblings = some result)
    (given : siblings ≠ []) : meaning.Placed := by
  induction chain generalizing result with
  | @bare concept function =>
      rw [leaf, fill?] at filled
      obtain ⟨args, arranged, takes, rfl⟩ := application?_eq_some_iff.1 filled
      have length := (arrange?_perm arranged).length_eq
      refine placed_apply.2 ⟨by simp, fun _ _ => ⟨_, ?_, takes⟩, by simp⟩
      exact length ▸ List.length_pos_iff.2 given
  | @around concept inner takes chain ih =>
      rw [fill?] at filled
      cases middle : inner.fill? siblings with
      | none => simp [middle] at filled
      | some result =>
          exact placed_apply.2 ⟨by simp, by simp, List.forall_mem_singleton.2 (ih middle)⟩

/-! Meanings from their parts. -/

mutual

/-- Whatever holds of a meaning once it holds of its arguments holds of all. -/
theorem of_args {holds : Meaning κ → Prop}
    (step : ∀ concept args, (∀ arg ∈ args, holds arg) → holds (.apply concept args)) :
    (meaning : Meaning κ) → holds meaning
  | .apply concept args => step concept args (all_of_args step args)

theorem all_of_args {holds : Meaning κ → Prop}
    (step : ∀ concept args, (∀ arg ∈ args, holds arg) → holds (.apply concept args)) :
    (meanings : List (Meaning κ)) → ∀ meaning ∈ meanings, holds meaning
  | [] => List.forall_mem_nil _
  | first :: rest => List.forall_mem_cons.2 ⟨of_args step first, all_of_args step rest⟩

end

theorem Legal.placed (legal : meaning.Legal) : meaning.Placed := by
  induction meaning using of_args with
  | step concept args ih =>
      obtain ⟨own, inner⟩ := legal_apply.1 legal
      exact placed_apply.2 ⟨fun _ arg member => (inner arg member).isOpen,
        fun function bare => absurd bare (own function).given,
        fun arg member => ih arg member (inner arg member)⟩

theorem Checked.proper (checked : meaning.Checked) (placed : meaning.Placed) : meaning.Proper := by
  induction meaning using of_args with
  | step concept args ih =>
      obtain ⟨applied, checkedArgs⟩ := checked_apply.1 checked
      obtain ⟨alone, -, -⟩ := placed_apply.1 placed
      have proper : ∀ arg ∈ args, arg.Proper := fun arg member =>
        ih arg member (checkedArgs arg member) (placed.within member)
      rcases args with - | ⟨only, - | ⟨second, rest⟩⟩
      · cases argument : concept.isArgument with
        | true => exact .inl (legal_apply.2 ⟨by simp [argument], by simp⟩)
        | false => exact .inr (.bare argument)
      · have takes := (applied (List.cons_ne_nil _ _)).takes
        rcases proper only (List.mem_singleton_self only) with legal | chain
        · exact .inl (legal_apply.2 ⟨fun _ => applied (List.cons_ne_nil _ _),
            List.forall_mem_singleton.2 legal⟩)
        · exact .inr (.around takes chain)
      · have closed := alone (by simp)
        exact .inl (legal_apply.2 ⟨fun _ => applied (List.cons_ne_nil _ _), fun arg member =>
          (proper arg member).legal (closed arg member)⟩)

theorem Completable.placed (completable : meaning.Completable) : meaning.Placed := by
  rcases completable with legal | ⟨chain, siblings, result, given, -, filled, -⟩
  · exact legal.placed
  · exact chain.placed filled given

/-- Where functions take the arguments that they are given, a meaning can be completed just if what
waits for arguments in it is alone and waits for something. -/
theorem Checked.completable_iff [Cost κ] (checked : meaning.Checked) :
    meaning.Completable ↔ meaning.Placed := by
  refine ⟨Completable.placed, fun placed => ?_⟩
  rcases checked.proper placed with legal | chain
  · exact .inl legal
  · obtain ⟨siblings, result, given, legal, filled⟩ := chain.exists_fill? placed
    exact .inr ⟨chain, siblings, result, given, legal, filled, chain.fill?_legal filled given legal⟩

end Meaning

end QueryGrammar
