import QueryGrammar.Proofs.Meaning.Permuted
import QueryGrammar.Proofs.Meaning.Sharing

namespace QueryGrammar

/-! Meanings that are legal all the way down.

Main statement: an open meaning whose innermost function is given legal arguments becomes legal, and
one that is given another open meaning goes on waiting.
-/

open Std

variable {κ : Type}

/-- Functions that take so many arguments. -/
def Concept.Takes (concept : Concept κ) (count : Nat) : Prop :=
  ∃ fewest most exclusive people, concept.kind = .function fewest most exclusive people ∧
    fewest ≤ count ∧ count ≤ most

instance (concept : Concept κ) (count : Nat) : Decidable (concept.Takes count) :=
  match kind : concept.kind with
  | .argument => .isFalse fun ⟨_, _, _, _, same, _⟩ => by simp [kind] at same
  | .function fewest most exclusive people =>
      decidable_of_iff (fewest ≤ count ∧ count ≤ most)
        ⟨fun fits => ⟨fewest, most, exclusive, people, kind, fits⟩,
          fun ⟨_, _, _, _, same, fits⟩ => by
            rw [kind] at same
            cases same
            exact fits⟩

theorem Concept.Takes.isArgument {concept : Concept κ} {count : Nat} (takes : concept.Takes count) :
    concept.isArgument = false := by
  obtain ⟨fewest, most, exclusive, people, kind, -⟩ := takes
  simp [Concept.isArgument, kind]

namespace Meaning

mutual

/-- A meaning, and every meaning in it. -/
def parts : Meaning κ → List (Meaning κ)
  | .apply concept args => .apply concept args :: partsAll args

def partsAll : List (Meaning κ) → List (Meaning κ)
  | [] => []
  | first :: rest => parts first ++ partsAll rest

end

/-- Siblings in order that may stand side by side. -/
structure Coexist (siblings : List (Meaning κ)) : Prop where
  ascends : siblings.Pairwise fun first second => order first second = .lt
  exclusive : siblings.Pairwise fun first second =>
    first.concept.isExclusive = true → first.name ≠ second.name
  uniform : ∀ first ∈ siblings, ∀ second ∈ siblings, first.isArgument = false →
    second.isArgument = false → first.concept.isPeople = second.concept.isPeople

/-- A function that is given as many arguments as it takes. -/
structure Applied (meaning : Meaning κ) : Prop where
  given : meaning.args ≠ []
  takes : meaning.concept.Takes meaning.args.length
  coexist : Coexist meaning.args

/-- No function is left without arguments, and all are given what they take. -/
def Legal (meaning : Meaning κ) : Prop :=
  ∀ part ∈ meaning.parts, part.isArgument = false → part.Applied

/-- A function without arguments, within functions that take a single one. -/
inductive OpenChain : Meaning κ → Prop
  | bare {concept : Concept κ} : concept.isArgument = false → OpenChain (.leaf concept)
  | around {concept : Concept κ} {inner : Meaning κ} : concept.Takes 1 → inner.OpenChain →
      OpenChain (.apply concept [inner])

/-- Legal, or waiting for the arguments that make it so. -/
def Proper (meaning : Meaning κ) : Prop :=
  meaning.Legal ∨ meaning.OpenChain

instance (siblings : List (Meaning κ)) : Decidable (Coexist siblings) :=
  decidable_of_iff (_ ∧ _ ∧ _) ⟨fun ⟨ascends, exclusive, uniform⟩ => ⟨ascends, exclusive, uniform⟩,
    fun coexist => ⟨coexist.ascends, coexist.exclusive, coexist.uniform⟩⟩

instance (meaning : Meaning κ) : Decidable meaning.Applied :=
  decidable_of_iff (meaning.args.isEmpty = false ∧ _ ∧ _)
    ⟨fun ⟨given, takes, coexist⟩ => ⟨by simpa using given, takes, coexist⟩,
      fun applied => ⟨by simpa using applied.given, applied.takes, applied.coexist⟩⟩

instance (meaning : Meaning κ) : Decidable meaning.Legal :=
  inferInstanceAs (Decidable (∀ part ∈ meaning.parts, part.isArgument = false → part.Applied))

instance decidableOpenChain : (meaning : Meaning κ) → Decidable meaning.OpenChain
  | .apply concept [] => decidable_of_iff (concept.isArgument = false)
      ⟨.bare, fun chain => by cases chain; assumption⟩
  | .apply concept [inner] =>
      have := decidableOpenChain inner
      decidable_of_iff (concept.Takes 1 ∧ inner.OpenChain)
        ⟨fun ⟨takes, chain⟩ => .around takes chain, fun chain => by
          cases chain with
          | around takes chain => exact ⟨takes, chain⟩⟩
  | .apply _ (_ :: _ :: _) => .isFalse fun chain => by cases chain

instance (meaning : Meaning κ) : Decidable meaning.Proper :=
  inferInstanceAs (Decidable (_ ∨ _))

variable {concept : Concept κ} {args siblings arranged : List (Meaning κ)}
  {meaning part first second result : Meaning κ}

theorem mem_partsAll : part ∈ partsAll siblings ↔ ∃ meaning ∈ siblings, part ∈ meaning.parts := by
  induction siblings with
  | nil => simp [partsAll]
  | cons first rest ih => simp [partsAll, ih]

theorem mem_parts_apply : part ∈ (apply concept args).parts ↔
    part = .apply concept args ∨ ∃ arg ∈ args, part ∈ arg.parts := by
  rw [parts, List.mem_cons, mem_partsAll]

theorem legal_apply : (apply concept args).Legal ↔
    (concept.isArgument = false → (apply concept args).Applied) ∧ ∀ arg ∈ args, arg.Legal := by
  simp only [Legal, mem_parts_apply, forall_eq_or_imp]
  refine and_congr_right fun _ => ⟨fun all arg member part inside => ?_, fun all part inside => ?_⟩
  · exact all part ⟨arg, member, inside⟩
  · obtain ⟨arg, member, within⟩ := inside
    exact all arg member part within

theorem legal_entity [Cost κ] (id : String) : (entity id : Meaning κ).Legal :=
  legal_apply.2 ⟨(nomatch ·), List.forall_mem_nil _⟩

theorem Legal.isOpen : (meaning : Meaning κ) → meaning.Legal → meaning.isOpen = false
  | .apply concept [], legal => by
      cases argument : concept.isArgument with
      | true => simp [Meaning.isOpen, argument]
      | false => exact absurd rfl ((legal_apply.1 legal).1 argument).given
  | .apply concept [only], legal => by
      have inner := Legal.isOpen only ((legal_apply.1 legal).2 only (List.mem_singleton_self _))
      simp [Meaning.isOpen, inner]
  | .apply concept (first :: second :: rest), _ => by simp [Meaning.isOpen]

theorem OpenChain.isOpen (chain : meaning.OpenChain) : meaning.isOpen = true := by
  induction chain with
  | bare function => simp [leaf, Meaning.isOpen, function]
  | around takes _ ih => simp [Meaning.isOpen, takes.isArgument, ih]

theorem Proper.legal (proper : meaning.Proper) (closed : meaning.isOpen = false) : meaning.Legal :=
  proper.resolve_right fun chain => by simp [chain.isOpen] at closed

theorem Proper.openChain (proper : meaning.Proper) (opened : meaning.isOpen = true) :
    meaning.OpenChain :=
  proper.resolve_left fun legal => by simp [legal.isOpen] at opened

/-! Arranging siblings. -/

theorem compare_name_of_order (before : order first second = .lt) :
    (compare first.name second.name).isLE = true := by
  obtain ⟨concept, args⟩ := first
  obtain ⟨other, others⟩ := second
  rw [order] at before
  show (compare concept.name other.name).isLE = true
  cases names : compare concept.name other.name <;> simp_all [Ordering.then]

/-- Equal names stand together in order, so it is enough to compare neighbours. -/
theorem exclusive_of_neighboursAgree
    (ascends : siblings.Pairwise fun first second => order first second = .lt)
    (agrees : neighboursAgree siblings = true) :
    siblings.Pairwise fun first second =>
      first.concept.isExclusive = true → first.name ≠ second.name := by
  induction siblings with
  | nil => exact .nil
  | cons first rest ih =>
      obtain ⟨before, later⟩ := List.pairwise_cons.1 ascends
      cases rest with
      | nil => exact List.pairwise_singleton ..
      | cons second rest =>
          simp only [neighboursAgree, Bool.and_eq_true] at agrees
          obtain ⟨own, others⟩ := agrees
          refine List.pairwise_cons.2 ⟨fun other member alone same => ?_, ih later others⟩
          have next : first.name = second.name := by
            rcases List.mem_cons.1 member with rfl | beyond
            · exact same
            · have below := compare_name_of_order (before second (List.mem_cons_self ..))
              have above :=
                compare_name_of_order ((List.pairwise_cons.1 later).1 other beyond)
              rw [← same] at above
              exact Std.compare_eq_iff_eq.1 (OrientedCmp.isLE_antisymm below above)
          simp [agree, alone, next] at own

theorem uniform_of_isUniform (uniform : isUniform siblings = true) :
    ∀ first ∈ siblings, ∀ second ∈ siblings, first.isArgument = false →
      second.isArgument = false → first.concept.isPeople = second.concept.isPeople := by
  intro first member second also function functionAlso
  have own : first ∈ siblings.filter (!·.isArgument) := List.mem_filter.2 ⟨member, by simp [function]⟩
  have other : second ∈ siblings.filter (!·.isArgument) :=
    List.mem_filter.2 ⟨also, by simp [functionAlso]⟩
  unfold isUniform at uniform
  cases functions : siblings.filter (!·.isArgument) with
  | nil => simp [functions] at own
  | cons lead rest =>
      rw [functions] at own other
      simp only [functions, List.all_eq_true, beq_iff_eq] at uniform
      have like : ∀ meaning ∈ lead :: rest, meaning.concept.isPeople = lead.concept.isPeople :=
        List.forall_mem_cons.2 ⟨rfl, uniform⟩
      rw [like first own, like second other]

theorem coexist_of_arrange? (made : arrange? siblings = some arranged) : Coexist arranged := by
  simp only [arrange?] at made
  split at made
  · rename_i fits
    cases made
    obtain ⟨agrees, uniform⟩ := Bool.and_eq_true_iff.1 fits
    have ascends := ascends_of_neighboursAgree (mergeSort_pairwise siblings) agrees
    exact ⟨ascends, exclusive_of_neighboursAgree ascends agrees, uniform_of_isUniform uniform⟩
  · cases made

theorem arrange?_singleton (only : Meaning κ) : arrange? [only] = some [only] := by
  have uniform : isUniform [only] = true := by
    cases argument : only.isArgument <;> simp [isUniform, argument]
  simp [arrange?, neighboursAgree, uniform]

theorem application?_eq_some_iff : application? concept siblings = some result ↔
    ∃ args, arrange? siblings = some args ∧ concept.Takes args.length ∧
      result = .apply concept args := by
  unfold application? Concept.Takes
  cases kind : concept.kind with
  | argument => simp
  | function fewest most exclusive people =>
      cases arranged : arrange? siblings with
      | none => simp
      | some args =>
          simp only [Option.some.injEq, exists_eq_left', ConceptKind.function.injEq]
          split
          · rename_i fits
            refine ⟨fun same => ?_, fun ⟨_, same⟩ => same ▸ rfl⟩
            exact ⟨⟨_, _, _, _, ⟨rfl, rfl, rfl, rfl⟩, fits⟩, (Option.some.inj same).symm⟩
          · rename_i misfits
            refine ⟨fun same => (nomatch same), fun given => ?_⟩
            obtain ⟨⟨_, _, _, _, ⟨rfl, rfl, -, -⟩, fits⟩, -⟩ := given
            exact absurd fits misfits

/-- A function applied to legal meanings is legal. -/
theorem application?_legal (made : application? concept siblings = some result)
    (some : siblings ≠ []) (legal : ∀ sibling ∈ siblings, sibling.Legal) : result.Legal := by
  obtain ⟨args, arranged, takes, rfl⟩ := application?_eq_some_iff.1 made
  have perm := arrange?_perm arranged
  have given : args ≠ [] := fun nothing => some (List.nil_perm.1 (nothing ▸ perm))
  exact legal_apply.2 ⟨fun _ => ⟨given, takes, coexist_of_arrange? arranged⟩,
    fun arg member => legal arg (perm.mem_iff.1 member)⟩

/-- An open meaning becomes legal once its innermost function is given legal arguments. -/
theorem OpenChain.fill?_legal (chain : meaning.OpenChain)
    (made : meaning.fill? siblings = some result) (some : siblings ≠ [])
    (legal : ∀ sibling ∈ siblings, sibling.Legal) : result.Legal := by
  induction chain generalizing result with
  | bare function =>
      rw [leaf, fill?] at made
      exact application?_legal made some legal
  | @around concept inner takes chain ih =>
      rw [fill?] at made
      cases filled : inner.fill? siblings with
      | none => simp [filled] at made
      | some middle =>
          simp only [filled] at made
          exact application?_legal made (by simp) (by simpa using ih filled)

/-- An open meaning around another one waits for the arguments of that one. -/
theorem OpenChain.fill?_openChain {only : Meaning κ} (chain : meaning.OpenChain)
    (waits : only.OpenChain) (made : meaning.fill? [only] = some result) : result.OpenChain := by
  have around : ∀ {concept : Concept κ} {inner result : Meaning κ}, inner.OpenChain →
      application? concept [inner] = some result → result.OpenChain := by
    intro concept inner result waits made
    obtain ⟨args, arranged, takes, rfl⟩ := application?_eq_some_iff.1 made
    rw [arrange?_singleton] at arranged
    cases arranged
    exact .around takes waits
  induction chain generalizing result with
  | bare function =>
      rw [leaf, fill?] at made
      exact around waits made
  | @around concept inner takes chain ih =>
      rw [fill?] at made
      cases filled : inner.fill? [only] with
      | none => simp [filled] at made
      | some middle =>
          simp only [filled] at made
          exact around (ih filled) made

end Meaning

/-- The roots can coexist, and all of them are legal. -/
structure Interpretation.Legal (interpretation : Interpretation κ) : Prop where
  coexist : Meaning.Coexist interpretation.roots
  roots : ∀ root ∈ interpretation.roots, root.Legal

end QueryGrammar
