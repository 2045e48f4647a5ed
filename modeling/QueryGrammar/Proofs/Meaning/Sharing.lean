import QueryGrammar.Proofs.Meaning.Costless
import QueryGrammar.Search.Candidate

namespace QueryGrammar

/-! Sharing meanings.

Main statement: where names settle what kind a concept is, interning a meaning changes nothing but
what its concepts cost.
-/

open Std

variable {κ : Type} {kindOf : String → ConceptKind}

namespace Meaning

mutual

def concepts : Meaning κ → List (Concept κ)
  | .apply concept args => concept :: conceptsAll args

def conceptsAll : List (Meaning κ) → List (Concept κ)
  | [] => []
  | first :: rest => concepts first ++ conceptsAll rest

end

theorem mem_conceptsAll {meanings : List (Meaning κ)} {concept : Concept κ} :
    concept ∈ conceptsAll meanings ↔ ∃ meaning ∈ meanings, concept ∈ meaning.concepts := by
  induction meanings with
  | nil => simp [conceptsAll]
  | cons first rest ih => simp [conceptsAll, ih]

/-- Names settle the kinds of all concepts in a meaning. -/
def Kinded (kindOf : String → ConceptKind) (meaning : Meaning κ) : Prop :=
  ∀ concept ∈ meaning.concepts, concept.kind = kindOf concept.name

theorem kinded_apply {concept : Concept κ} {args : List (Meaning κ)} :
    (apply concept args).Kinded kindOf ↔
      concept.kind = kindOf concept.name ∧ ∀ meaning ∈ args, meaning.Kinded kindOf := by
  simp only [Kinded, concepts, List.mem_cons, forall_eq_or_imp, mem_conceptsAll]
  constructor
  · intro given
    obtain ⟨own, others⟩ := given
    exact ⟨own, fun meaning member concept inside => others concept ⟨meaning, member, inside⟩⟩
  · intro given
    obtain ⟨own, others⟩ := given
    exact ⟨own, fun concept ⟨meaning, member, inside⟩ => others meaning member concept inside⟩

mutual

theorem costless_eq_of_order : (first other : Meaning κ) → order first other = .eq →
    first.Kinded kindOf → other.Kinded kindOf → first.costless = other.costless
  | .apply concept args, .apply other others, same, kinded, also => by
      rw [order, Ordering.then_eq_eq, Std.compare_eq_iff_eq] at same
      obtain ⟨kind, inner⟩ := kinded_apply.1 kinded
      obtain ⟨kind', inner'⟩ := kinded_apply.1 also
      have concepts : concept.costless = other.costless := by
        simp only [Concept.costless, same.1, kind, kind']
      rw [costless, costless, concepts, costlessAll_eq_of_order args others same.2 inner inner']

theorem costlessAll_eq_of_order : (values others : List (Meaning κ)) →
    orderAll values others = .eq → (∀ meaning ∈ values, meaning.Kinded kindOf) →
    (∀ meaning ∈ others, meaning.Kinded kindOf) → costlessAll values = costlessAll others
  | [], [], _, _, _ => rfl
  | [], _ :: _, same, _, _ => by cases same
  | _ :: _, [], same, _, _ => by cases same
  | first :: rest, other :: others, same, kinded, also => by
      rw [orderAll, Ordering.then_eq_eq] at same
      rw [costlessAll, costlessAll,
        costless_eq_of_order first other same.1 (kinded first (List.mem_cons_self ..))
          (also other (List.mem_cons_self ..)),
        costlessAll_eq_of_order rest others same.2
          (fun meaning member => kinded meaning (List.mem_cons_of_mem _ member))
          fun meaning member => also meaning (List.mem_cons_of_mem _ member)]

end

theorem arrange?_perm {siblings arranged : List (Meaning κ)}
    (made : arrange? siblings = some arranged) : arranged.Perm siblings := by
  simp only [arrange?] at made
  split at made
  · cases made
    exact List.mergeSort_perm ..
  · cases made

theorem application?_eq_some {concept : Concept κ} {siblings : List (Meaning κ)}
    {result : Meaning κ} (made : application? concept siblings = some result) :
    ∃ args, args.Perm siblings ∧ result = .apply concept args := by
  unfold application? at made
  split at made
  · cases made
  · split at made
    · rename_i args arranged
      split at made
      · cases made
        exact ⟨args, arrange?_perm arranged, rfl⟩
      · cases made
    · cases made

theorem application?_kinded {concept : Concept κ} {siblings : List (Meaning κ)}
    {result : Meaning κ} (made : application? concept siblings = some result)
    (own : concept.kind = kindOf concept.name)
    (kinded : ∀ meaning ∈ siblings, meaning.Kinded kindOf) : result.Kinded kindOf := by
  obtain ⟨args, perm, rfl⟩ := application?_eq_some made
  exact kinded_apply.2 ⟨own, fun meaning member => kinded meaning (perm.mem_iff.1 member)⟩

/-- Filling an open meaning keeps whatever applying its concepts keeps. -/
theorem fill?_preserves {holds : Meaning κ → Prop}
    (inner : ∀ {concept args}, holds (.apply concept args) → ∀ meaning ∈ args, holds meaning)
    (applied : ∀ {concept args siblings result}, application? concept siblings = some result →
      holds (.apply concept args) → (∀ meaning ∈ siblings, holds meaning) → holds result) :
    (meaning : Meaning κ) → (siblings : List (Meaning κ)) → {result : Meaning κ} →
    meaning.fill? siblings = some result → holds meaning → (∀ meaning ∈ siblings, holds meaning) →
    holds result
  | .apply concept [], siblings, result, made, own, given => by
      rw [fill?] at made
      exact applied made own given
  | .apply concept [only], siblings, result, made, own, given => by
      rw [fill?] at made
      cases filled : only.fill? siblings with
      | none => simp [filled] at made
      | some middle =>
          simp only [filled] at made
          have kept := fill?_preserves inner applied only siblings filled
            (inner own only (List.mem_singleton.2 rfl)) given
          refine applied made own fun meaning member => ?_
          rw [List.mem_singleton.1 member]
          exact kept
  | .apply concept (first :: second :: rest), siblings, result, made, _, _ => by
      simp [fill?] at made

theorem fill?_kinded (meaning : Meaning κ) (siblings : List (Meaning κ)) {result : Meaning κ}
    (made : meaning.fill? siblings = some result) (own : meaning.Kinded kindOf)
    (kinded : ∀ meaning ∈ siblings, meaning.Kinded kindOf) : result.Kinded kindOf :=
  fill?_preserves (fun own => (kinded_apply.1 own).2)
    (fun made own => application?_kinded made (kinded_apply.1 own).1) meaning siblings made own
    kinded

end Meaning

namespace Frame

structure Kinded (kindOf : String → ConceptKind) (frame : Frame κ) : Prop where
  meaning : ∀ meaning, frame.meaning = some meaning → meaning.Kinded kindOf
  args : ∀ meaning ∈ frame.args, meaning.Kinded kindOf

theorem combine?_kinded {siblings combined : List (Meaning κ)}
    (made : combine? siblings = some combined)
    (kinded : ∀ meaning ∈ siblings, meaning.Kinded kindOf) :
    ∀ meaning ∈ combined, meaning.Kinded kindOf := by
  unfold combine? at made
  split at made
  · cases made
    exact kinded
  · rename_i only opened
    split at made
    · cases made
      exact kinded
    · obtain ⟨filled, filling, rfl⟩ := Option.map_eq_some_iff.1 made
      intro meaning member
      rw [List.mem_singleton.1 member]
      have member : only ∈ siblings.filter Meaning.isOpen := opened ▸ List.mem_singleton.2 rfl
      exact Meaning.fill?_kinded _ _ filling (kinded only (List.mem_filter.1 member).1)
        fun meaning member => kinded meaning (List.mem_filter.1 member).1
  · cases made

theorem close?_kinded {frame : Frame κ} {closed : List (Meaning κ)}
    (made : frame.close? = some closed) (kinded : frame.Kinded kindOf) :
    ∀ meaning ∈ closed, meaning.Kinded kindOf := by
  unfold close? at made
  split at made
  · cases made
  · rename_i args combined
    have argsKinded := combine?_kinded combined kinded.args
    split at made
    · cases made
      exact argsKinded
    · rename_i own meaningFound
      have ownKinded := kinded.meaning own meaningFound
      split at made
      · split at made
        · cases made
          intro meaning member
          rw [List.mem_singleton.1 member]
          exact ownKinded
        · obtain ⟨filled, filling, rfl⟩ := Option.map_eq_some_iff.1 made
          intro meaning member
          rw [List.mem_singleton.1 member]
          exact Meaning.fill?_kinded _ _ filling ownKinded argsKinded
      · cases made
        intro meaning member
        rcases List.mem_append.1 member with before | last
        · exact argsKinded meaning before
        · rw [List.mem_singleton.1 last]
          exact ownKinded

end Frame

theorem Interpretation.ofRoots?_kinded {roots : List (Meaning κ)}
    {interpretation : Interpretation κ} (made : ofRoots? roots = some interpretation)
    (kinded : ∀ meaning ∈ roots, meaning.Kinded kindOf) :
    ∀ meaning ∈ interpretation.roots, meaning.Kinded kindOf := by
  unfold ofRoots? at made
  split at made
  · cases made
  · obtain ⟨arranged, perm, rfl⟩ := Option.map_eq_some_iff.1 made
    exact fun meaning member => kinded meaning ((Meaning.arrange?_perm perm).mem_iff.1 member)

theorem Interpretation.costless_eq_of_beq {first second : Interpretation κ}
    (same : (first == second) = true) (kinded : ∀ meaning ∈ first.roots, meaning.Kinded kindOf)
    (also : ∀ meaning ∈ second.roots, meaning.Kinded kindOf) :
    first.costless = second.costless := by
  have equal : Meaning.orderAll first.roots second.roots = .eq := by simpa [BEq.beq] using same
  simp only [costless, ← Meaning.costlessAll_eq_map,
    Meaning.costlessAll_eq_of_order _ _ equal kinded also]

/-- A way to share meanings that changes only what their concepts cost, on the pools in use. -/
structure Sharing.Faithful (share : Sharing κ) (kindOf : String → ConceptKind)
    (InUse : Pool κ → Prop) : Prop where
  same : ∀ pool meaning, InUse pool → meaning.Kinded kindOf →
    (share pool meaning).1.costless = meaning.costless
  kinded : ∀ pool meaning, InUse pool → meaning.Kinded kindOf →
    (share pool meaning).1.Kinded kindOf
  inUse : ∀ pool meaning, InUse pool → meaning.Kinded kindOf → InUse (share pool meaning).2

theorem Sharing.Faithful.shareAll {share : Sharing κ} {InUse : Pool κ → Prop}
    (faithful : share.Faithful kindOf InUse) {pool : Pool κ} {meanings : List (Meaning κ)}
    (inUse : InUse pool) (kinded : ∀ meaning ∈ meanings, meaning.Kinded kindOf) :
    (Search.shareAll share pool meanings).1.map Meaning.costless =
        meanings.map Meaning.costless ∧
      (∀ meaning ∈ (Search.shareAll share pool meanings).1, meaning.Kinded kindOf) ∧
      InUse (Search.shareAll share pool meanings).2 := by
  induction meanings generalizing pool with
  | nil => exact ⟨rfl, kinded, inUse⟩
  | cons first rest ih =>
      have own := kinded first (List.mem_cons_self ..)
      obtain ⟨same, restKinded, later⟩ := ih (faithful.inUse pool first inUse own)
        fun meaning member => kinded meaning (List.mem_cons_of_mem _ member)
      refine ⟨?_, fun meaning member => ?_, later⟩
      · simp only [Search.shareAll, List.map_cons, same, faithful.same pool first inUse own]
      · rcases List.mem_cons.1 member with rfl | member
        · exact faithful.kinded pool first inUse own
        · exact restKinded meaning member

namespace Pool

/-- Whatever is found for a meaning is the same and has the kinds that names settle. -/
def Kinded (kindOf : String → ConceptKind) (pool : Pool κ) : Prop :=
  ∀ (meaning found : Meaning κ), pool.members[meaning]? = some found →
    Meaning.order meaning found = .eq ∧ found.Kinded kindOf

theorem kinded_empty : (empty : Pool κ).Kinded kindOf := by
  intro meaning found present
  simp [empty] at present

theorem intern_faithful : Sharing.Faithful (intern : Sharing κ) kindOf (Kinded kindOf) where
  same pool meaning inUse own := by
    unfold intern
    cases present : pool.members.get? meaning with
    | none => rfl
    | some found =>
        obtain ⟨same, kinded⟩ := inUse meaning found (by simpa using present)
        exact (Meaning.costless_eq_of_order _ _ same own kinded).symm
  kinded pool meaning inUse own := by
    unfold intern
    cases present : pool.members.get? meaning with
    | none => exact own
    | some found => exact (inUse meaning found (by simpa using present)).2
  inUse pool meaning inUse own := by
    unfold intern
    cases present : pool.members.get? meaning with
    | some found => exact inUse
    | none =>
        intro other found known
        simp only [TreeMap.getElem?_insert] at known
        split at known
        · rename_i same
          cases known
          exact ⟨OrientedCmp.eq_symm same, own⟩
        · exact inUse other found known

end Pool

end QueryGrammar
