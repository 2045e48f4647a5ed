import Mathlib.Data.List.Pairwise
import Mathlib.Data.List.Perm.Basic
import QueryGrammar.Meaning.Interpretation
import QueryGrammar.Proofs.Meaning.Order
import QueryGrammar.Search.Frame

namespace QueryGrammar

/-! Siblings in another order.

Main statement: what siblings can be arranged, applied, combined and closed to does not depend on
the order in which they come; where they are handed on loose, the same ones are handed on.
-/

open Std

variable {κ : Type}

namespace Meaning

variable {siblings others arranged : List (Meaning κ)}

theorem isBefore_iff {first second : Meaning κ} :
    isBefore first second = true ↔ (order first second).isLE = true := by
  unfold isBefore
  cases order first second <;> decide

theorem mergeSort_pairwise (siblings : List (Meaning κ)) :
    (siblings.mergeSort isBefore).Pairwise fun first second => isBefore first second = true := by
  refine List.pairwise_mergeSort (fun first second third one two => ?_)
    (fun first second => ?_) siblings
  · exact isBefore_iff.2 (TransCmp.isLE_trans (isBefore_iff.1 one) (isBefore_iff.1 two))
  · rw [Bool.or_eq_true, isBefore_iff, isBefore_iff, order_swap second first]
    cases order first second <;> decide

/-- Siblings in order whose neighbours can coexist are strictly in order. -/
theorem ascends_of_neighboursAgree
    (sorted : siblings.Pairwise fun first second => isBefore first second = true)
    (agrees : neighboursAgree siblings = true) :
    siblings.Pairwise fun first second => order first second = .lt := by
  induction siblings with
  | nil => exact .nil
  | cons first rest ih =>
      obtain ⟨before, tail⟩ := List.pairwise_cons.1 sorted
      cases rest with
      | nil => exact List.pairwise_singleton ..
      | cons second rest =>
          simp only [neighboursAgree, Bool.and_eq_true] at agrees
          obtain ⟨own, others⟩ := agrees
          have ascends := ih tail others
          have apart : order first second ≠ .eq := by
            intro equal
            simp [agree, BEq.beq, equal] at own
          have next : order first second = .lt := by
            have least := isBefore_iff.1 (before second (List.mem_cons_self ..))
            cases compared : order first second with
            | lt => rfl
            | eq => exact absurd compared apart
            | gt => simp [compared] at least
          refine List.pairwise_cons.2 ⟨fun other member => ?_, ascends⟩
          rcases List.mem_cons.1 member with rfl | later
          · exact next
          · exact TransCmp.lt_trans next ((List.pairwise_cons.1 ascends).1 other later)

theorem eq_of_order_eq {first second : Meaning κ}
    (ascends : siblings.Pairwise fun first second => order first second = .lt)
    (member : first ∈ siblings) (also : second ∈ siblings) (same : order first second = .eq) :
    first = second := by
  by_contra apart
  have differ : siblings.Pairwise fun first second => order first second ≠ .eq :=
    ascends.imp fun less => by simp [less]
  have symmetric : Symm fun first second : Meaning κ => order first second ≠ .eq :=
    ⟨fun _ _ other equal => other (OrientedCmp.eq_symm equal)⟩
  exact differ.forall member also apart same

/-- Siblings that can coexist are put into one order, however they come. -/
theorem mergeSort_eq_of_perm (perm : siblings.Perm others)
    (agrees : neighboursAgree (siblings.mergeSort isBefore) = true) :
    others.mergeSort isBefore = siblings.mergeSort isBefore := by
  have same : (others.mergeSort isBefore).Perm (siblings.mergeSort isBefore) :=
    (List.mergeSort_perm ..).trans (perm.symm.trans (List.mergeSort_perm ..).symm)
  have ascends := ascends_of_neighboursAgree (mergeSort_pairwise siblings) agrees
  refine same.eq_of_pairwise (fun first second member also before after => ?_)
    (mergeSort_pairwise others) (mergeSort_pairwise siblings)
  have equal : order first second = .eq := by
    have least := isBefore_iff.1 before
    have most := isBefore_iff.1 after
    rw [order_swap] at most
    cases compared : order first second with
    | eq => rfl
    | lt => simp [compared] at most
    | gt => simp [compared] at least
  exact eq_of_order_eq ascends (same.mem_iff.1 member) also equal

theorem arrange?_eq_some_of_perm (perm : siblings.Perm others)
    (made : arrange? siblings = some arranged) : arrange? others = some arranged := by
  simp only [arrange?] at made ⊢
  split at made
  · rename_i fits
    rw [mergeSort_eq_of_perm perm (Bool.and_eq_true_iff.1 fits).1, if_pos fits, made]
  · cases made

theorem arrange?_eq_of_perm (perm : siblings.Perm others) : arrange? siblings = arrange? others :=
  Option.ext fun _ => ⟨arrange?_eq_some_of_perm perm, arrange?_eq_some_of_perm perm.symm⟩

theorem application?_eq_of_perm (concept : Concept κ) (perm : siblings.Perm others) :
    application? concept siblings = application? concept others := by
  unfold application?
  rw [arrange?_eq_of_perm perm]

theorem fill?_eq_of_perm (perm : siblings.Perm others) :
    (meaning : Meaning κ) → meaning.fill? siblings = meaning.fill? others
  | .apply concept [] => by simp only [fill?, application?_eq_of_perm concept perm]
  | .apply concept [inner] => by simp only [fill?, fill?_eq_of_perm perm inner]
  | .apply concept (first :: second :: rest) => by simp only [fill?]

end Meaning

namespace Frame

variable {meaning : Option (Meaning κ)} {args others : List (Meaning κ)}

theorem combine?_perm (perm : args.Perm others) :
    Option.Rel List.Perm (combine? args) (combine? others) := by
  have opened := perm.filter Meaning.isOpen
  have closed := perm.filter (!·.isOpen)
  unfold combine?
  generalize args.filter Meaning.isOpen = first at opened ⊢
  generalize others.filter Meaning.isOpen = second at opened ⊢
  generalize args.filter (!·.isOpen) = left at closed ⊢
  generalize others.filter (!·.isOpen) = right at closed ⊢
  rcases first with - | ⟨only, - | ⟨more, rest⟩⟩
  · rw [List.nil_perm.1 opened]
    exact .some perm
  · rw [List.perm_singleton.1 opened.symm]
    rcases left with - | ⟨head, tail⟩
    · rw [List.nil_perm.1 closed]
      exact .some perm
    · rcases right with - | ⟨head', tail'⟩
      · exact absurd closed.length_eq (by simp)
      · simp only [Meaning.fill?_eq_of_perm closed only]
        cases only.fill? (head' :: tail') with
        | none => exact .none
        | some filled => exact .some (List.Perm.refl _)
  · rcases second with - | ⟨only', - | ⟨more', rest'⟩⟩
    · exact absurd opened.length_eq (by simp)
    · exact absurd opened.length_eq (by simp)
    · exact .none

theorem close?_perm (perm : args.Perm others) :
    Option.Rel List.Perm (close? ⟨meaning, args⟩) (close? ⟨meaning, others⟩) := by
  have combined := combine?_perm perm
  unfold close?
  generalize combine? args = first at combined
  generalize combine? others = second at combined
  cases combined with
  | none => exact .none
  | some same =>
      rename_i first second
      cases meaning with
      | none => exact .some same
      | some meaning =>
          simp only
          split
          · cases first with
            | nil =>
                rw [List.nil_perm.1 same]
                exact .some (.refl _)
            | cons head tail =>
                cases second with
                | nil => exact absurd same.length_eq (by simp)
                | cons head' tail' =>
                    simp only [Meaning.fill?_eq_of_perm same meaning]
                    cases meaning.fill? (head' :: tail') with
                    | none => exact .none
                    | some filled => exact .some (.refl _)
          · exact .some (same.append_right _)

end Frame

theorem Interpretation.ofRoots?_eq_of_perm {roots others : List (Meaning κ)}
    (perm : roots.Perm others) : ofRoots? roots = ofRoots? others := by
  have opened : roots.any Meaning.isOpen = others.any Meaning.isOpen := perm.any_eq
  simp only [ofRoots?, opened, Meaning.arrange?_eq_of_perm perm]

end QueryGrammar
