import QueryGrammar.Meaning.Interpretation
import QueryGrammar.Proofs.Meaning.Order
import QueryGrammar.Search.Frame

namespace QueryGrammar

/-! Meanings without what their concepts cost.

Main statement: costs have no part in what meanings combine to, so leaving them out goes along with
arranging, filling and closing.
-/

open Std

variable {κ : Type}

def Concept.costless (concept : Concept κ) : Concept Unit :=
  ⟨concept.name, (), concept.kind⟩

namespace Meaning

mutual

def costless : Meaning κ → Meaning Unit
  | .apply concept args => .apply concept.costless (costlessAll args)

def costlessAll : List (Meaning κ) → List (Meaning Unit)
  | [] => []
  | first :: rest => costless first :: costlessAll rest

end

theorem costlessAll_eq_map (meanings : List (Meaning κ)) :
    costlessAll meanings = meanings.map costless := by
  induction meanings with
  | nil => rfl
  | cons first rest ih => rw [costlessAll, ih, List.map_cons]

@[simp] theorem costless_apply (concept : Concept κ) (args : List (Meaning κ)) :
    (apply concept args).costless = .apply concept.costless (args.map costless) := by
  rw [costless, costlessAll_eq_map]

@[simp] theorem isArgument_costless (concept : Concept κ) :
    concept.costless.isArgument = concept.isArgument := rfl

@[simp] theorem isExclusive_costless (concept : Concept κ) :
    concept.costless.isExclusive = concept.isExclusive := rfl

@[simp] theorem isPeople_costless (concept : Concept κ) :
    concept.costless.isPeople = concept.isPeople := rfl

@[simp] theorem concept_costless (meaning : Meaning κ) :
    meaning.costless.concept = meaning.concept.costless := by
  cases meaning
  rfl

@[simp] theorem name_costless (meaning : Meaning κ) : meaning.costless.name = meaning.name := by
  cases meaning
  rfl

mutual

theorem order_costless : (first other : Meaning κ) →
    order first.costless other.costless = order first other
  | .apply concept args, .apply other others => by
      simp only [costless_apply, order, ← costlessAll_eq_map, orderAll_costless args others]
      rfl

theorem orderAll_costless : (values others : List (Meaning κ)) →
    orderAll (costlessAll values) (costlessAll others) = orderAll values others
  | [], [] => rfl
  | [], _ :: _ => rfl
  | _ :: _, [] => rfl
  | first :: rest, other :: others => by
      simp only [costlessAll, orderAll, order_costless first other, orderAll_costless rest others]

end

theorem isOpen_costless : (meaning : Meaning κ) → meaning.costless.isOpen = meaning.isOpen
  | .apply concept [] => by simp [isOpen]
  | .apply concept [only] => by simp [isOpen, isOpen_costless only]
  | .apply concept (first :: second :: rest) => by simp [isOpen]

/-! What is displayed. -/

mutual

theorem text_costless : (meaning : Meaning κ) → meaning.costless.text = meaning.text
  | .apply concept args => by
      rw [costless, text, text, texts_costless args]
      rfl

theorem texts_costless : (meanings : List (Meaning κ)) →
    texts (costlessAll meanings) = texts meanings
  | [] => rfl
  | first :: rest => by rw [costlessAll, texts, texts, text_costless first, texts_costless rest]

end

mutual

theorem toObject_costless : (meaning : Meaning κ) → meaning.costless.toObject = meaning.toObject
  | .apply concept args => by
      rw [costless, toObject, toObject, toObjects_costless args]
      rfl

theorem toObjects_costless : (meanings : List (Meaning κ)) →
    toObjects (costlessAll meanings) = toObjects meanings
  | [] => rfl
  | first :: rest => by
      rw [costlessAll, toObjects, toObjects, toObject_costless first, toObjects_costless rest]

end

/-! Arranging siblings. -/

theorem agree_costless (first second : Meaning κ) :
    agree first.costless second.costless = agree first second := by
  simp only [agree, BEq.beq, order_costless, concept_costless, isExclusive_costless, name_costless]

theorem neighboursAgree_costless (siblings : List (Meaning κ)) :
    neighboursAgree (siblings.map costless) = neighboursAgree siblings := by
  induction siblings with
  | nil => rfl
  | cons first rest ih =>
      cases rest with
      | nil => rfl
      | cons second rest =>
          simp only [List.map_cons, neighboursAgree, agree_costless] at ih ⊢
          rw [ih]

theorem filter_costless (test : Meaning κ → Bool) (testUnit : Meaning Unit → Bool)
    (same : ∀ meaning, testUnit (costless meaning) = test meaning) (siblings : List (Meaning κ)) :
    (siblings.map costless).filter testUnit = (siblings.filter test).map costless := by
  rw [List.filter_map]
  congr 1
  exact List.filter_congr fun meaning _ => same meaning

theorem isUniform_costless (siblings : List (Meaning κ)) :
    isUniform (siblings.map costless) = isUniform siblings := by
  unfold isUniform
  rw [filter_costless (!·.isArgument) _ fun meaning => by simp [isArgument]]
  cases siblings.filter (!·.isArgument) with
  | nil => rfl
  | cons first rest => simp [List.all_map, Function.comp_def]

theorem arrange?_costless (siblings : List (Meaning κ)) :
    arrange? (siblings.map costless) = (arrange? siblings).map (List.map costless) := by
  have sorted : (siblings.map costless).mergeSort isBefore =
      (siblings.mergeSort isBefore).map costless :=
    (List.map_mergeSort fun first _ second _ => by simp only [isBefore, order_costless]).symm
  simp only [arrange?, sorted, neighboursAgree_costless, isUniform_costless]
  split <;> rfl

theorem application?_costless (concept : Concept κ) (siblings : List (Meaning κ)) :
    application? concept.costless (siblings.map costless) =
      (application? concept siblings).map costless := by
  obtain ⟨name, cost, kind⟩ := concept
  cases kind with
  | argument => rfl
  | function fewest most exclusive people =>
      simp only [application?, Concept.costless, arrange?_costless]
      cases arrange? siblings with
      | none => rfl
      | some args =>
          simp only [Option.map_some, List.length_map]
          split <;> simp [Concept.costless]

theorem fill?_costless : (meaning : Meaning κ) → (siblings : List (Meaning κ)) →
    meaning.costless.fill? (siblings.map costless) = (meaning.fill? siblings).map costless
  | .apply concept [], siblings => by
      simp only [costless_apply, List.map_nil, fill?, application?_costless]
  | .apply concept [inner], siblings => by
      simp only [costless_apply, List.map_cons, List.map_nil, fill?, fill?_costless inner siblings]
      cases inner.fill? siblings with
      | none => rfl
      | some filled =>
          simp only [Option.map_some]
          exact application?_costless concept [filled]
  | .apply concept (first :: second :: rest), siblings => by
      simp only [costless_apply, List.map_cons, fill?, Option.map_none]

end Meaning

/-! Frames. -/

namespace Frame

open Meaning

def costless (frame : Frame κ) : Frame Unit :=
  ⟨frame.meaning.map Meaning.costless, frame.args.map Meaning.costless⟩

theorem combine?_costless (siblings : List (Meaning κ)) :
    combine? (siblings.map Meaning.costless) =
      (combine? siblings).map (List.map Meaning.costless) := by
  have opened := filter_costless isOpen isOpen isOpen_costless siblings
  have closed : (siblings.map Meaning.costless).filter (!·.isOpen) =
      (siblings.filter (!·.isOpen)).map Meaning.costless :=
    filter_costless _ _ (fun meaning => by rw [isOpen_costless]) siblings
  simp only [combine?, opened, closed]
  rcases siblings.filter isOpen with - | ⟨only, - | ⟨second, rest⟩⟩
  · rfl
  · cases siblings.filter (!·.isOpen) with
    | nil => rfl
    | cons first others =>
        have filled := fill?_costless only (first :: others)
        simp only [List.map_cons, List.map_nil] at filled ⊢
        rw [filled]
        cases only.fill? (first :: others) <;> rfl
  · rfl

theorem close?_costless (frame : Frame κ) :
    close? frame.costless = (close? frame).map (List.map Meaning.costless) := by
  obtain ⟨meaning, args⟩ := frame
  simp only [close?, costless, combine?_costless]
  cases combine? args with
  | none => rfl
  | some args =>
      cases meaning with
      | none => rfl
      | some meaning =>
          simp only [Option.map_some, isOpen_costless]
          split
          · cases args with
            | nil => rfl
            | cons first rest =>
                have filled := fill?_costless meaning (first :: rest)
                simp only [List.map_cons] at filled ⊢
                rw [filled]
                cases meaning.fill? (first :: rest) <;> rfl
          · simp

end Frame

namespace Interpretation

def costless (interpretation : Interpretation κ) : Interpretation Unit :=
  ⟨interpretation.roots.map Meaning.costless⟩

theorem ofRoots?_costless (roots : List (Meaning κ)) :
    ofRoots? (roots.map Meaning.costless) = (ofRoots? roots).map costless := by
  simp only [ofRoots?, List.any_map, Function.comp_def, Meaning.isOpen_costless,
    Meaning.arrange?_costless]
  split
  · rfl
  · cases Meaning.arrange? roots <;> rfl

theorem beq_costless (first second : Interpretation κ) :
    (first.costless == second.costless) = (first == second) := by
  simp only [BEq.beq, costless, ← Meaning.costlessAll_eq_map, Meaning.orderAll_costless]

theorem text_costless (interpretation : Interpretation κ) :
    interpretation.costless.text = interpretation.text := by
  rw [text, costless, ← Meaning.costlessAll_eq_map, Meaning.texts_costless, text]

theorem toObject_costless (interpretation : Interpretation κ) :
    interpretation.costless.toObject = interpretation.toObject := by
  rw [toObject, costless, ← Meaning.costlessAll_eq_map, Meaning.toObjects_costless, toObject]

theorem beq_refl (interpretation : Interpretation κ) : (interpretation == interpretation) = true := by
  have same : Meaning.orderAll interpretation.roots interpretation.roots = .eq :=
    ReflCmp.compare_self
  simp only [BEq.beq, same]
  rfl

theorem beq_of_costless {first second : Interpretation κ}
    (same : first.costless = second.costless) : (first == second) = true := by
  rw [← beq_costless, same, beq_refl]

theorem beq_symm {first second : Interpretation κ} (same : (first == second) = true) :
    (second == first) = true := by
  have equal : Meaning.orderAll first.roots second.roots = .eq := by simpa [BEq.beq] using same
  have swapped : Meaning.orderAll second.roots first.roots = .eq := OrientedCmp.eq_symm equal
  simp only [BEq.beq, swapped]
  rfl

theorem beq_comm (first second : Interpretation κ) : (first == second) = (second == first) :=
  Bool.eq_iff_iff.2 ⟨beq_symm, beq_symm⟩

end Interpretation

end QueryGrammar
