import QueryGrammar.Proofs.Data.Ordered
import QueryGrammar.Proofs.Meaning.Completable

namespace QueryGrammar

/-! Which siblings may stand side by side, said without an order.

Main statement: where functions of one name are one concept, siblings are accepted just if no two of
them are the same, none is an exclusive function that another one repeats, and functions agree on
whether they are about people.  What is made of siblings is the same for all of their orders.
-/

variable {κ : Type}

namespace Meaning

variable {siblings others arranged : List (Meaning κ)} {first second : Meaning κ}

mutual

/-- Sameness of names, with the same arguments in the same places. -/
def Alike : Meaning κ → Meaning κ → Prop
  | .apply concept args, .apply other others => concept.name = other.name ∧ AlikeAll args others

def AlikeAll : List (Meaning κ) → List (Meaning κ) → Prop
  | [], [] => True
  | first :: rest, other :: others => Alike first other ∧ AlikeAll rest others
  | [], _ :: _ => False
  | _ :: _, [] => False

end

mutual

theorem order_eq_iff_alike : (first second : Meaning κ) →
    (order first second = .eq ↔ first.Alike second)
  | .apply concept args, .apply other others => by
      rw [order, Alike, Ordering.then_eq_eq, Std.compare_eq_iff_eq, orderAll_eq_iff_alikeAll]

theorem orderAll_eq_iff_alikeAll : (values others : List (Meaning κ)) →
    (orderAll values others = .eq ↔ AlikeAll values others)
  | [], [] => by simp [orderAll, AlikeAll]
  | [], _ :: _ => by simp [orderAll, AlikeAll]
  | _ :: _, [] => by simp [orderAll, AlikeAll]
  | first :: rest, other :: others => by
      rw [orderAll, AlikeAll, Ordering.then_eq_eq, order_eq_iff_alike, orderAll_eq_iff_alikeAll]

end

instance : DecidableRel (Alike (κ := κ)) := fun first second =>
  decidable_of_iff _ (order_eq_iff_alike first second)

theorem beq_iff_alike : (first == second) = true ↔ first.Alike second := by
  rw [← order_eq_iff_alike]
  exact beq_iff_eq (a := order first second)

theorem Alike.symm (alike : first.Alike second) : second.Alike first :=
  (order_eq_iff_alike ..).1 (Std.OrientedCmp.eq_symm ((order_eq_iff_alike ..).2 alike))

/-- Functions of one name are one concept, and arguments are applied to nothing. -/
structure Consistent (siblings : List (Meaning κ)) : Prop where
  functions : ∀ first ∈ siblings, ∀ second ∈ siblings, first.isArgument = false →
    second.isArgument = false → first.name = second.name → first.concept = second.concept
  arguments : ∀ sibling ∈ siblings, sibling.isArgument = true → sibling.args = []

/-- No two siblings are the same or apply one exclusive function, and the functions among them are
all about people or none is. -/
structure Compatible (siblings : List (Meaning κ)) : Prop where
  distinct : siblings.Pairwise fun first second => ¬ first.Alike second
  exclusive : siblings.Pairwise fun first second =>
    first.concept.isExclusive = true → second.concept.isExclusive = true →
      first.name ≠ second.name
  uniform : ∀ first ∈ siblings, ∀ second ∈ siblings, first.isArgument = false →
    second.isArgument = false → first.concept.isPeople = second.concept.isPeople

instance (siblings : List (Meaning κ)) : Decidable (Compatible siblings) :=
  decidable_of_iff (_ ∧ _ ∧ _)
    ⟨fun ⟨distinct, exclusive, uniform⟩ => ⟨distinct, exclusive, uniform⟩,
      fun compatible => ⟨compatible.distinct, compatible.exclusive, compatible.uniform⟩⟩

/-- Nothing in it depends on which sibling comes first. -/
theorem Compatible.perm (compatible : Compatible siblings) (perm : siblings.Perm others) :
    Compatible others where
  distinct := perm.pairwise compatible.distinct fun apart alike => apart alike.symm
  exclusive := perm.pairwise compatible.exclusive fun apart alone other same =>
    apart other alone same.symm
  uniform first member second also :=
    compatible.uniform first (perm.mem_iff.2 member) second (perm.mem_iff.2 also)

theorem Coexist.compatible (coexist : Coexist siblings) : Compatible siblings where
  distinct := coexist.ascends.imp fun before alike => by
    rw [(order_eq_iff_alike ..).2 alike] at before
    cases before
  exclusive := coexist.exclusive.imp fun apart alone _ => apart alone
  uniform := coexist.uniform

theorem isArgument_of_isExclusive (alone : first.concept.isExclusive = true) :
    first.isArgument = false := by
  unfold Concept.isExclusive at alone
  unfold isArgument Concept.isArgument
  cases kind : first.concept.kind <;> simp_all

/-- An argument comes before everything else of its name. -/
theorem alike_of_isBefore (before : isBefore first second = true) (same : first.name = second.name)
    (bare : second.args = []) : first.Alike second := by
  obtain ⟨concept, args⟩ := first
  obtain ⟨other, others⟩ := second
  have names : compare concept.name other.name = .eq := Std.compare_eq_iff_eq.2 same
  have nothing : others = [] := bare
  subst nothing
  have least := isBefore_iff.1 before
  rw [order, names, Ordering.eq_then] at least
  cases args with
  | nil => exact ⟨same, trivial⟩
  | cons head tail => simp [orderAll] at least

/-- What repeats an exclusive function is the same concept and so exclusive itself, or an argument.
An argument is ahead of the functions of its name, so that it never repeats what is before it. -/
theorem agree_of_isBefore (consistent : Consistent siblings) (member : first ∈ siblings)
    (also : second ∈ siblings) (before : isBefore first second = true)
    (distinct : ¬ first.Alike second)
    (exclusive : first.concept.isExclusive = true → second.concept.isExclusive = true →
      first.name ≠ second.name) : agree first second = true := by
  have differ : (first == second) = false := by
    rw [← Bool.not_eq_true, beq_iff_alike]
    exact distinct
  have apart : first.concept.isExclusive = true → first.name ≠ second.name := by
    intro alone same
    have function := isArgument_of_isExclusive alone
    cases argument : second.isArgument with
    | true =>
        exact distinct (alike_of_isBefore before same (consistent.arguments second also argument))
    | false =>
        have concepts := consistent.functions first member second also function argument same
        exact exclusive alone (concepts ▸ alone) same
  cases alone : first.concept.isExclusive with
  | false => simp [agree, differ, alone]
  | true => simp [agree, differ, alone, apart alone]

theorem isUniform_of_uniform (uniform : ∀ first ∈ siblings, ∀ second ∈ siblings,
    first.isArgument = false → second.isArgument = false →
      first.concept.isPeople = second.concept.isPeople) : isUniform siblings = true := by
  unfold isUniform
  cases functions : siblings.filter (!·.isArgument) with
  | nil => rfl
  | cons lead rest =>
      have function : ∀ meaning ∈ lead :: rest, meaning ∈ siblings ∧ meaning.isArgument = false := by
        intro meaning member
        rw [← functions, List.mem_filter] at member
        exact ⟨member.1, by simpa using member.2⟩
      obtain ⟨own, leads⟩ := function lead (List.mem_cons_self ..)
      refine List.all_eq_true.2 fun other member => beq_iff_eq.2 ?_
      obtain ⟨also, follows⟩ := function other (List.mem_cons_of_mem _ member)
      exact uniform other also lead own follows leads

/-- Comparing neighbours in order is enough. -/
theorem arrange?_isSome_iff (consistent : Consistent siblings) :
    (arrange? siblings).isSome = true ↔ Compatible siblings := by
  have perm : (siblings.mergeSort isBefore).Perm siblings := List.mergeSort_perm ..
  constructor
  · intro accepted
    obtain ⟨arranged, made⟩ := Option.isSome_iff_exists.1 accepted
    exact (coexist_of_arrange? made).compatible.perm (arrange?_perm made)
  · intro compatible
    have sorted := compatible.perm perm.symm
    have agrees : (siblings.mergeSort isBefore).Pairwise fun first second =>
        agree first second = true := by
      refine ((mergeSort_pairwise siblings).and (sorted.distinct.and sorted.exclusive)).imp_of_mem ?_
      intro first second member also given
      obtain ⟨before, distinct, exclusive⟩ := given
      exact agree_of_isBefore consistent (perm.mem_iff.1 member) (perm.mem_iff.1 also) before
        distinct exclusive
    have fits : (neighboursAgree (siblings.mergeSort isBefore) &&
        isUniform (siblings.mergeSort isBefore)) = true :=
      Bool.and_eq_true_iff.2 ⟨neighboursAgree_of_pairwise agrees, isUniform_of_uniform sorted.uniform⟩
    rw [arrange?, if_pos fits]
    rfl

theorem application?_ascends {concept : Concept κ} {result : Meaning κ}
    (made : application? concept siblings = some result) : result.concept = concept ∧
      result.args.Perm siblings ∧ AscendingBy order result.args := by
  obtain ⟨args, arranging, -, rfl⟩ := application?_eq_some_iff.1 made
  exact ⟨rfl, arrange?_perm arranging, (coexist_of_arrange? arranging).ascends⟩

theorem application?_isSome_iff {concept : Concept κ} :
    (application? concept siblings).isSome = true ↔
      concept.Takes siblings.length ∧ (arrange? siblings).isSome = true := by
  simp only [Option.isSome_iff_exists, application?_eq_some_iff]
  constructor
  · intro made
    obtain ⟨result, args, arranging, takes, -⟩ := made
    exact ⟨(arrange?_perm arranging).length_eq ▸ takes, args, arranging⟩
  · intro given
    obtain ⟨takes, args, arranging⟩ := given
    exact ⟨.apply concept args, args, arranging, (arrange?_perm arranging).length_eq ▸ takes, rfl⟩

end Meaning

open Meaning

theorem Interpretation.ofRoots?_isSome_iff {roots : List (Meaning κ)} :
    (ofRoots? roots).isSome = true ↔
      roots.any Meaning.isOpen = false ∧ (arrange? roots).isSome = true := by
  unfold ofRoots?
  cases roots.any Meaning.isOpen <;> simp

theorem Interpretation.ofRoots?_ascends {roots : List (Meaning κ)}
    {interpretation : Interpretation κ} (made : ofRoots? roots = some interpretation) :
    interpretation.roots.Perm roots ∧ AscendingBy order interpretation.roots := by
  unfold ofRoots? at made
  split at made
  · cases made
  · obtain ⟨arranged, arranging, rfl⟩ := Option.map_eq_some_iff.1 made
    exact ⟨arrange?_perm arranging, (coexist_of_arrange? arranging).ascends⟩

namespace Meaning

/-- Siblings are accepted just if they are compatible, which no order has a part in.  What applying
a concept or gathering roots makes of them, where they are accepted, is the same for all of their
orders, and has them in strictly ascending order. -/
theorem siblings_in_any_order (siblings : List (Meaning κ)) :
    (Consistent siblings → ((arrange? siblings).isSome = true ↔ Compatible siblings)) ∧
      (∀ others, siblings.Perm others →
        (∀ concept, application? concept others = application? concept siblings) ∧
          Interpretation.ofRoots? others = Interpretation.ofRoots? siblings) ∧
      (∀ concept, ((application? concept siblings).isSome = true ↔
          concept.Takes siblings.length ∧ (arrange? siblings).isSome = true) ∧
        ∀ result, application? concept siblings = some result →
          result.concept = concept ∧ result.args.Perm siblings ∧ AscendingBy order result.args) ∧
      ((Interpretation.ofRoots? siblings).isSome = true ↔
        siblings.any isOpen = false ∧ (arrange? siblings).isSome = true) ∧
      ∀ interpretation, Interpretation.ofRoots? siblings = some interpretation →
        interpretation.roots.Perm siblings ∧ AscendingBy order interpretation.roots :=
  ⟨arrange?_isSome_iff,
    fun _ perm => ⟨fun concept => application?_eq_of_perm concept perm.symm,
      Interpretation.ofRoots?_eq_of_perm perm.symm⟩,
    fun _ => ⟨application?_isSome_iff, fun _ => application?_ascends⟩,
    Interpretation.ofRoots?_isSome_iff, fun _ => Interpretation.ofRoots?_ascends⟩

/-- An exclusive function beside an argument that goes by its name, and another function. -/
def namesakes : List (Meaning Nat) :=
  [.apply ⟨"liked", 2, .function 1 1 false false⟩ [.leaf ⟨"me", 0, .argument⟩],
    .apply ⟨"created", 1, .function 1 1 true false⟩ [.leaf ⟨"me", 0, .argument⟩],
    .leaf ⟨"created", 0, .argument⟩]

theorem siblings_in_any_order_namesakes :
    Consistent namesakes ∧ Compatible namesakes ∧ (arrange? namesakes).isSome = true ∧
      namesakes.Perm namesakes.reverse ∧
      Interpretation.ofRoots? namesakes.reverse = Interpretation.ofRoots? namesakes ∧
      (∃ result, application? ⟨"repos", 0, .function 1 5 false false⟩ namesakes = some result ∧
        AscendingBy order result.args) ∧
      ∃ interpretation, Interpretation.ofRoots? namesakes = some interpretation ∧
        AscendingBy order interpretation.roots := by
  obtain ⟨accepted, alike, applied, gathered, rooted⟩ := siblings_in_any_order namesakes
  have consistent : Consistent namesakes := by
    constructor <;> simp [namesakes, name, isArgument, Concept.isArgument, Meaning.concept, leaf, args]
  have compatible : Compatible namesakes := by decide
  have reversed : namesakes.Perm namesakes.reverse := (List.reverse_perm _).symm
  have fits := (accepted consistent).2 compatible
  have takes : Concept.Takes (⟨"repos", 0, .function 1 5 false false⟩ : Concept Nat)
      namesakes.length := by decide
  obtain ⟨result, made⟩ := Option.isSome_iff_exists.1 ((applied _).1.2 ⟨takes, fits⟩)
  obtain ⟨interpretation, found⟩ := Option.isSome_iff_exists.1 (gathered.2 ⟨by decide, fits⟩)
  exact ⟨consistent, compatible, fits, reversed, (alike _ reversed).2,
    ⟨result, made, ((applied _).2 result made).2.2⟩, interpretation, found, (rooted _ found).2⟩

end Meaning

end QueryGrammar
