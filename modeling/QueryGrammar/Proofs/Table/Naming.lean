import Mathlib.Tactic.Choose
import QueryGrammar.Input.Lattice
import QueryGrammar.Proofs.Meaning.Sharing

namespace QueryGrammar.Table

/-! Tables whose names are unambiguous. -/

variable {κ : Type} {table : Table κ} {lattice : Lattice}

/-- The concepts in the meanings of rules, and in those that rules insert. -/
def concepts (table : Table κ) : List (Concept κ) :=
  table.rules.toList.flatMap fun entry => Meaning.conceptsAll
    (entry.rule.meaning.toList ++ (entry.rule.insertion.bind Insertion.meaning).toList)

/-- A name stands for concepts of one kind, and no entity goes by the name of a function. -/
structure Unambiguous (table : Table κ) (lattice : Lattice) : Prop where
  same : ∀ first ∈ table.concepts, ∀ second ∈ table.concepts, first.name = second.name →
    first.kind = second.kind
  apart : ∀ hit ∈ lattice.found, ∀ entity ∈ hit.entity, ∀ concept ∈ table.concepts,
    concept.name = entity.id → concept.isArgument = true

instance : Decidable (table.Unambiguous lattice) :=
  decidable_of_iff ((∀ first ∈ table.concepts, ∀ second ∈ table.concepts,
      first.name = second.name → first.kind = second.kind) ∧
    ∀ hit ∈ lattice.found, ∀ entity ∈ hit.entity, ∀ concept ∈ table.concepts,
      concept.name = entity.id → concept.isArgument = true)
    ⟨fun ⟨same, apart⟩ => ⟨same, apart⟩, fun ⟨same, apart⟩ => ⟨same, apart⟩⟩

theorem mem_concepts {rule : Nat} {entry : IndexedRule κ} {meaning : Meaning κ}
    {concept : Concept κ} (known : table.rules[rule]? = some entry)
    (own : entry.rule.meaning = some meaning ∨
      entry.rule.insertion.bind Insertion.meaning = some meaning)
    (member : concept ∈ meaning.concepts) : concept ∈ table.concepts := by
  refine List.mem_flatMap.2 ⟨entry, Array.mem_toList_iff.2 (Array.mem_of_getElem? known), ?_⟩
  refine Meaning.mem_conceptsAll.2 ⟨meaning, List.mem_append.2 ?_, member⟩
  exact own.imp Option.mem_toList.2 Option.mem_toList.2

theorem Unambiguous.exists_kindOf (unambiguous : table.Unambiguous lattice) :
    ∃ kindOf : String → ConceptKind,
      (∀ concept ∈ table.concepts, concept.kind = kindOf concept.name) ∧
      ∀ hit ∈ lattice.found, ∀ entity, hit.entity = some entity →
        kindOf entity.id = .argument := by
  classical
  have named : ∀ name : String, ∃ kind : ConceptKind,
      (∀ concept ∈ table.concepts, concept.name = name → concept.kind = kind) ∧
      ((∀ concept ∈ table.concepts, concept.name ≠ name) → kind = .argument) := by
    intro name
    by_cases used : ∃ concept ∈ table.concepts, concept.name = name
    · obtain ⟨concept, member, own⟩ := used
      refine ⟨concept.kind, fun other also alike => ?_, fun none => absurd own (none _ member)⟩
      exact unambiguous.same other also concept member (alike.trans own.symm)
    · exact ⟨.argument, fun concept member own => absurd ⟨concept, member, own⟩ used, fun _ => rfl⟩
  choose kindOf kinds none using named
  refine ⟨kindOf, fun concept member => kinds _ concept member rfl,
    fun hit present entity given => ?_⟩
  by_cases used : ∃ concept ∈ table.concepts, concept.name = entity.id
  · obtain ⟨concept, member, own⟩ := used
    have argument := unambiguous.apart hit present entity given concept member own
    rw [← kinds _ concept member own]
    unfold Concept.isArgument at argument
    split at argument
    · assumption
    · cases argument
  · exact none _ fun concept member own => used ⟨concept, member, own⟩

end QueryGrammar.Table
