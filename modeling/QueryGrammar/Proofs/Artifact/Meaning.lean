import QueryGrammar.Proofs.Artifact.Numbers
import QueryGrammar.Proofs.Json.Decoded

namespace QueryGrammar

open Json Json.Decoder

/-! Concepts and meanings are decoded from what they are encoded as. -/

section Numbers

variable {amounts : List Amount} {counts : List Nat} (faithful : Faithful amounts counts)
include faithful

theorem Faithful.returns_amount {amount : Amount} (member : amount ∈ amounts) :
    Returns Decoder.amount (.amount amount) amount := by
  have finite := faithful.finite amount member
  cases amount with
  | known x => exact Decoder.returns_amount finite (faithful.exact (.known x) member)
  | undefined negative => cases finite

theorem Faithful.returns_count {count : Nat} (member : count ∈ counts) :
    Returns Decoder.nat (.nat count) count :=
  returns_nat (faithful.word count member)

theorem Faithful.returns_counts {few : List Nat} (among : few ⊆ counts) :
    Returns (Decoder.list Decoder.nat) (.ofList .nat few) few :=
  returns_list fun _ member => faithful.returns_count (among member)

end Numbers

namespace ConceptKind

theorem returns_function {fewest most : Nat} (exclusive people : Bool)
    (word : ∀ count ∈ [fewest, most], count < Nat.pow 2 64) :
    Returns functionDecoder (.record [
      ("min_params", .nat fewest),
      ("max_params", .nat most),
      ("forbids_multiple", .bool exclusive),
      ("people", .bool people)]) (.function fewest most exclusive people) := by
  obtain ⟨low, high, -⟩ := (List.forall_mem_cons.1 word).imp_right List.forall_mem_cons.1
  refine returns_record [.required "min_params" (returns_nat low),
    .required "max_params" (returns_nat high),
    .required "forbids_multiple" (returns_bool exclusive),
    .defaulted "people" false (returns_bool people)] rfl rfl (by decide) fun levels reads => ?_
  simp only [List.forall_mem_cons, Field.required, Field.defaulted] at reads
  obtain ⟨fewest, most, exclusive, people, -⟩ := reads
  simp only [List.map_cons, List.map_nil, Field.required, Field.defaulted, fewest, most, exclusive,
    people]
  rfl

theorem returns {kind : ConceptKind} (word : ∀ count ∈ kind.counts, count < Nat.pow 2 64) :
    Returns decoder kind.toJson kind := by
  cases kind with
  | argument => exact returns_bare rfl
  | function fewest most exclusive people =>
      have held := returns_function exclusive people word
      exact returns_holding rfl held.proper held.reads

end ConceptKind

theorem Concept.returns {concept : Concept Amount}
    (faithful : Faithful [concept.cost] concept.kind.counts) :
    Returns decoder concept.toJson concept := by
  refine returns_record [.required "name" (returns_text concept.name),
    .required "cost" (faithful.returns_amount (List.mem_singleton_self _)),
    .required "kind" (ConceptKind.returns faithful.word)] rfl rfl (by decide) fun levels reads => ?_
  simp only [List.forall_mem_cons, Field.required] at reads
  obtain ⟨name, cost, kind, -⟩ := reads
  simp only [List.map_cons, List.map_nil, Field.required, name, cost, kind]
  rfl

namespace Meaning

theorem allToJson_eq (args : List (Meaning Amount)) : allToJson args = args.map toJson := by
  induction args with
  | nil => rfl
  | cons first rest ih => rw [allToJson, ih, List.map_cons]

theorem returns_apply {concept : Concept Amount} {args : List (Meaning Amount)}
    (own : Returns Concept.decoder concept.toJson concept)
    (inner : ∀ arg ∈ args, Returns decoder arg.toJson arg) :
    Returns decoder (apply concept args).toJson (apply concept args) := by
  rw [toJson, allToJson_eq]
  refine ⟨.object (List.forall_mem_cons.2 ⟨own.proper, List.forall_mem_cons.2 ⟨?_, nofun⟩⟩),
    fun levels inside => ?_⟩
  · exact .array (List.forall_mem_map.2 fun arg member => (inner arg member).proper)
  · obtain ⟨outer, rfl, shallow⟩ := exists_levels_of_object inside
    obtain ⟨head, tail⟩ := List.forall_mem_cons.1 shallow
    obtain ⟨within, rfl, deep⟩ := exists_levels_of_array (tail _ (List.mem_singleton_self _))
    have read : all (decoder within) (args.map toJson) = some args := all_map fun arg member =>
      (inner arg member).reads within (List.forall_mem_map.1 deep arg member)
    have found : fields ["def", "args"]
        (.record [("def", concept.toJson), ("args", .array (args.map toJson))]) =
        some [some concept.toJson, some (.array (args.map toJson))] := rfl
    rw [decoder, found]
    simp only [own.reads (within + 1) head, read]

mutual

theorem returns : (meaning : Meaning Amount) →
    Faithful (meaning.concepts.map Concept.cost) (meaning.concepts.flatMap (·.kind.counts)) →
    Returns decoder meaning.toJson meaning
  | .apply concept args, faithful => by
      rw [concepts, List.map_cons, List.flatMap_cons] at faithful
      exact returns_apply
        (Concept.returns (faithful.mono (by simp) (List.subset_append_left ..)))
        (returnsAll args (faithful.mono (List.subset_cons_self ..) (List.subset_append_right ..)))

theorem returnsAll : (args : List (Meaning Amount)) →
    Faithful ((conceptsAll args).map Concept.cost) ((conceptsAll args).flatMap (·.kind.counts)) →
    ∀ arg ∈ args, Returns decoder arg.toJson arg
  | [], _ => nofun
  | first :: rest, faithful => by
      rw [conceptsAll, List.map_append, List.flatMap_append] at faithful
      exact List.forall_mem_cons.2
        ⟨returns first (faithful.mono (List.subset_append_left ..) (List.subset_append_left ..)),
          returnsAll rest
            (faithful.mono (List.subset_append_right ..) (List.subset_append_right ..))⟩

end

theorem decoder_null (levels : Nat) : decoder levels .null = none := by
  match levels with
  | 0 => rw [decoder]; simp
  | 1 => rw [decoder]; simp
  | levels + 2 => rw [decoder]; rfl

end Meaning

end QueryGrammar
