import QueryGrammar.Proofs.Artifact.Meaning

namespace QueryGrammar

open Json Json.Decoder

/-! Rules and their parts are decoded from what they are encoded as. -/

theorem Form.returns (form : Form) : Returns decoder form.toJson form :=
  returns_bare form.ofLabel?_label

theorem Form.decoder_null (levels : Nat) : decoder levels .null = none :=
  rfl

theorem Person.returns (person : Person) : Returns decoder person.toJson person :=
  returns_bare person.ofLabel?_label

theorem Person.decoder_null (levels : Nat) : decoder levels .null = none :=
  rfl

theorem Role.returns (role : Role) : Returns decoder role.toJson role :=
  returns_bare role.ofLabel?_label

theorem Inflections.returns (inflections : Inflections) :
    Returns decoder inflections.toJson inflections := by
  have text_null : ∀ levels, Decoder.text levels .null = none := fun _ => rfl
  have given : ∀ text : Option String, ∀ content ∈ text,
      Returns Decoder.text (.text content) content := fun _ content _ => returns_text content
  refine returns_record [
    .optional "one-sg" .text inflections.firstSingular text_null (given _),
    .optional "three-sg" .text inflections.thirdSingular text_null (given _),
    .optional "pl" .text inflections.plural text_null (given _),
    .optional "past" .text inflections.past text_null (given _),
    .optional "nom" .text inflections.nominative text_null (given _),
    .optional "obj" .text inflections.objective text_null (given _)]
    (by simp [toJson]) rfl (by decide) fun levels reads => ?_
  simp only [List.forall_mem_cons, Field.optional] at reads
  obtain ⟨firstSingular, thirdSingular, plural, past, nominative, objective, -⟩ := reads
  simp only [List.map_cons, List.map_nil, Field.optional, firstSingular, thirdSingular, plural,
    past, nominative, objective]
  rfl

namespace Wording

theorem returns (wording : Wording) : Returns decoder wording.toJson wording := by
  cases wording with
  | fixed text => exact returns_holding rfl (proper_text text) fun _ _ => rfl
  | inflected inflections =>
      refine returns_holding rfl inflections.returns.proper fun levels inside => ?_
      simp only [inflections.returns.reads levels inside, Option.map_some]

theorem decoder_null (levels : Nat) : decoder levels .null = none := by
  cases levels <;> rfl

end Wording

theorem Slot.returns (slot : Slot) : Returns decoder slot.toJson slot := by
  refine returns_record [.required "name" (returns_text slot.symbol),
    .optional "form" Form.toJson slot.form Form.decoder_null fun form _ => form.returns]
    (by simp [toJson]) rfl (by decide) fun levels reads => ?_
  simp only [List.forall_mem_cons, Field.required, Field.optional] at reads
  obtain ⟨symbol, form, -⟩ := reads
  simp only [List.map_cons, List.map_nil, Field.required, Field.optional, symbol, form]
  rfl

theorem Production.returns (production : Production) :
    Returns decoder production.toJson production := by
  cases production with
  | literal text => exact returns_holding rfl (proper_text text) fun _ _ => rfl
  | symbols slots =>
      have listed := returns_list fun slot (_ : slot ∈ slots) => slot.returns
      refine returns_holding rfl listed.proper fun levels inside => ?_
      simp only [listed.reads levels inside, Option.map_some]

theorem Piece.returns (piece : Piece) : Returns decoder piece.toJson piece := by
  refine returns_record [.required "text" piece.wording.returns,
    .optional "form" Form.toJson piece.form Form.decoder_null fun form _ => form.returns]
    (by simp [toJson]) rfl (by decide) fun levels reads => ?_
  simp only [List.forall_mem_cons, Field.required, Field.optional] at reads
  obtain ⟨wording, form, -⟩ := reads
  simp only [List.map_cons, List.map_nil, Field.required, Field.optional, wording, form]
  rfl

namespace Insertion

theorem returns {insertion : Insertion Amount} (word : insertion.index < Nat.pow 2 64)
    (meant : ∀ meaning ∈ insertion.meaning, Returns Meaning.decoder meaning.toJson meaning) :
    Returns decoder insertion.toJson insertion := by
  refine returns_record [.required "index" (returns_nat word),
    .required "text" (returns_list fun piece (_ : piece ∈ insertion.text) => piece.returns),
    .optional "semantic" Meaning.toJson insertion.meaning Meaning.decoder_null meant,
    .optional "person_number" Person.toJson insertion.person Person.decoder_null
      fun person _ => person.returns]
    (by simp [toJson]) rfl (by decide) fun levels reads => ?_
  simp only [List.forall_mem_cons, Field.required, Field.optional] at reads
  obtain ⟨index, text, meaning, person, -⟩ := reads
  simp only [List.map_cons, List.map_nil, Field.required, Field.optional, index, text, meaning,
    person]
  rfl

theorem decoder_null (levels : Nat) : decoder levels .null = none := by
  cases levels <;> rfl

end Insertion

namespace Rule

theorem returns {rule : Rule Amount} (faithful : Faithful rule.amounts rule.counts) :
    Returns decoder rule.toJson rule := by
  have own : ∀ amount ∈ rule.amounts, Returns Decoder.amount (.amount amount) amount :=
    fun _ member => faithful.returns_amount member
  have amount_null : ∀ levels, Decoder.amount levels .null = none := fun _ => rfl
  have meant : ∀ meaning ∈ rule.meanings, Returns Meaning.decoder meaning.toJson meaning :=
    Meaning.returnsAll rule.meanings (faithful.mono
      (fun amount member => List.mem_cons_of_mem _ (List.mem_append_right _ member))
      (List.subset_append_right ..))
  have inserted : ∀ insertion ∈ rule.insertion,
      Returns Insertion.decoder insertion.toJson insertion := by
    intro insertion given
    refine Insertion.returns (faithful.word _ ?_) fun meaning instead => meant meaning ?_
    · simp [counts, Option.mem_def.1 given]
    · simp [meanings, Option.mem_def.1 given, Option.mem_def.1 instead]
  refine returns_record [.required "rhs" rule.production.returns,
    .required "cost" (own rule.cost (by simp [amounts])),
    .optional "insertion_cost" .amount rule.insertionCost amount_null
      fun amount given => own amount (by simp [amounts, Option.mem_def.1 given]),
    .optional "transposition_cost" .amount rule.transpositionCost amount_null
      fun amount given => own amount (by simp [amounts, Option.mem_def.1 given]),
    .optional "semantic" Meaning.toJson rule.meaning Meaning.decoder_null
      fun meaning given => meant meaning (by simp [meanings, Option.mem_def.1 given]),
    .optional "text" Wording.toJson rule.wording Wording.decoder_null
      fun wording _ => wording.returns,
    .optional "person_number" Person.toJson rule.person Person.decoder_null
      fun person _ => person.returns,
    .defaulted "kind" .plain rule.role.returns,
    .defaulted "no_insert" false (returns_bool rule.noInsert),
    .optional "insertion" Insertion.toJson rule.insertion Insertion.decoder_null inserted,
    .defaulted "transposed" false (returns_bool rule.transposed)]
    (by simp [toJson]) rfl (by decide) fun levels reads => ?_
  simp only [List.forall_mem_cons, Field.required, Field.optional, Field.defaulted] at reads
  obtain ⟨production, cost, insertionCost, transpositionCost, meaning, wording, person, role,
    noInsert, insertion, transposed, -⟩ := reads
  simp only [List.map_cons, List.map_nil, Field.required, Field.optional, Field.defaulted,
    production, cost, insertionCost, transpositionCost, meaning, wording, person, role, noInsert,
    insertion, transposed]
  rfl

end Rule

end QueryGrammar
