import QueryGrammar.Proofs.Search.Expand

namespace QueryGrammar

/-! Two searches of the same forest side by side: one shares meanings faithfully, and the other one
leaves every meaning as it is.

Main statement: candidates that are alike have successors that are alike, the same number of them
is dropped, and in the end they mean the same.
-/

variable {κ α β γ δ : Type} {kindOf : String → ConceptKind}

namespace Fault

/-- Computations that have related results, or the same fault. -/
def Agree (R : α → β → Prop) : Except Fault α → Except Fault β → Prop
  | .ok first, .ok second => R first second
  | .error cause, .error other => cause = other
  | _, _ => False

theorem Agree.bind {R : α → β → Prop} {S : γ → δ → Prop} {first : Except Fault α}
    {second : Except Fault β} {next : α → Except Fault γ} {onward : β → Except Fault δ}
    (agree : Agree R first second)
    (go : ∀ value other, R value other → Agree S (next value) (onward other)) :
    Agree S (first >>= next) (second >>= onward) := by
  cases first with
  | error cause =>
      cases second with
      | error other => exact agree
      | ok other => cases agree
  | ok value =>
      cases second with
      | error cause => cases agree
      | ok other => exact go value other agree

theorem Agree.same {S : γ → δ → Prop} {first : Except Fault α} {next : α → Except Fault γ}
    {onward : α → Except Fault δ}
    (go : ∀ value, first = .ok value → Agree S (next value) (onward value)) :
    Agree S (first >>= next) (first >>= onward) := by
  cases first with
  | error cause => exact rfl
  | ok value => exact go value rfl

end Fault

/-- Options that look the same under functions both have a value, or neither has. -/
theorem both_of_map_eq {first : Option α} {second : Option β} {view : α → γ} {viewAlso : β → γ}
    (same : first.map view = second.map viewAlso) :
    first = none ∧ second = none ∨
      ∃ value other, first = some value ∧ second = some other ∧ view value = viewAlso other := by
  cases first with
  | none =>
      cases second with
      | none => exact .inl ⟨rfl, rfl⟩
      | some other => cases same
  | some value =>
      cases second with
      | none => cases same
      | some other => exact .inr ⟨value, other, rfl, rfl, Option.some.inj same⟩

/-- Leaves meanings as they are. -/
def Sharing.keep : Sharing κ :=
  fun pool meaning => (meaning, pool)

/-- The same search without sharing. -/
def Search.plain (search : Search κ) : Search κ :=
  { search with share := .keep }

/-- Frames that differ in costs alone. Names settle the kinds of the concepts in the first ones. -/
structure Frame.AllAlike (kindOf : String → ConceptKind) (frames others : List (Frame κ)) :
    Prop where
  same : frames.map Frame.costless = others.map Frame.costless
  kinded : ∀ frame ∈ frames, frame.Kinded kindOf

theorem Frame.AllAlike.both {frames others : List (Frame κ)}
    (alike : AllAlike kindOf frames others) :
    frames = [] ∧ others = [] ∨ ∃ frame outer other rest, frames = frame :: outer ∧
      others = other :: rest ∧ frame.costless = other.costless ∧ frame.Kinded kindOf ∧
      AllAlike kindOf outer rest := by
  obtain ⟨same, kinded⟩ := alike
  cases frames with
  | nil => exact .inl ⟨rfl, List.map_eq_nil_iff.1 same.symm⟩
  | cons frame outer =>
      cases others with
      | nil => cases same
      | cons other rest =>
          obtain ⟨first, later⟩ := List.cons.inj same
          obtain ⟨own, outerKinded⟩ := List.forall_mem_cons.1 kinded
          exact .inr ⟨frame, outer, other, rest, rfl, rfl, first, own, later, outerKinded⟩

structure Candidate.Alike (kindOf : String → ConceptKind) (candidate other : Candidate κ) :
    Prop where
  cost : candidate.cost = other.cost
  bound : candidate.bound = other.bound
  steps : candidate.steps = other.steps
  choices : candidate.choices = other.choices
  frames : Frame.AllAlike kindOf candidate.frames other.frames

namespace Search

variable {search : Search κ} {share : Sharing κ} {lattice : Lattice} {InUse : Pool κ → Prop}
  {pool poolAlso : Pool κ} {frames others : List (Frame κ)} {own also : List (Meaning κ)}
  {entry : IndexedRule κ} {alternative : Alternative} {candidate other : Candidate κ}

theorem shareAll_keep (pool : Pool κ) (meanings : List (Meaning κ)) :
    shareAll .keep pool meanings = (meanings, pool) := by
  induction meanings generalizing pool with
  | nil => rfl
  | cons first rest ih =>
      have later : shareAll .keep pool (first :: rest) =
        (first :: (shareAll .keep pool rest).1, (shareAll .keep pool rest).2) := rfl
      rw [later, ih]

theorem contribute_alike (alike : Frame.AllAlike kindOf frames others)
    (same : own.map Meaning.costless = also.map Meaning.costless)
    (kinded : ∀ meaning ∈ own, meaning.Kinded kindOf) :
    Frame.AllAlike kindOf (contribute own frames) (contribute also others) :=
  ⟨contribute_costless same alike.same, contribute_kinded alike.kinded kinded⟩

/-- Where two candidates have settled. -/
abbrev SettledAlike (kindOf : String → ConceptKind) :
    Option (List Step × List (Frame κ)) → Option (List Step × List (Frame κ)) → Prop :=
  Option.Rel fun first second => first.1 = second.1 ∧ Frame.AllAlike kindOf first.2 second.2

theorem settle_alike (faithful : share.Faithful kindOf InUse) (steps : List Step)
    (inUse : InUse pool) (alike : Frame.AllAlike kindOf frames others) :
    InUse (settle share pool steps frames).2 ∧
      SettledAlike kindOf (settle share pool steps frames).1
        (settle .keep poolAlso steps others).1 := by
  induction steps generalizing pool poolAlso frames others with
  | nil => exact ⟨inUse, .some ⟨rfl, alike⟩⟩
  | cons step steps ih =>
      cases step with
      | expand id => exact ⟨inUse, .some ⟨rfl, alike⟩⟩
      | close =>
          rcases alike.both with ⟨rfl, rfl⟩ | ⟨frame, outer, other, rest, rfl, rfl, same, kinded, later⟩
          · exact ⟨inUse, .none⟩
          · rcases both_of_map_eq (close?_congr same) with
              ⟨closed, closedAlso⟩ | ⟨own, also, closed, closedAlso, equal⟩
            · simpa only [settle, closed, closedAlso] using ⟨inUse, .none⟩
            · obtain ⟨shared, sharedKinded, still⟩ :=
                faithful.shareAll inUse (Frame.close?_kinded closed kinded)
              simp only [settle, closed, closedAlso, shareAll_keep]
              exact ih still (contribute_alike later (shared.trans equal) sharedKinded)

variable [Cost κ]

theorem enter_alike (ready : search.Ready lattice kindOf InUse) (steps : List Step)
    (inUse : InUse pool) (known : search.table.rules[alternative.rule]? = some entry)
    (alike : Frame.AllAlike kindOf frames others) :
    Fault.Agree (fun first second => InUse first.2 ∧ SettledAlike kindOf first.1 second.1)
      (search.enter pool entry.rule alternative steps frames)
      (search.plain.enter poolAlso entry.rule alternative steps others) := by
  cases alternative with
  | terminal rule found =>
      refine Fault.Agree.same fun hit present => ?_
      have member : hit ∈ lattice.found := by
        rw [← ready.presents.found]
        unfold Forest.matchAt Fault.lookUp at present
        split at present
        · cases present
          exact Array.mem_of_getElem? ‹_›
        · cases present
      cases made : literalMeanings entry.rule hit.entity with
      | none => exact ⟨inUse, .none⟩
      | some meanings =>
          obtain ⟨same, shared, later⟩ := ready.faithful.shareAll inUse
            (literalMeanings_kinded made (ready.meanings _ _ known) (ready.entities hit member))
          simp only [plain, shareAll_keep]
          exact settle_alike ready.faithful steps later (contribute_alike alike same shared)
  | branch rule children =>
      have kinded : ∀ meaning ∈ (entry.rule.insertion.bind Insertion.meaning).toList,
          meaning.Kinded kindOf := fun meaning given =>
        ready.inserted _ _ known meaning (Option.mem_toList.1 given)
      obtain ⟨same, shared, later⟩ := ready.faithful.shareAll inUse kinded
      simp only [enter, plain, shareAll_keep]
      refine settle_alike ready.faithful _ later ⟨?_, ?_⟩
      · simp only [List.map_cons, Frame.costless, same, alike.same]
      · exact List.forall_mem_cons.2 ⟨⟨ready.meanings _ _ known, shared⟩, alike.kinded⟩

theorem choose_alike (ready : search.Ready lattice kindOf InUse) (id : Nat) (steps : List Step)
    (inUse : InUse pool) (alike : candidate.Alike kindOf other) (alternative : Alternative)
    (index : Nat) :
    Fault.Agree (fun first second =>
        InUse first.2 ∧ Option.Rel (Candidate.Alike kindOf) first.1 second.1)
      (search.choose candidate id steps pool alternative index)
      (search.plain.choose other id steps poolAlso alternative index) := by
  refine Fault.Agree.same fun entry found => ?_
  have known : search.table.rules[alternative.rule]? = some entry := by
    unfold Table.ruleAt Fault.lookUp at found
    split at found
    · cases found
      assumption
    · cases found
  refine Fault.Agree.same fun costs _ => Fault.Agree.same fun cost _ => ?_
  refine (enter_alike ready steps inUse known alike.frames).bind fun first second entered => ?_
  obtain ⟨entered, after⟩ := first
  obtain ⟨enteredAlso, afterAlso⟩ := second
  obtain ⟨still, settled⟩ := entered
  cases settled with
  | none => exact ⟨still, .none⟩
  | some related =>
      obtain ⟨same, framesAlike⟩ := related
      refine ⟨still, .some ⟨?_, ?_, same, ?_, framesAlike⟩⟩
      · simp only [alike.cost]
      · simp only [alike.bound]
      · simp only [alike.choices]

/-- What candidates that are alike lead to. -/
structure Expansion.Alike (kindOf : String → ConceptKind) (InUse : Pool κ → Prop)
    (first second : Expansion κ) : Prop where
  successors : List.Forall₂ (Candidate.Alike kindOf) first.successors second.successors
  dropped : first.dropped = second.dropped
  inUse : InUse first.pool

theorem expandWith_alike (ready : search.Ready lattice kindOf InUse) (id : Nat)
    (steps : List Step) (inUse : InUse pool) (alike : candidate.Alike kindOf other)
    (alternatives : List Alternative) (index : Nat) :
    Fault.Agree (Expansion.Alike kindOf InUse)
      (search.expandWith candidate id steps alternatives index pool)
      (search.plain.expandWith other id steps alternatives index poolAlso) := by
  induction alternatives generalizing index pool poolAlso with
  | nil => exact ⟨.nil, rfl, inUse⟩
  | cons alternative rest ih =>
      refine (choose_alike ready id steps inUse alike alternative index).bind
        fun first second chosen => ?_
      obtain ⟨result, after⟩ := first
      obtain ⟨resultAlso, afterAlso⟩ := second
      obtain ⟨still, related⟩ := chosen
      refine (ih still (index + 1)).bind fun expansion expansionAlso expands => ?_
      cases related with
      | none => exact ⟨expands.successors, congrArg (· + 1) expands.dropped, expands.inUse⟩
      | some successor => exact ⟨.cons successor expands.successors, expands.dropped, expands.inUse⟩

theorem expand_alike (ready : search.Ready lattice kindOf InUse) (id : Nat) (steps : List Step)
    (inUse : InUse pool) (alike : candidate.Alike kindOf other) :
    Fault.Agree (Expansion.Alike kindOf InUse) (search.expand candidate id steps pool)
      (search.plain.expand other id steps poolAlso) :=
  Fault.Agree.same fun node _ => expandWith_alike ready id steps inUse alike node.alternatives 0

end Search

end QueryGrammar
