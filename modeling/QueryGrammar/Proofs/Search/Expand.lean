import QueryGrammar.Proofs.Search.Resume

namespace QueryGrammar

/-! Expanding candidates.

Main statement: of the alternatives of the next node, each leads to a successor that stands for the
same derivations, or it is dropped and none of its derivations has a meaning.
-/

variable {κ : Type} [Cost κ]

/-- What a search needs to know: a forest that presents a lattice, a cost for every node, a faithful
way to share meanings, and names that settle kinds. -/
structure Search.Ready (search : Search κ) (lattice : Lattice) (kindOf : String → ConceptKind)
    (InUse : Pool κ → Prop) : Prop where
  presents : search.forest.Presents search.table lattice
  cheapest : search.cheapest.size = search.forest.nodes.size
  faithful : search.share.Faithful kindOf InUse
  meanings : ∀ (rule : Nat) entry, search.table.rules[rule]? = some entry →
    ∀ meaning, entry.rule.meaning = some meaning → meaning.Kinded kindOf
  inserted : ∀ (rule : Nat) entry, search.table.rules[rule]? = some entry →
    ∀ meaning, entry.rule.insertion.bind Insertion.meaning = some meaning → meaning.Kinded kindOf
  entities : ∀ hit ∈ lattice.found, ∀ entity, hit.entity = some entity →
    kindOf entity.id = .argument

/-- What the rules of choices cost, added in the order of the choices. -/
def Search.Costs (search : Search κ) (choices : List Choice) (cost : κ) : Prop :=
  ∃ rules : List Nat, choices.map (Tree.ruleOf? search.forest) = rules.map some ∧
    rules.foldlM (fun total rule => do
      let ruleCost ← search.table.costOf rule
      .ok (total + ruleCost)) 0 = .ok cost

/-- A candidate stands for the derivations that begin with its choices. -/
structure Candidate.Stands (search : Search κ) (kindOf : String → ConceptKind) (root : Nat)
    (candidate : Candidate κ) : Prop where
  kinded : ∀ frame ∈ candidate.frames, frame.Kinded kindOf
  settled : ∀ rest, candidate.steps ≠ .close :: rest
  inside : ∀ id ∈ pending candidate.steps, id < search.forest.nodes.size
  spelled : ∀ suffix trees, search.forest.Spells (pending candidate.steps) suffix trees →
    ∃ tree, search.forest.Spells [root] (candidate.choices.reverse ++ suffix) [tree] ∧
      (tree.interpretation? search.table search.forest).map Interpretation.costless =
        (Search.resume search.table search.forest candidate.steps candidate.frames trees).map
          Interpretation.costless
  reached : ∀ suffix tree,
    search.forest.Spells [root] (candidate.choices.reverse ++ suffix) [tree] →
      ∃ trees, search.forest.Spells (pending candidate.steps) suffix trees
  cost : search.Costs candidate.choices.reverse candidate.cost

namespace Search

variable {search : Search κ} {lattice : Lattice} {kindOf : String → ConceptKind}
  {InUse : Pool κ → Prop} {pool : Pool κ} {root id index : Nat} {node : Node}
  {alternative : Alternative} {entry : IndexedRule κ} {steps : List Step}
  {frames : List (Frame κ)} {candidate : Candidate κ}

theorem entity_kinded {entity : Entity} (argument : kindOf entity.id = .argument) :
    (Meaning.entity entity.id : Meaning κ).Kinded kindOf :=
  Meaning.kinded_apply.2 ⟨argument.symm, by simp⟩

theorem literalMeanings_kinded {rule : Rule κ} {entity : Option Entity}
    {meanings : List (Meaning κ)} (made : literalMeanings rule entity = some meanings)
    (own : ∀ meaning, rule.meaning = some meaning → meaning.Kinded kindOf)
    (named : ∀ found, entity = some found → kindOf found.id = .argument) :
    ∀ meaning ∈ meanings, meaning.Kinded kindOf := by
  have argumentKinded : ∀ argument : Meaning κ,
      (if rule.role = .placeholder then entity.map fun entity => .entity entity.id else none) =
        some argument → argument.Kinded kindOf := by
    intro argument given
    split at given
    · obtain ⟨found, present, rfl⟩ := Option.map_eq_some_iff.1 given
      exact entity_kinded (named found present)
    · cases given
  unfold literalMeanings at made
  simp only at made
  split at made
  · cases made
    simp
  · rename_i argument none given
    cases made
    intro meaning member
    rw [List.mem_singleton.1 member]
    exact argumentKinded argument given
  · rename_i meaning found none
    cases made
    intro other member
    rw [List.mem_singleton.1 member]
    exact own meaning found
  · rename_i meaning argument found given
    have ownKinded := own meaning found
    have inner := argumentKinded argument given
    split at made
    · obtain ⟨filled, filling, rfl⟩ := Option.map_eq_some_iff.1 made
      intro other member
      rw [List.mem_singleton.1 member]
      refine Meaning.fill?_kinded _ _ filling ownKinded fun other member => ?_
      rw [List.mem_singleton.1 member]
      exact inner
    · cases made
      intro other member
      rcases List.mem_cons.1 member with rfl | member
      · exact ownKinded
      · rw [List.mem_singleton.1 member]
        exact inner

theorem length_of_spells {forest : Forest} {nodes : List Nat} {choices : List Choice}
    {trees : List Tree} (spells : forest.Spells nodes choices trees) :
    trees.length = nodes.length := by
  induction spells with
  | nil => rfl
  | node _ _ _ _ _ ihOuter => rw [List.length_cons, List.length_cons, ihOuter]

/-- What entering an alternative leads to. -/
structure Entered (search : Search κ) (kindOf : String → ConceptKind) (id : Nat) (node : Node)
    (alternative : Alternative) (steps : List Step) (frames : List (Frame κ))
    (steps' : List Step) (frames' : List (Frame κ)) : Prop where
  kinded : ∀ frame ∈ frames', frame.Kinded kindOf
  settled : ∀ rest, steps' ≠ .close :: rest
  pending : pending steps' = alternative.children ++ pending steps
  resume : ∀ inner parts trees, search.forest.Spells alternative.children inner parts →
    (resume search.table search.forest (.expand id :: steps) frames
        (node.tree id alternative parts :: trees)).map Interpretation.costless =
      (Search.resume search.table search.forest steps' frames' (parts ++ trees)).map
        Interpretation.costless

/-- Whatever steps and frames stand for the alternative, settling them keeps that so. -/
theorem entered_of_settle (steps' : List Step) {frames' : List (Frame κ)}
    (ready : search.Ready lattice kindOf InUse) (inUse : InUse pool)
    (kinded : ∀ frame ∈ frames', frame.Kinded kindOf)
    (awaits : pending steps' = alternative.children ++ pending steps)
    (alike : ∀ inner parts trees, search.forest.Spells alternative.children inner parts →
      (resume search.table search.forest (.expand id :: steps) frames
          (node.tree id alternative parts :: trees)).map Interpretation.costless =
        (resume search.table search.forest steps' frames' (parts ++ trees)).map
          Interpretation.costless) :
    InUse (settle search.share pool steps' frames').2 ∧
      ((settle search.share pool steps' frames').1 = none → ∀ inner parts trees,
        search.forest.Spells alternative.children inner parts →
          resume search.table search.forest (.expand id :: steps) frames
            (node.tree id alternative parts :: trees) = none) ∧
      ∀ last left, (settle search.share pool steps' frames').1 = some (last, left) →
        Entered search kindOf id node alternative steps frames last left := by
  obtain ⟨still, dropped, settled⟩ :=
    settle_spec search.table search.forest ready.faithful steps' inUse kinded
  refine ⟨still, fun nothing inner parts trees spells => ?_, fun last left found => ?_⟩
  · have none := alike inner parts trees spells
    rw [dropped nothing _, Option.map_none, Option.map_eq_none_iff] at none
    exact none
  · have inner := settled last left found
    exact ⟨inner.kinded, inner.open_, inner.pending.trans awaits, fun choices parts trees spells =>
      (alike choices parts trees spells).trans (inner.resume _)⟩

theorem enter_spec (node : Node) (steps : List Step) (ready : search.Ready lattice kindOf InUse)
    (inUse : InUse pool) (kinded : ∀ frame ∈ frames, frame.Kinded kindOf)
    (has : search.forest.Has id alternative)
    (known : search.table.rules[alternative.rule]? = some entry) :
    ∃ result after, search.enter pool entry.rule alternative steps frames =
        .ok (result, after) ∧ InUse after ∧
      (result = none → ∀ inner parts trees,
        search.forest.Spells alternative.children inner parts →
          resume search.table search.forest (.expand id :: steps) frames
            (node.tree id alternative parts :: trees) = none) ∧
      ∀ steps' frames', result = some (steps', frames') →
        Entered search kindOf id node alternative steps frames steps' frames' := by
  cases alternative with
  | terminal rule found =>
      obtain ⟨hit, own, present, -, -, -⟩ := ready.presents.terminal _ _ _ has
      have hitFound : search.forest.found[found]? = some hit := by
        rw [ready.presents.found]
        exact present
      have matchFound : search.forest.matchAt found = .ok hit := by
        simp [Forest.matchAt, Fault.lookUp, hitFound]
      have yields : ∀ parts, (node.tree id (.terminal rule found) parts).yield? search.table
          search.forest = literalMeanings entry.rule hit.entity := by
        intro parts
        simp only [Node.tree, Tree.yield?, hitFound]
        rw [show search.table.rules[rule]? = some entry from known]
      cases made : literalMeanings entry.rule hit.entity with
      | none =>
          refine ⟨none, pool, ?_, inUse, fun _ inner parts trees spells => ?_, by simp⟩
          · simp only [enter, matchFound, made, bind, Except.bind]
          · simp only [resume, yields, made, Option.bind_none]
      | some meanings =>
          have meaningsKinded := literalMeanings_kinded made (ready.meanings _ _ known)
            fun entity given => ready.entities hit (Array.mem_of_getElem? present) entity given
          obtain ⟨same, shared, later⟩ := ready.faithful.shareAll inUse meaningsKinded
          refine ⟨_, _, ?_, entered_of_settle steps ready later
            (contribute_kinded kinded shared) rfl fun inner parts trees spells => ?_⟩
          · simp only [enter, matchFound, made, bind, Except.bind]
          · cases spells
            simp only [resume, yields, made, Option.bind_some, List.nil_append]
            exact resume_congr steps trees (contribute_costless same.symm rfl)
  | branch rule children =>
      have ruleKnown : search.table.rules[rule]? = some entry := known
      have insertedKinded : ∀ meaning ∈ (entry.rule.insertion.bind Insertion.meaning).toList,
          meaning.Kinded kindOf := fun meaning member =>
        ready.inserted _ _ known meaning (Option.mem_toList.1 member)
      obtain ⟨same, shared, later⟩ := ready.faithful.shareAll inUse insertedKinded
      refine ⟨_, _, rfl, entered_of_settle _ ready later
        (List.forall_mem_cons.2 ⟨⟨ready.meanings _ _ known, shared⟩, kinded⟩)
        (pending_expand ..) fun inner parts trees spells => ?_⟩
      have below : search.forest.Spells children inner parts := spells
      rw [resume_children children _ _ parts trees (length_of_spells below)]
      simp only [resume, Node.tree, Tree.yield?_branch ruleKnown below.branches]
      cases Tree.yields? search.table search.forest parts with
      | none => rfl
      | some own =>
          simp only [Option.bind_some, contribute, resume]
          refine bind_costless (close?_congr ?_) fun first second equal => ?_
          · simp only [Frame.costless, List.map_append, same]
          · exact resume_congr steps trees (contribute_costless equal rfl)

end Search

end QueryGrammar
