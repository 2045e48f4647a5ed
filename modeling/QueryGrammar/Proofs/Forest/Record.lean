import QueryGrammar.Forest.Basic

namespace QueryGrammar

/-! What a forest says of its nodes, and how recording an alternative changes that.

Main statement: recording an alternative for a symbol over a stretch adds that alternative and no
other, to the one node there is for it, and the index goes on leading to the nodes.
-/

namespace Forest

variable {forest : Forest} {id other symbol start stop symbol' start' stop' : Nat}
  {alternative given : Alternative} {node present : Node}

/-- A node and what it stands for. -/
def Is (forest : Forest) (id symbol start stop : Nat) : Prop :=
  ∃ node, forest.nodes[id]? = some node ∧ node.symbol = symbol ∧ node.start = start ∧
    node.stop = stop

def Has (forest : Forest) (id : Nat) (alternative : Alternative) : Prop :=
  ∃ node, forest.nodes[id]? = some node ∧ alternative ∈ node.alternatives

theorem Is.lt_size (known : forest.Is id symbol start stop) : id < forest.nodes.size := by
  obtain ⟨node, found, -⟩ := known
  exact (Array.getElem?_eq_some_iff.1 found).1

theorem Is.same {symbol' start' stop' : Nat} (known : forest.Is id symbol start stop)
    (also : forest.Is id symbol' start' stop') :
    symbol = symbol' ∧ start = start' ∧ stop = stop' := by
  obtain ⟨node, found, rfl, rfl, rfl⟩ := known
  obtain ⟨again, foundAgain, rfl, rfl, rfl⟩ := also
  cases found.symm.trans foundAgain
  exact ⟨rfl, rfl, rfl⟩

theorem exists_is (inside : id < forest.nodes.size) :
    ∃ symbol start stop, forest.Is id symbol start stop :=
  ⟨_, _, _, _, Array.getElem?_eq_getElem inside, rfl, rfl, rfl⟩

theorem Has.exists_is (has : forest.Has id alternative) :
    ∃ symbol start stop, forest.Is id symbol start stop := by
  obtain ⟨node, found, -⟩ := has
  exact Forest.exists_is (Array.getElem?_eq_some_iff.1 found).1

/-- The index leads to the nodes and nowhere else, and no node has an alternative twice. -/
structure Packed (forest : Forest) : Prop where
  indexed : ∀ symbol start stop id,
    forest.find? symbol start stop = some id ↔ forest.Is id symbol start stop
  distinct : ∀ (id : Nat) node, forest.nodes[id]? = some node → node.alternatives.Nodup

/-- A symbol has one node over a stretch, as the index leads to one only. -/
theorem Packed.unique (packed : forest.Packed) (known : forest.Is id symbol start stop)
    (also : forest.Is other symbol start stop) : id = other :=
  Option.some.inj (((packed.indexed ..).2 known).symm.trans ((packed.indexed ..).2 also))

theorem packed_ofMatches (found : Array Match) : (ofMatches found).Packed where
  indexed _ _ _ _ := by
    refine ⟨fun entry => ?_, fun known => absurd known.lt_size (Nat.not_lt_zero _)⟩
    cases entry
  distinct _ _ present := by cases present

theorem Packed.withRoot (packed : forest.Packed) (root : Option Nat) :
    Packed { forest with root } :=
  ⟨packed.indexed, packed.distinct⟩

/-- What recording an alternative changes. -/
structure Recorded (before after : Forest) (id symbol start stop : Nat)
    (alternative : Alternative) : Prop where
  found : after.found = before.found
  is_iff : ∀ other symbol' start' stop', after.Is other symbol' start' stop' ↔
    before.Is other symbol' start' stop' ∨
      other = id ∧ symbol' = symbol ∧ start' = start ∧ stop' = stop
  has_iff : ∀ other given, after.Has other given ↔
    before.Has other given ∨ other = id ∧ given = alternative
  packed : after.Packed

theorem nodup_adding (distinct : node.alternatives.Nodup) (new : alternative ∉ node.alternatives) :
    (node.adding alternative).alternatives.Nodup := by
  refine List.nodup_append.2 ⟨distinct, by simp, fun given member last inLast => ?_⟩
  rintro rfl
  exact new (List.mem_singleton.1 inLast ▸ member)

/-! Adding a node. -/

theorem getElem?_addNode : (forest.addNode symbol start stop).nodes[other]? = some present ↔
    forest.nodes[other]? = some present ∨
      other = forest.nodes.size ∧ present = ⟨symbol, start, stop, []⟩ := by
  rw [addNode, Array.getElem?_push]
  by_cases last : other = forest.nodes.size
  · subst last
    simp [eq_comm]
  · simp [last]

theorem find?_addNode : (forest.addNode symbol start stop).find? symbol' start' stop' =
    if (symbol', start', stop') = (symbol, start, stop) then some forest.nodes.size
    else forest.find? symbol' start' stop' := by
  simp only [find?, addNode, List.lookup_cons]
  split <;> simp_all

theorem is_addNode : (forest.addNode symbol start stop).Is other symbol' start' stop' ↔
    forest.Is other symbol' start' stop' ∨
      other = forest.nodes.size ∧ symbol' = symbol ∧ start' = start ∧ stop' = stop := by
  simp only [Is, getElem?_addNode]
  constructor
  · intro premise
    obtain ⟨node, known | ⟨rfl, rfl⟩, rfl, rfl, rfl⟩ := premise
    · exact .inl ⟨node, known, rfl, rfl, rfl⟩
    · exact .inr ⟨rfl, rfl, rfl, rfl⟩
  · intro premise
    rcases premise with ⟨node, known, same⟩ | ⟨rfl, rfl, rfl, rfl⟩
    · exact ⟨node, .inl known, same⟩
    · exact ⟨_, .inr ⟨rfl, rfl⟩, rfl, rfl, rfl⟩

theorem has_addNode : (forest.addNode symbol start stop).Has other given ↔
    forest.Has other given := by
  simp only [Has, getElem?_addNode]
  constructor
  · intro premise
    obtain ⟨node, known | ⟨rfl, rfl⟩, member⟩ := premise
    · exact ⟨node, known, member⟩
    · cases member
  · intro premise
    obtain ⟨node, known, member⟩ := premise
    exact ⟨node, .inl known, member⟩

theorem Packed.addNode (packed : forest.Packed)
    (missing : forest.find? symbol start stop = none) :
    (forest.addNode symbol start stop).Packed where
  indexed symbol' start' stop' other := by
    rw [find?_addNode, is_addNode, ← packed.indexed]
    split
    · rename_i same
      cases same
      simp [missing, eq_comm]
    · rename_i differs
      simp only [Prod.mk.injEq] at differs
      exact ⟨.inl, fun premise => premise.resolve_right fun last => differs last.2⟩
  distinct other node known := by
    rcases getElem?_addNode.1 known with before | ⟨rfl, rfl⟩
    · exact packed.distinct other node before
    · exact List.nodup_nil

theorem ensure_spec (packed : forest.Packed) (symbol start stop : Nat) :
    (forest.ensure symbol start stop).2.found = forest.found ∧
      (∀ other symbol' start' stop',
        (forest.ensure symbol start stop).2.Is other symbol' start' stop' ↔
          forest.Is other symbol' start' stop' ∨ other = (forest.ensure symbol start stop).1 ∧
            symbol' = symbol ∧ start' = start ∧ stop' = stop) ∧
      (∀ other given, (forest.ensure symbol start stop).2.Has other given ↔
        forest.Has other given) ∧
      (forest.ensure symbol start stop).2.Packed := by
  unfold ensure
  cases found : forest.find? symbol start stop with
  | some id =>
      refine ⟨rfl, fun other symbol' start' stop' => ⟨.inl, ?_⟩, fun _ _ => .rfl, packed⟩
      intro premise
      rcases premise with known | ⟨rfl, rfl, rfl, rfl⟩
      · exact known
      · exact (packed.indexed ..).1 found
  | none =>
      exact ⟨rfl, fun _ _ _ _ => is_addNode, fun _ _ => has_addNode, packed.addNode found⟩

/-! Adding an alternative to a node. -/

section

variable (known : forest.nodes[id]? = some node)

include known

theorem getElem?_put {after : Node} : (forest.put id after).nodes[other]? = some present ↔
    other ≠ id ∧ forest.nodes[other]? = some present ∨ other = id ∧ present = after := by
  have inside := (Array.getElem?_eq_some_iff.1 known).1
  rw [put, Array.getElem?_setIfInBounds]
  by_cases here : id = other
  · subst here
    simp [inside, eq_comm]
  · simp [here, Ne.symm here]

theorem is_put : (forest.put id (node.adding alternative)).Is other symbol' start' stop' ↔
    forest.Is other symbol' start' stop' := by
  simp only [Is, getElem?_put known]
  constructor
  · intro premise
    obtain ⟨present, ⟨-, before⟩ | ⟨rfl, rfl⟩, same⟩ := premise
    · exact ⟨present, before, same⟩
    · exact ⟨node, known, same⟩
  · intro premise
    obtain ⟨present, before, same⟩ := premise
    by_cases here : other = id
    · subst here
      cases known.symm.trans before
      exact ⟨_, .inr ⟨rfl, rfl⟩, same⟩
    · exact ⟨present, .inl ⟨here, before⟩, same⟩

theorem has_put : (forest.put id (node.adding alternative)).Has other given ↔
    forest.Has other given ∨ other = id ∧ given = alternative := by
  simp only [Has, getElem?_put known]
  constructor
  · intro premise
    obtain ⟨present, ⟨-, before⟩ | ⟨rfl, rfl⟩, member⟩ := premise
    · exact .inl ⟨present, before, member⟩
    · rcases List.mem_append.1 member with earlier | last
      · exact .inl ⟨node, known, earlier⟩
      · exact .inr ⟨rfl, List.mem_singleton.1 last⟩
  · intro premise
    rcases premise with ⟨present, before, member⟩ | ⟨rfl, rfl⟩
    · by_cases here : other = id
      · subst here
        cases known.symm.trans before
        exact ⟨_, .inr ⟨rfl, rfl⟩, List.mem_append_left _ member⟩
      · exact ⟨present, .inl ⟨here, before⟩, member⟩
    · exact ⟨_, .inr ⟨rfl, rfl⟩, List.mem_append_right _ (List.mem_singleton_self _)⟩

theorem Packed.put (packed : forest.Packed) (new : alternative ∉ node.alternatives) :
    (forest.put id (node.adding alternative)).Packed where
  indexed _ _ _ _ := (packed.indexed ..).trans (is_put known).symm
  distinct other present later := by
    rcases (getElem?_put known).1 later with ⟨-, before⟩ | ⟨rfl, rfl⟩
    · exact packed.distinct other present before
    · exact nodup_adding (packed.distinct other node known) new

end

theorem addAlternative_spec (packed : forest.Packed) (inside : id < forest.nodes.size)
    (alternative : Alternative) :
    ∃ new after, forest.addAlternative id alternative = .ok (new, after) ∧
      after.found = forest.found ∧
      (∀ other symbol' start' stop', after.Is other symbol' start' stop' ↔
        forest.Is other symbol' start' stop') ∧
      (∀ other given, after.Has other given ↔
        forest.Has other given ∨ other = id ∧ given = alternative) ∧
      after.Packed := by
  have known := Array.getElem?_eq_getElem inside
  have found : forest.nodeAt id = .ok forest.nodes[id] := Fault.lookUp_of_lt inside
  simp only [addAlternative, found, bind, Except.bind, List.contains_iff_mem]
  split
  · rename_i has
    refine ⟨false, forest, rfl, rfl, fun _ _ _ _ => .rfl, fun other given => ⟨.inl, ?_⟩, packed⟩
    intro premise
    rcases premise with before | ⟨rfl, rfl⟩
    · exact before
    · exact ⟨_, known, has⟩
  · rename_i new
    exact ⟨true, _, rfl, rfl, fun _ _ _ _ => is_put known, fun _ _ => has_put known,
      packed.put known new⟩

theorem record_spec (packed : forest.Packed) (symbol start stop : Nat)
    (alternative : Alternative) :
    ∃ new after, (forest.ensure symbol start stop).2.addAlternative
        (forest.ensure symbol start stop).1 alternative = .ok (new, after) ∧
      Recorded forest after (forest.ensure symbol start stop).1 symbol start stop alternative := by
  obtain ⟨ensuredFound, ensuredIs, ensuredHas, ensuredPacked⟩ :=
    ensure_spec packed symbol start stop
  have known := (ensuredIs (forest.ensure symbol start stop).1 symbol start stop).2
    (.inr ⟨rfl, rfl, rfl, rfl⟩)
  obtain ⟨new, after, added, sameFound, sameIs, hasIff, stillPacked⟩ :=
    addAlternative_spec ensuredPacked known.lt_size alternative
  refine ⟨new, after, added, sameFound.trans ensuredFound, fun other symbol' start' stop' => ?_,
    fun other given => ?_, stillPacked⟩
  · rw [sameIs, ensuredIs]
  · rw [hasIff, ensuredHas]

theorem Recorded.is {before after : Forest}
    (recorded : Recorded before after id symbol start stop alternative) :
    after.Is id symbol start stop :=
  (recorded.is_iff ..).2 (.inr ⟨rfl, rfl, rfl, rfl⟩)

theorem Recorded.has {before after : Forest}
    (recorded : Recorded before after id symbol start stop alternative) :
    after.Has id alternative :=
  (recorded.has_iff ..).2 (.inr ⟨rfl, rfl⟩)

end Forest

end QueryGrammar
