import QueryGrammar.Proofs.Forest.Phrase
import QueryGrammar.Tree.Basic

namespace QueryGrammar

/-! The trees of a forest, and the choices that spell them.

Main statement: where a forest presents a lattice, choices at a node spell exactly the phrases that
the node contains, every one in a single way.
-/

def Node.tree (node : Node) (id : Nat) (alternative : Alternative) (parts : List Tree) : Tree :=
  match alternative with
  | .terminal rule found =>
      .branch id rule ⟨node.start, node.stop⟩ [.leaf found ⟨node.start, node.stop⟩]
  | .branch rule _ => .branch id rule ⟨node.start, node.stop⟩ parts

/-- Trees for nodes in order, and the choices in pre-order that pick one alternative of every
node in them. -/
inductive Forest.Spells (forest : Forest) : List Nat → List Choice → List Tree → Prop
  | nil : forest.Spells [] [] []
  | node {id index : Nat} {node : Node} {alternative : Alternative} {rest : List Nat}
      {inner outer : List Choice} {parts trees : List Tree} :
      forest.nodes[id]? = some node → node.alternatives[index]? = some alternative →
      forest.Spells alternative.children inner parts → forest.Spells rest outer trees →
      forest.Spells (id :: rest) ((id, index) :: (inner ++ outer))
        (node.tree id alternative parts :: trees)

def Phrase.ofParts? (rule : Nat) : List Phrase → Option Phrase
  | [part] => some (.single rule part)
  | [left, right] => some (.pair rule left right)
  | _ => none

theorem Phrase.ofParts?_inj {rule other : Nat} {parts others : List Phrase} {phrase : Phrase}
    (made : Phrase.ofParts? rule parts = some phrase)
    (also : Phrase.ofParts? other others = some phrase) : rule = other ∧ parts = others := by
  unfold Phrase.ofParts? at made also
  split at made <;> split at also <;> cases made <;> cases also <;> exact ⟨rfl, rfl⟩

namespace Tree

mutual

/-- What a tree derives, its nodes and stretches left out. -/
def phrase? : Tree → Option Phrase
  | .leaf _ _ => none
  | .branch _ rule _ [.leaf found _] => some (.literal rule found)
  | .branch _ rule _ children =>
      match phrases? children with
      | some parts => Phrase.ofParts? rule parts
      | none => none

def phrases? : List Tree → Option (List Phrase)
  | [] => some []
  | first :: rest =>
      match phrase? first, phrases? rest with
      | some phrase, some phrases => some (phrase :: phrases)
      | _, _ => none

end

theorem phrases?_cons {first : Tree} {rest : List Tree} {phrases : List Phrase} :
    phrases? (first :: rest) = some phrases ↔ ∃ phrase others, phrase? first = some phrase ∧
      phrases? rest = some others ∧ phrases = phrase :: others := by
  rw [phrases?]
  cases phrase? first <;> cases phrases? rest <;> simp [eq_comm]

theorem phrase?_branch {node rule : Nat} {span : Span} {children : List Tree}
    {phrases : List Phrase} (parts : phrases? children = some phrases) :
    phrase? (.branch node rule span children) = Phrase.ofParts? rule phrases := by
  rw [phrase?]
  · rw [parts]
  · intro found inner given
    subst given
    simp [phrases?, phrase?] at parts

end Tree

namespace Forest

variable {κ : Type} {table : Table κ} {lattice : Lattice} {forest : Forest} {id index : Nat}
  {nodes more : List Nat} {choices others : List Choice} {trees : List Tree} {node : Node}
  {alternative : Alternative} {phrase : Phrase}

theorem has_of_getElem? (found : forest.nodes[id]? = some node)
    (chosen : node.alternatives[index]? = some alternative) : forest.Has id alternative :=
  ⟨node, found, List.mem_of_getElem? chosen⟩

theorem Spells.append {first second : List Choice} {left right : List Tree}
    (before : forest.Spells nodes first left) (after : forest.Spells more second right) :
    forest.Spells (nodes ++ more) (first ++ second) (left ++ right) := by
  induction before with
  | nil => exact after
  | node found chosen inner _ _ ih =>
      simp only [List.cons_append, List.append_assoc]
      exact .node found chosen inner ih

theorem Spells.split (spells : forest.Spells (nodes ++ more) choices trees) :
    ∃ first second left right, choices = first ++ second ∧ trees = left ++ right ∧
      forest.Spells nodes first left ∧ forest.Spells more second right := by
  induction nodes generalizing choices trees with
  | nil => exact ⟨[], choices, [], trees, rfl, rfl, .nil, spells⟩
  | cons id rest ih =>
      obtain - | ⟨found, chosen, inner, outer⟩ := spells
      obtain ⟨first, second, left, right, rfl, rfl, before, after⟩ := ih outer
      exact ⟨_, second, _, right, by simp, rfl, .node found chosen inner before, after⟩

/-- The choices at a single node: one alternative, then those of its children. -/
theorem spells_one : forest.Spells [id] choices trees ↔ ∃ node index alternative inner parts,
    forest.nodes[id]? = some node ∧ node.alternatives[index]? = some alternative ∧
      forest.Spells alternative.children inner parts ∧ choices = (id, index) :: inner ∧
        trees = [node.tree id alternative parts] := by
  constructor
  · intro spells
    obtain - | ⟨found, chosen, inner, outer⟩ := spells
    cases outer
    exact ⟨_, _, _, _, _, found, chosen, inner, by simp, rfl⟩
  · intro given
    obtain ⟨node, index, alternative, inner, parts, found, chosen, spells, rfl, rfl⟩ := given
    have one := Spells.node found chosen spells .nil
    rwa [List.append_nil] at one

/-- A phrase made of parts by a rule, as the children of an alternative. -/
theorem contains_branch {rule : Nat} {children : List Nat} {parts : List Phrase}
    (has : forest.Has id (.branch rule children)) (made : Phrase.ofParts? rule parts = some phrase)
    (contained : List.Forall₂ forest.Contains children parts) : forest.Contains id phrase := by
  unfold Phrase.ofParts? at made
  split at made
  · cases made
    obtain - | ⟨part, last⟩ := contained
    cases last
    exact .single has part
  · cases made
    obtain - | ⟨left, - | ⟨right, last⟩⟩ := contained
    cases last
    exact .pair has left right
  · cases made

theorem Covers.exists_phrase {slots children : List Nat} {start stop rule : Nat}
    {parts : List Phrase} (covers : forest.Covers slots children start stop)
    (contained : List.Forall₂ forest.Contains children parts) :
    ∃ phrase, Phrase.ofParts? rule parts = some phrase := by
  cases covers with
  | single child =>
      obtain - | ⟨part, last⟩ := contained
      cases last
      exact ⟨_, rfl⟩
  | pair left right =>
      obtain - | ⟨part, - | ⟨part, last⟩⟩ := contained
      cases last
      exact ⟨_, rfl⟩

theorem Spells.phrases (presents : forest.Presents table lattice)
    (spells : forest.Spells nodes choices trees) :
    ∃ phrases, Tree.phrases? trees = some phrases ∧
      List.Forall₂ forest.Contains nodes phrases := by
  induction spells with
  | nil => exact ⟨[], by simp [Tree.phrases?], .nil⟩
  | @node id index node alternative _ _ _ parts _ found chosen _ _ ihInner ihOuter =>
      have has := has_of_getElem? found chosen
      obtain ⟨others, tail, containedTail⟩ := ihOuter
      cases alternative with
      | terminal rule index =>
          refine ⟨.literal rule index :: others, ?_, .cons (.literal has) containedTail⟩
          exact Tree.phrases?_cons.2 ⟨_, _, by simp [Node.tree, Tree.phrase?], tail, rfl⟩
      | branch rule children =>
          obtain ⟨phrases, inside, contained⟩ := ihInner
          obtain ⟨entry, start, stop, -, -, covers⟩ := presents.branch _ _ _ has
          obtain ⟨phrase, made⟩ := covers.exists_phrase contained
          refine ⟨phrase :: others, ?_, .cons (contains_branch has made contained) containedTail⟩
          exact Tree.phrases?_cons.2
            ⟨_, _, (Tree.phrase?_branch inside).trans made, tail, rfl⟩

theorem Contains.exists_spells (contains : forest.Contains id phrase) :
    ∃ choices tree, forest.Spells [id] choices [tree] ∧ tree.phrase? = some phrase := by
  induction contains with
  | literal has =>
      obtain ⟨node, found, member⟩ := has
      obtain ⟨index, chosen⟩ := List.getElem?_of_mem member
      exact ⟨_, _, .node found chosen .nil .nil, by simp [Node.tree, Tree.phrase?]⟩
  | single has _ ih =>
      obtain ⟨node, found, member⟩ := has
      obtain ⟨index, chosen⟩ := List.getElem?_of_mem member
      obtain ⟨inner, part, spells, phrase⟩ := ih
      have parts : Tree.phrases? [part] = some [_] :=
        Tree.phrases?_cons.2 ⟨_, [], phrase, by simp [Tree.phrases?], rfl⟩
      exact ⟨_, _, .node found chosen spells .nil, Tree.phrase?_branch parts⟩
  | pair has _ _ ihLeft ihRight =>
      obtain ⟨node, found, member⟩ := has
      obtain ⟨index, chosen⟩ := List.getElem?_of_mem member
      obtain ⟨leftChoices, left, leftSpells, leftPhrase⟩ := ihLeft
      obtain ⟨rightChoices, right, rightSpells, rightPhrase⟩ := ihRight
      have last : Tree.phrases? [right] = some [_] :=
        Tree.phrases?_cons.2 ⟨_, [], rightPhrase, by simp [Tree.phrases?], rfl⟩
      have parts : Tree.phrases? [left, right] = some [_, _] :=
        Tree.phrases?_cons.2 ⟨_, _, leftPhrase, last, rfl⟩
      exact ⟨_, _, .node found chosen (leftSpells.append rightSpells) .nil,
        Tree.phrase?_branch parts⟩

theorem Presents.exists_spells (presents : forest.Presents table lattice)
    (inside : ∀ id ∈ nodes, id < forest.nodes.size) :
    ∃ choices trees, forest.Spells nodes choices trees := by
  induction nodes with
  | nil => exact ⟨[], [], .nil⟩
  | cons id rest ih =>
      obtain ⟨own, others⟩ := List.forall_mem_cons.1 inside
      obtain ⟨choices, trees, after⟩ := ih others
      obtain ⟨phrase, contains⟩ := presents.inhabited id _ _ _
        ⟨_, Array.getElem?_eq_getElem own, rfl, rfl, rfl⟩
      obtain ⟨first, tree, before, -⟩ := contains.exists_spells
      exact ⟨_, _, before.append after⟩

/-- Every node has an alternative. -/
theorem Presents.filled (presents : forest.Presents table lattice) :
    ∀ node ∈ forest.nodes, node.alternatives ≠ [] := by
  intro node member none
  obtain ⟨id, inside, rfl⟩ := Array.getElem_of_mem member
  obtain ⟨choices, trees, spells⟩ := presents.exists_spells (List.forall_mem_singleton.2 inside)
  obtain ⟨again, index, alternative, -, -, found, chosen, -⟩ := spells_one.1 spells
  cases (Array.getElem?_eq_getElem inside).symm.trans found
  rw [none] at chosen
  cases chosen

/-- The phrase of a tree settles the alternative that the tree takes. -/
theorem Presents.alternative_unique {other : Alternative} {inner also : List Choice}
    {parts partsAlso : List Tree} (presents : forest.Presents table lattice)
    (has : forest.Has id alternative) (hasAlso : forest.Has id other)
    (spells : forest.Spells alternative.children inner parts)
    (spellsAlso : forest.Spells other.children also partsAlso)
    (phrase : (node.tree id alternative parts).phrase? =
      (node.tree id other partsAlso).phrase?) :
    alternative = other ∧ Tree.phrases? parts = Tree.phrases? partsAlso := by
  obtain ⟨phrases, inside, contained⟩ := spells.phrases presents
  obtain ⟨phrasesAlso, insideAlso, containedAlso⟩ := spellsAlso.phrases presents
  cases alternative with
  | terminal rule found =>
      cases spells
      cases other with
      | terminal rule' found' =>
          cases spellsAlso
          simp only [Node.tree, Tree.phrase?, Option.some.injEq, Phrase.literal.injEq] at phrase
          obtain ⟨rfl, rfl⟩ := phrase
          exact ⟨rfl, rfl⟩
      | branch rule' children' =>
          simp only [Node.tree, Tree.phrase?, Tree.phrase?_branch insideAlso] at phrase
          unfold Phrase.ofParts? at phrase
          split at phrase <;> cases phrase
  | branch rule children =>
      cases other with
      | terminal rule' found' =>
          simp only [Node.tree, Tree.phrase?, Tree.phrase?_branch inside] at phrase
          unfold Phrase.ofParts? at phrase
          split at phrase <;> cases phrase
      | branch rule' children' =>
          obtain ⟨entry, start, stop, known, is, covers⟩ := presents.branch _ _ _ has
          obtain ⟨entry', start', stop', known', is', covers'⟩ := presents.branch _ _ _ hasAlso
          obtain ⟨-, rfl, rfl⟩ := is.same is'
          obtain ⟨whole, made⟩ := covers.exists_phrase contained
          simp only [Node.tree, Tree.phrase?_branch inside, Tree.phrase?_branch insideAlso] at phrase
          obtain ⟨rfl, rfl⟩ := Phrase.ofParts?_inj made (phrase ▸ made)
          cases known.symm.trans known'
          rw [presents.covers_unique covers covers' contained containedAlso]
          exact ⟨rfl, inside.trans insideAlso.symm⟩

theorem Spells.unique {treesAlso : List Tree} (presents : forest.Presents table lattice)
    (spells : forest.Spells nodes choices trees) (also : forest.Spells nodes others treesAlso)
    (phrases : Tree.phrases? trees = Tree.phrases? treesAlso) :
    choices = others ∧ trees = treesAlso := by
  induction spells generalizing others treesAlso with
  | nil =>
      cases also
      exact ⟨rfl, rfl⟩
  | @node id index node alternative _ _ _ parts _ found chosen inner outer ihInner ihOuter =>
      have given := Spells.node found chosen inner outer
      obtain - | ⟨foundAlso, chosenAlso, innerAlso, outerAlso⟩ := also
      cases found.symm.trans foundAlso
      obtain ⟨listed, first, -⟩ := given.phrases presents
      obtain ⟨phrase, rest, head, tail, rfl⟩ := Tree.phrases?_cons.1 first
      obtain ⟨phrase', rest', head', tail', same⟩ := Tree.phrases?_cons.1 (phrases ▸ first)
      obtain ⟨rfl, rfl⟩ := List.cons.inj same
      obtain ⟨rfl, insides⟩ := presents.alternative_unique (has_of_getElem? found chosen)
        (has_of_getElem? found chosenAlso) inner innerAlso (head.trans head'.symm)
      obtain ⟨rfl, rfl⟩ := ihInner innerAlso insides
      obtain ⟨rfl, rfl⟩ := ihOuter outerAlso (tail.trans tail'.symm)
      have indexes := (List.getElem?_inj (List.getElem?_eq_some_iff.1 chosen).1
        (presents.packed.distinct _ _ found)).1 (chosen.trans chosenAlso.symm)
      subst indexes
      exact ⟨rfl, rfl⟩

/-- The choices at a node and the phrases it contains, one to one. -/
theorem Presents.spells_iff (presents : forest.Presents table lattice) (id : Nat) :
    (∀ choices tree, forest.Spells [id] choices [tree] →
      ∃ phrase, tree.phrase? = some phrase ∧ forest.Contains id phrase) ∧
    ∀ phrase, forest.Contains id phrase →
      ∃! choices, ∃ tree, forest.Spells [id] choices [tree] ∧ tree.phrase? = some phrase := by
  constructor
  · intro choices tree spells
    obtain ⟨phrases, listed, contained⟩ := spells.phrases presents
    obtain ⟨phrase, rest, own, tail, rfl⟩ := Tree.phrases?_cons.1 listed
    obtain - | ⟨contains, -⟩ := contained
    exact ⟨phrase, own, contains⟩
  · intro phrase contains
    obtain ⟨choices, tree, spells, own⟩ := contains.exists_spells
    refine ⟨choices, ⟨tree, spells, own⟩, fun other ⟨also, spellsAlso, ownAlso⟩ => ?_⟩
    refine (spellsAlso.unique presents spells ?_).1
    simp only [Tree.phrases?, own, ownAlso]

end Forest

end QueryGrammar
