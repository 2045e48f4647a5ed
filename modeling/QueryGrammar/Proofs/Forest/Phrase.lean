import Mathlib.Data.List.Forall2
import QueryGrammar.Proofs.Forest.Record
import QueryGrammar.Table.Basic

namespace QueryGrammar

/-! Derivations, as a grammar sees them and as a forest holds them.

Main statement: where a forest presents a lattice, the phrases that a node contains derive the
node's symbol over its stretch.
-/

/-- How a symbol derives a stretch of the input. -/
inductive Phrase where
  /-- A rule on a literal, over a match. -/
  | literal (rule found : Nat)
  | single (rule : Nat) (part : Phrase)
  | pair (rule : Nat) (left right : Phrase)

/-- The phrases that a grammar allows a symbol over a stretch. -/
inductive Derives {κ : Type} (table : Table κ) (lattice : Lattice) : Phrase → Nat → Nat → Nat → Prop
  | literal {rule found : Nat} {entry : IndexedRule κ} {hit : Match} :
      table.rules[rule]? = some entry → lattice.found[found]? = some hit →
      rule ∈ table.literalRules hit.literal →
      Derives table lattice (.literal rule found) entry.symbol hit.start hit.stop
  | single {rule symbol start stop : Nat} {entry : IndexedRule κ} {part : Phrase} :
      table.rules[rule]? = some entry → entry.slots = [symbol] →
      Derives table lattice part symbol start stop →
      Derives table lattice (.single rule part) entry.symbol start stop
  | pair {rule first second start middle stop : Nat} {entry : IndexedRule κ}
      {left right : Phrase} :
      table.rules[rule]? = some entry → entry.slots = [first, second] →
      Derives table lattice left first start middle →
      Derives table lattice right second middle stop →
      Derives table lattice (.pair rule left right) entry.symbol start stop

variable {κ : Type} {table : Table κ} {lattice : Lattice}

/-- A phrase settles what it derives. -/
theorem Derives.same {phrase : Phrase} {symbol start stop symbol' start' stop' : Nat}
    (derives : Derives table lattice phrase symbol start stop)
    (also : Derives table lattice phrase symbol' start' stop') :
    symbol = symbol' ∧ start = start' ∧ stop = stop' := by
  induction derives generalizing symbol' start' stop' with
  | literal known found listed =>
      obtain ⟨knownAlso, foundAlso, -⟩ := also
      cases known.symm.trans knownAlso
      cases found.symm.trans foundAlso
      exact ⟨rfl, rfl, rfl⟩
  | single known slots part ih =>
      obtain - | ⟨knownAlso, slotsAlso, partAlso⟩ := also
      cases known.symm.trans knownAlso
      exact ⟨rfl, (ih partAlso).2⟩
  | pair known slots left right ihLeft ihRight =>
      obtain - | - | ⟨knownAlso, slotsAlso, leftAlso, rightAlso⟩ := also
      cases known.symm.trans knownAlso
      exact ⟨rfl, (ihLeft leftAlso).2.1, (ihRight rightAlso).2.2⟩

namespace Forest

variable {forest after : Forest} {id symbol start stop : Nat} {phrase : Phrase}
  {slots children : List Nat}

/-- The phrases that the alternatives of a node and of those below it make up. -/
inductive Contains (forest : Forest) : Nat → Phrase → Prop
  | literal {id rule found : Nat} : forest.Has id (.terminal rule found) →
      forest.Contains id (.literal rule found)
  | single {id rule child : Nat} {part : Phrase} : forest.Has id (.branch rule [child]) →
      forest.Contains child part → forest.Contains id (.single rule part)
  | pair {id rule first second : Nat} {left right : Phrase} :
      forest.Has id (.branch rule [first, second]) → forest.Contains first left →
      forest.Contains second right → forest.Contains id (.pair rule left right)

/-- Nodes for symbols in order, each over the stretch that follows the one before. -/
inductive Covers (forest : Forest) : List Nat → List Nat → Nat → Nat → Prop
  | single {symbol child start stop : Nat} : forest.Is child symbol start stop →
      forest.Covers [symbol] [child] start stop
  | pair {first second left right start middle stop : Nat} :
      forest.Is left first start middle → forest.Is right second middle stop →
      forest.Covers [first, second] [left, right] start stop

/-- A forest of derivations that a grammar has of a lattice. -/
structure Presents (table : Table κ) (lattice : Lattice) (forest : Forest) : Prop where
  packed : forest.Packed
  found : forest.found = lattice.found
  node : ∀ id symbol start stop, forest.Is id symbol start stop →
    symbol < table.symbols.size ∧ start < stop ∧ stop ≤ lattice.length
  inhabited : ∀ id symbol start stop, forest.Is id symbol start stop →
    ∃ phrase, forest.Contains id phrase
  terminal : ∀ id rule index, forest.Has id (.terminal rule index) → ∃ hit entry,
    lattice.found[index]? = some hit ∧ rule ∈ table.literalRules hit.literal ∧
      table.rules[rule]? = some entry ∧ forest.Is id entry.symbol hit.start hit.stop
  branch : ∀ id rule children, forest.Has id (.branch rule children) → ∃ entry start stop,
    table.rules[rule]? = some entry ∧ forest.Is id entry.symbol start stop ∧
      forest.Covers entry.slots children start stop

theorem Contains.mono (contains : forest.Contains id phrase)
    (has : ∀ id alternative, forest.Has id alternative → after.Has id alternative) :
    after.Contains id phrase := by
  induction contains with
  | literal known => exact .literal (has _ _ known)
  | single known _ ih => exact .single (has _ _ known) ih
  | pair known _ _ ihLeft ihRight => exact .pair (has _ _ known) ihLeft ihRight

theorem Covers.mono (covers : forest.Covers slots children start stop)
    (is : ∀ id symbol start stop, forest.Is id symbol start stop →
      after.Is id symbol start stop) : after.Covers slots children start stop := by
  cases covers with
  | single known => exact .single (is _ _ _ _ known)
  | pair left right => exact .pair (is _ _ _ _ left) (is _ _ _ _ right)

theorem Presents.derives (presents : forest.Presents table lattice)
    (contains : forest.Contains id phrase) (is : forest.Is id symbol start stop) :
    Derives table lattice phrase symbol start stop := by
  induction contains generalizing symbol start stop with
  | literal has =>
      obtain ⟨hit, entry, found, listed, known, own⟩ := presents.terminal _ _ _ has
      obtain ⟨rfl, rfl, rfl⟩ := own.same is
      exact .literal known found listed
  | single has part ih =>
      obtain ⟨entry, first, last, known, own, covers⟩ := presents.branch _ _ _ has
      obtain ⟨rfl, rfl, rfl⟩ := own.same is
      generalize slots : entry.slots = symbols at covers
      obtain ⟨child⟩ := covers
      exact .single known slots (ih child)
  | pair has left right ihLeft ihRight =>
      obtain ⟨entry, first, last, known, own, covers⟩ := presents.branch _ _ _ has
      obtain ⟨rfl, rfl, rfl⟩ := own.same is
      generalize slots : entry.slots = symbols at covers
      obtain - | ⟨leftChild, rightChild⟩ := covers
      exact .pair known slots (ihLeft leftChild) (ihRight rightChild)

theorem Presents.rule_known {alternative : Alternative} (presents : forest.Presents table lattice)
    (has : forest.Has id alternative) : ∃ entry, table.rules[alternative.rule]? = some entry := by
  cases alternative with
  | terminal rule index =>
      obtain ⟨hit, entry, -, -, known, -⟩ := presents.terminal _ _ _ has
      exact ⟨entry, known⟩
  | branch rule children =>
      obtain ⟨entry, start, stop, known, -, -⟩ := presents.branch _ _ _ has
      exact ⟨entry, known⟩

/-- Two ways to cover the same symbols with the same phrases use the same nodes. -/
theorem Presents.covers_unique {other : List Nat} {phrases : List Phrase}
    (presents : forest.Presents table lattice) (covers : forest.Covers slots children start stop)
    (also : forest.Covers slots other start stop)
    (contained : List.Forall₂ forest.Contains children phrases)
    (alsoContained : List.Forall₂ forest.Contains other phrases) : children = other := by
  cases covers with
  | single child =>
      obtain ⟨childAlso⟩ := also
      rw [presents.packed.unique child childAlso]
  | pair left right =>
      obtain - | ⟨leftAlso, rightAlso⟩ := also
      obtain - | ⟨leftPhrase, -⟩ := contained
      obtain - | ⟨leftPhraseAlso, -⟩ := alsoContained
      have derives := presents.derives leftPhrase left
      obtain ⟨-, -, rfl⟩ := derives.same (presents.derives leftPhraseAlso leftAlso)
      rw [presents.packed.unique left leftAlso,
        presents.packed.unique right rightAlso]

/-! Sorting the alternatives keeps what a forest says. -/

theorem getElem?_sorted {node : Node} : forest.sorted.nodes[id]? = some node ↔
    ∃ before, forest.nodes[id]? = some before ∧
      { before with alternatives := before.alternatives.mergeSort Alternative.isBefore } = node := by
  simp [sorted]

theorem sorted_is : forest.sorted.Is id symbol start stop ↔ forest.Is id symbol start stop := by
  constructor
  · intro given
    obtain ⟨node, found, rfl, rfl, rfl⟩ := given
    obtain ⟨before, known, rfl⟩ := getElem?_sorted.1 found
    exact ⟨before, known, rfl, rfl, rfl⟩
  · intro given
    obtain ⟨node, known, rfl, rfl, rfl⟩ := given
    exact ⟨_, getElem?_sorted.2 ⟨node, known, rfl⟩, rfl, rfl, rfl⟩

theorem sorted_has {alternative : Alternative} :
    forest.sorted.Has id alternative ↔ forest.Has id alternative := by
  constructor
  · intro given
    obtain ⟨node, found, member⟩ := given
    obtain ⟨before, known, rfl⟩ := getElem?_sorted.1 found
    exact ⟨before, known, List.mem_mergeSort.1 member⟩
  · intro given
    obtain ⟨node, known, member⟩ := given
    exact ⟨_, getElem?_sorted.2 ⟨node, known, rfl⟩, List.mem_mergeSort.2 member⟩

theorem Packed.sorted (packed : forest.Packed) : forest.sorted.Packed where
  indexed _ _ _ _ := (packed.indexed ..).trans sorted_is.symm
  distinct id node found := by
    obtain ⟨before, known, rfl⟩ := getElem?_sorted.1 found
    exact (List.mergeSort_perm ..).nodup_iff.2 (packed.distinct id before known)

theorem Presents.sorted (presents : forest.Presents table lattice) :
    forest.sorted.Presents table lattice where
  packed := presents.packed.sorted
  found := presents.found
  node _ _ _ _ is := presents.node _ _ _ _ (sorted_is.1 is)
  inhabited _ _ _ _ is := by
    obtain ⟨phrase, contains⟩ := presents.inhabited _ _ _ _ (sorted_is.1 is)
    exact ⟨phrase, contains.mono fun _ _ => sorted_has.2⟩
  terminal _ _ _ has := by
    obtain ⟨hit, entry, found, listed, known, is⟩ := presents.terminal _ _ _ (sorted_has.1 has)
    exact ⟨hit, entry, found, listed, known, sorted_is.2 is⟩
  branch _ _ _ has := by
    obtain ⟨entry, start, stop, known, is, covers⟩ := presents.branch _ _ _ (sorted_has.1 has)
    exact ⟨entry, start, stop, known, sorted_is.2 is, covers.mono fun _ _ _ _ => sorted_is.2⟩

end Forest

end QueryGrammar
