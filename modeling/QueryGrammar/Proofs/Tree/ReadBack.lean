import QueryGrammar.Proofs.Edits.Offers
import QueryGrammar.Proofs.Parse.Exact
import QueryGrammar.Proofs.Table.Rules
import QueryGrammar.Proofs.Text.Words
import QueryGrammar.Tree.Phrasing

namespace QueryGrammar

/-! Derivations that read like the query.

Main statement: where no rule in a derivation edits the input or rewords it, the text that the
derivation displays is the query again, up to case and blanks.
-/

open Automaton Text

variable {κ : Type}

/-- A tree that displays what it matches: no rule on symbols is derived, and the rules on literals
are placeholders, which show what was typed, or plain ones that show their own literal, where that
does not stand for an entity. -/
inductive Tree.Verbatim (table : Table κ) (forest : Forest) : Tree → Prop
  | typed {node rule : Nat} {span : Span} {children : List Tree} {entry : IndexedRule κ} :
      table.rules[rule]? = some entry → entry.rule.isLiteral = true →
      entry.rule.role = .placeholder → Verbatim table forest (.branch node rule span children)
  | literal {node rule found : Nat} {span inner : Span} {entry : IndexedRule κ} {hit : Match} :
      table.rules[rule]? = some entry → entry.rule.isLiteral = true → entry.rule.role = .plain →
      entry.rule.wording = none → forest.found[found]? = some hit → hit.entity = none →
      Verbatim table forest (.branch node rule span [.leaf found inner])
  | symbols {node rule : Nat} {span : Span} {children : List Tree} {entry : IndexedRule κ} :
      table.rules[rule]? = some entry → entry.rule.isLiteral = false →
      entry.rule.insertion = none → entry.rule.transposed = false →
      (∀ child ∈ children, Verbatim table forest child) →
      Verbatim table forest (.branch node rule span children)

namespace Lattice

variable {table : Table κ} {gazetteer : Gazetteer} {query : String} {lattice : Lattice}
  {start middle stop : Nat} {hit : Match} {run : List Token}

/-- The tokens of a stretch. -/
def stretch (lattice : Lattice) (start stop : Nat) : List Token :=
  (lattice.tokens.take stop).drop start

theorem stretch_append (before : start ≤ middle) (after : middle ≤ stop) :
    lattice.stretch start middle ++ lattice.stretch middle stop = lattice.stretch start stop := by
  have shorter : lattice.tokens.take middle = (lattice.tokens.take stop).take middle := by
    rw [List.take_take, Nat.min_eq_left after]
  unfold stretch
  rw [shorter]
  generalize lattice.tokens.take stop = tokens
  calc (tokens.take middle).drop start ++ tokens.drop middle
      = (tokens.take middle ++ tokens.drop middle).drop start := by
        rw [List.drop_append]
        by_cases long : middle ≤ tokens.length
        · rw [List.length_take_of_le long, Nat.sub_eq_zero_of_le before, List.drop_zero]
        · have short : tokens.drop middle = [] := List.drop_eq_nil_of_le (by omega)
          rw [short, List.drop_nil]
    _ = tokens.drop start := by rw [List.take_append_drop]

theorem stretch_ne_nil (nonempty : start < stop) (inside : stop ≤ lattice.length) :
    lattice.stretch start stop ≠ [] := by
  have bound : stop ≤ lattice.tokens.length := inside
  rw [stretch, Ne, List.drop_eq_nil_iff, List.length_take]
  omega

theorem stretch_whole : lattice.stretch 0 lattice.length = lattice.tokens :=
  List.take_length

theorem mem_tokens_of_mem_stretch {token : Token} (member : token ∈ lattice.stretch start stop) :
    token ∈ lattice.tokens :=
  List.mem_of_mem_take (List.mem_of_mem_drop member)

theorem keyOf_append {left right : List Token} (leftNonempty : left ≠ [])
    (rightNonempty : right ≠ []) : keyOf (left ++ right) = keyOf left ++ " " ++ keyOf right := by
  rw [keyOf, List.map_append, spaced_append (by simpa using leftNonempty) (by simpa using rightNonempty)]
  rfl

theorem of_mem_tokensOf {token : Token} (member : token ∈ tokensOf query) :
    token.text ∈ wordsOf query ∧ token.normalized = lower token.text := by
  obtain ⟨word, found, rfl⟩ := List.mem_map.1 member
  exact ⟨found, rfl⟩

theorem keyOf_tokensOf : keyOf (tokensOf query) = normalize query := by
  rw [normalize_eq, keyOf, tokensOf, List.map_map]
  rfl

/-- What was typed for a run of tokens has those tokens as its words. -/
theorem wordsOf_textOf (known : ∀ token ∈ run, token ∈ tokensOf query) :
    wordsOf (textOf run) = run.map Token.text := by
  rw [textOf, wordsOf_spaced, List.flatMap_map, List.map_eq_flatMap]
  exact List.flatMap_congr fun token member =>
    wordsOf_word (of_mem_tokensOf (known token member)).1

theorem ofQuery_tokens (read : ofQuery table gazetteer query = .ok lattice) :
    lattice.tokens = tokensOf query := by
  unfold ofQuery at read
  split at read
  · cases read
  · rename_i tokens
    cases read
    exact tokens.symm

/-- A match is over what was typed, and over its own literal unless that stands for an entity. -/
theorem ofQuery_found (read : ofQuery table gazetteer query = .ok lattice)
    (member : hit ∈ lattice.found) :
    hit.text = textOf (lattice.stretch hit.start hit.stop) ∧
      (hit.entity = none → hit.literal = keyOf (lattice.stretch hit.start hit.stop)) := by
  unfold ofQuery at read
  split at read
  · cases read
  · cases read
    simp only [List.mem_toArray, List.mem_flatMap] at member
    obtain ⟨⟨start, stop⟩, -, among⟩ := member
    rcases List.mem_append.1 among with plain | named
    · split at plain
      · rw [List.mem_singleton.1 plain]
        exact ⟨rfl, fun _ => rfl⟩
      · cases plain
    · obtain ⟨⟨category, entity⟩, -, made⟩ := List.mem_filterMap.1 named
      simp only at made
      split at made
      · cases made
        exact ⟨rfl, fun none => by cases none⟩
      · cases made

/-- Words that are those of a stretch, up to case and to where they are divided. -/
structure ReadsAs (lattice : Lattice) (words : List String) (start stop : Nat) : Prop where
  nonempty : words.flatMap wordsOf ≠ []
  key : spaced ((words.flatMap wordsOf).map lower) = keyOf (lattice.stretch start stop)

theorem ReadsAs.append {first second : List String} (before : lattice.ReadsAs first start middle)
    (after : lattice.ReadsAs second middle stop) (left : start < middle) (right : middle < stop)
    (inside : stop ≤ lattice.length) : lattice.ReadsAs (first ++ second) start stop where
  nonempty := by simp [before.nonempty]
  key := by
    have leftTokens := stretch_ne_nil left (Nat.le_trans (Nat.le_of_lt right) inside)
    have rightTokens := stretch_ne_nil right inside
    rw [List.flatMap_append, List.map_append, spaced_append (by simpa using before.nonempty)
      (by simpa using after.nonempty), before.key, after.key,
      ← keyOf_append leftTokens rightTokens,
      stretch_append (Nat.le_of_lt left) (Nat.le_of_lt right)]

/-- A single text whose words are there reads as its stretch. -/
theorem ReadsAs.wordOf {text : String} (nonempty : wordsOf text ≠ [])
    (key : spaced ((wordsOf text).map lower) = keyOf (lattice.stretch start stop)) :
    lattice.ReadsAs (Tree.wordOf (some text)) start stop := by
  have shown : Tree.wordOf (some text) = [text] := by
    rw [Tree.wordOf, if_neg]
    intro empty
    rw [String.isEmpty_iff.1 empty] at nonempty
    exact nonempty (by simp [wordsOf, words])
  rw [shown]
  exact ⟨by simpa using nonempty, by simpa using key⟩

theorem readsAs_typed (read : ofQuery table gazetteer query = .ok lattice)
    (member : hit ∈ lattice.found) :
    lattice.ReadsAs (Tree.wordOf (some hit.text)) hit.start hit.stop := by
  obtain ⟨begins, inside⟩ := ofQuery_spanning read hit member
  have known : ∀ token ∈ lattice.stretch hit.start hit.stop, token ∈ tokensOf query :=
    fun token among => ofQuery_tokens read ▸ mem_tokens_of_mem_stretch among
  have typed : wordsOf hit.text = (lattice.stretch hit.start hit.stop).map Token.text := by
    rw [(ofQuery_found read member).1, wordsOf_textOf known]
  refine .wordOf (by simpa [typed] using stretch_ne_nil begins inside) ?_
  rw [typed, List.map_map, keyOf]
  exact congrArg spaced (List.map_congr_left fun token among =>
    (of_mem_tokensOf (known token among)).2.symm)

/-- No key is empty, since no word is. -/
theorem keyOf_ne_empty (known : ∀ token ∈ run, token ∈ tokensOf query) (nonempty : run ≠ []) :
    keyOf run ≠ "" := by
  obtain ⟨token, rest, rfl⟩ := List.exists_cons_of_ne_nil nonempty
  obtain ⟨word, same⟩ := of_mem_tokensOf (known token (List.mem_cons_self ..))
  have solid : token.normalized ≠ "" := same ▸ lower_ne_empty (word_ne_empty word)
  cases rest with
  | nil => simpa [keyOf, spaced] using solid
  | cons second others =>
      simp [keyOf, spaced_cons_cons, solid]

theorem readsAs_literal {literal : String} (read : ofQuery table gazetteer query = .ok lattice)
    (member : hit ∈ lattice.found) (plain : hit.entity = none)
    (same : normalize literal = hit.literal) :
    lattice.ReadsAs (Tree.wordOf (some literal)) hit.start hit.stop := by
  obtain ⟨begins, inside⟩ := ofQuery_spanning read hit member
  have key : normalize literal = keyOf (lattice.stretch hit.start hit.stop) :=
    same.trans ((ofQuery_found read member).2 plain)
  refine .wordOf (fun empty => ?_) (normalize_eq literal ▸ key)
  have known : ∀ token ∈ lattice.stretch hit.start hit.stop, token ∈ tokensOf query :=
    fun token among => ofQuery_tokens read ▸ mem_tokens_of_mem_stretch among
  refine keyOf_ne_empty known (stretch_ne_nil begins inside) ?_
  rw [← key, normalize_eq, empty]
  rfl

end Lattice

/-- Compiling leaves no rule on the empty literal. -/
theorem Table.isEmptyLiteral_of_compile [Cost κ] {grammar : Grammar κ} {table : Table κ} {rule : Nat}
    {entry : IndexedRule κ} (compiled : Table.compile grammar = .ok table)
    (known : table.rules[rule]? = some entry) : entry.rule.production.isEmptyLiteral = false := by
  obtain ⟨-, edited, derived, built⟩ := stages_of_compile compiled
  obtain ⟨name, -, member, -⟩ := rule_of_build built known
  exact (Grammar.origin_of_withEdits derived member).isEmptyLiteral_eq_false

namespace Forest

variable {table : Table κ} {lattice : Lattice} {forest : Forest} {kernels : Array Kernel}
  {gazetteer : Gazetteer} {query : String} {nodes : List Nat} {choices : List Choice}
  {trees : List Tree}

/-- If a tree is verbatim, its words are those of the stretch of its node. -/
def ReadsBack (forest : Forest) (table : Table κ) (lattice : Lattice) (id : Nat) (tree : Tree) :
    Prop :=
  tree.Verbatim table forest → ∀ symbol start stop, forest.Is id symbol start stop →
    ∀ form person, ∃ words later, tree.phrase table forest form person = .ok (words, later) ∧
      lattice.ReadsAs words start stop

theorem readsBack_terminal {id rule found : Nat} {span : Span}
    (compiled : table.Compiled kernels) (presents : forest.Presents table lattice)
    (read : Lattice.ofQuery table gazetteer query = .ok lattice)
    (solid : ∀ (rule : Nat) entry, table.rules[rule]? = some entry →
      entry.rule.production.isEmptyLiteral = false)
    (has : forest.Has id (.terminal rule found)) :
    forest.ReadsBack table lattice id (.branch id rule span [.leaf found span]) := by
  obtain ⟨hit, entry, present, listed, known, own⟩ := presents.terminal _ _ _ has
  obtain ⟨again, text, knownAgain, production, same⟩ := (compiled.literal _ _).1 listed
  cases known.symm.trans knownAgain
  have member := Array.mem_of_getElem? present
  have isLiteral : entry.rule.isLiteral = true := by
    rw [Rule.isLiteral, production, Production.isLiteral]
  intro verbatim symbol start stop is form person
  obtain ⟨-, rfl, rfl⟩ := own.same is
  cases verbatim with
  | typed knownAlso _ role =>
      cases known.symm.trans knownAlso
      refine ⟨_, entry.rule.person <|> person, ?_, Lattice.readsAs_typed read member⟩
      simp only [Tree.phrase, Table.ruleAt, Fault.lookUp, known, isLiteral, if_true,
        Tree.literalPhrase, role, Forest.matchAt, presents.found, present, bind, Except.bind]
  | literal knownAlso _ role wording foundAlso plain =>
      cases known.symm.trans knownAlso
      rw [presents.found, present] at foundAlso
      cases foundAlso
      refine ⟨_, entry.rule.person <|> person, ?_, Lattice.readsAs_literal read member plain same⟩
      have shown : entry.rule.display = some (.fixed text) := by
        have notEmpty := solid _ _ known
        rw [production, Production.isEmptyLiteral] at notEmpty
        simp [Rule.display, role, wording, production, notEmpty]
      simp [Tree.phrase, Table.ruleAt, Fault.lookUp, known, isLiteral, Tree.literalPhrase, role,
        Tree.resolve, shown, Wording.resolve, bind, Except.bind]
  | symbols knownAlso notLiteral =>
      cases known.symm.trans knownAlso
      rw [isLiteral] at notLiteral
      cases notLiteral

theorem readsBack_branch {id rule : Nat} {children : List Nat} {parts : List Tree} {span : Span}
    (compiled : table.Compiled kernels) (presents : forest.Presents table lattice)
    (has : forest.Has id (.branch rule children))
    (inner : List.Forall₂ (forest.ReadsBack table lattice) children parts) :
    forest.ReadsBack table lattice id (.branch id rule span parts) := by
  obtain ⟨entry, first, last, known, own, covers⟩ := presents.branch _ _ _ has
  have slots : entry.rule.slots ≠ [] := by
    have arity := compiled.arity _ _ known
    intro none
    rw [none, List.length_nil, List.length_eq_zero_iff] at arity
    rw [arity] at covers
    cases covers
  have notLiteral : entry.rule.isLiteral = false := by
    cases production : entry.rule.production with
    | literal text => exact absurd (by rw [Rule.slots, production, Production.slots]) slots
    | symbols slots => rw [Rule.isLiteral, production, Production.isLiteral]
  intro verbatim symbol start stop is form person
  obtain ⟨-, rfl, rfl⟩ := own.same is
  cases verbatim with
  | typed knownAlso literal | literal knownAlso literal =>
      cases known.symm.trans knownAlso
      rw [notLiteral] at literal
      cases literal
  | symbols knownAlso _ insertion transposed inside =>
      cases known.symm.trans knownAlso
      generalize entry.slots = slots at covers
      cases covers with
      | single child =>
          obtain - | ⟨reads, done⟩ := inner
          cases done
          obtain ⟨words, later, phrase, readsAs⟩ :=
            reads (inside _ (List.mem_cons_self ..)) _ _ _ child
              (entry.rule.formAt 0 <|> form) (entry.rule.person <|> person)
          refine ⟨words, entry.rule.person <|> later, ?_, readsAs⟩
          simp only [Tree.phrase, Tree.phraseAll, Table.ruleAt, Fault.lookUp, known, notLiteral,
            insertion, transposed, phrase, List.append_nil, Bool.false_eq_true, if_false, bind,
            Except.bind]
      | pair left right =>
          obtain - | ⟨readsLeft, - | ⟨readsRight, done⟩⟩ := inner
          cases done
          obtain ⟨ownLeft, others⟩ := List.forall_mem_cons.1 inside
          obtain ⟨leftWords, middle, leftPhrase, leftReads⟩ := readsLeft ownLeft _ _ _ left
            (entry.rule.formAt 0 <|> form) (entry.rule.person <|> person)
          obtain ⟨rightWords, later, rightPhrase, rightReads⟩ :=
            readsRight (others _ (List.mem_cons_self ..)) _ _ _ right
              (entry.rule.formAt 1 <|> form) middle
          obtain ⟨-, begins, -⟩ := presents.node _ _ _ _ left
          obtain ⟨-, goes, ends⟩ := presents.node _ _ _ _ right
          refine ⟨leftWords ++ rightWords, entry.rule.person <|> later, ?_,
            leftReads.append rightReads begins goes ends⟩
          simp only [Tree.phrase, Tree.phraseAll, Table.ruleAt, Fault.lookUp, known, notLiteral,
            insertion, transposed, leftPhrase, rightPhrase, List.append_nil, Bool.false_eq_true,
            if_false, bind, Except.bind]

theorem Spells.readsBack (compiled : table.Compiled kernels)
    (presents : forest.Presents table lattice)
    (read : Lattice.ofQuery table gazetteer query = .ok lattice)
    (solid : ∀ (rule : Nat) entry, table.rules[rule]? = some entry →
      entry.rule.production.isEmptyLiteral = false)
    (spells : forest.Spells nodes choices trees) :
    List.Forall₂ (forest.ReadsBack table lattice) nodes trees := by
  induction spells with
  | nil => exact .nil
  | @node id index node alternative _ _ _ parts _ found chosen _ _ ihInner ihOuter =>
      have has := has_of_getElem? found chosen
      refine .cons ?_ ihOuter
      cases alternative with
      | terminal rule found => exact readsBack_terminal compiled presents read solid has
      | branch rule children => exact readsBack_branch compiled presents has ihInner

/-- Derivations without edits and without words of their own read like the query. -/
theorem phrasing_reads_query [Cost κ] {grammar : Grammar κ} {root : Nat} {tree : Tree}
    (compiled : Table.compile grammar = .ok table)
    (read : Lattice.ofQuery table gazetteer query = .ok lattice)
    (made : ofLattice table lattice = .ok (.ok forest)) (top : forest.root = some root)
    (spells : forest.Spells [root] choices [tree]) (verbatim : tree.Verbatim table forest) :
    ∃ text, tree.phrasing table forest = .ok text ∧ normalize text = normalize query := by
  obtain ⟨kernels, automaton⟩ := Table.compile_compiled compiled
  rcases ofLattice_spec automaton (Lattice.ofQuery_spanning read) with
    ⟨again, rootAgain, madeAgain, presents, topAgain, is, -⟩ | ⟨failed, -⟩
  · cases made.symm.trans madeAgain
    cases top.symm.trans topAgain
    obtain - | ⟨reads, -⟩ := spells.readsBack automaton presents read
      fun _ _ => Table.isEmptyLiteral_of_compile compiled
    obtain ⟨words, person, phrase, readsAs⟩ := reads verbatim _ _ _ is none none
    refine ⟨spaced words, by simp [Tree.phrasing, phrase, bind, Except.bind], ?_⟩
    calc normalize (spaced words)
        = spaced ((words.flatMap wordsOf).map lower) := by rw [normalize_eq, wordsOf_spaced]
      _ = Lattice.keyOf lattice.tokens := by rw [readsAs.key, Lattice.stretch_whole]
      _ = normalize query := by rw [Lattice.ofQuery_tokens read, Lattice.keyOf_tokensOf]
  · rw [failed] at made
    cases made

end Forest

/-- A literal of two words before the name of a user. -/
def Grammar.following : Grammar Amount where
  start := "S"
  rules := .ofList [("F", [.literal "who follows"]), ("S", [.symbols ["F", "U"]]),
    ("U", [{ Rule.literal "\x7buser\x7d" with role := .placeholder }])]
  concepts := {}

/-- A single user, whose name is of two words. -/
def Gazetteer.danny : Gazetteer :=
  ⟨.ofList [("danny b", [("user", ⟨"1", "danny b"⟩)])], 2⟩

namespace Forest

set_option maxRecDepth 100000 in
theorem phrasing_reads_query_following : ∃ table lattice forest root choices tree,
    Table.compile Grammar.following = .ok table ∧
      Lattice.ofQuery table .danny "  Who FOLLOWS Danny   B" = .ok lattice ∧
      ofLattice table lattice = .ok (.ok forest) ∧ forest.root = some root ∧
      forest.Spells [root] choices [tree] ∧ tree.Verbatim table forest ∧
      ∃ text, tree.phrasing table forest = .ok text ∧
        normalize text = normalize "  Who FOLLOWS Danny   B" := by
  have parses : ((Table.compile Grammar.following).toOption.any fun table =>
      (Lattice.ofQuery table .danny "  Who FOLLOWS Danny   B").toOption.any fun lattice =>
      (ofLattice table lattice).toOption.any fun outcome => outcome.toOption.any fun forest =>
        decide (forest.root = some 2) &&
        decide (forest.nodes = #[⟨0, 0, 2, [.terminal 0 0]⟩, ⟨2, 2, 4, [.terminal 2 1]⟩,
          ⟨1, 0, 4, [.branch 1 [0, 1]]⟩]) &&
        (forest.found[0]?.any fun hit => decide (hit.entity = none)) &&
        (table.rules[0]?.any fun entry => decide (entry.rule.isLiteral = true ∧
          entry.rule.role = .plain ∧ entry.rule.wording = none)) &&
        (table.rules[1]?.any fun entry => decide (entry.rule.isLiteral = false) &&
          entry.rule.isBase) &&
        table.rules[2]?.any fun entry => decide (entry.rule.isLiteral = true ∧
          entry.rule.role = .placeholder)) = true := by
    decide +kernel
  obtain ⟨table, compiled, reads⟩ := exists_ok_of_any parses
  obtain ⟨lattice, read, parsed⟩ := exists_ok_of_any reads
  obtain ⟨outcome, made, known⟩ := exists_ok_of_any parsed
  obtain ⟨forest, rfl, facts⟩ := exists_ok_of_any known
  simp only [Bool.and_eq_true, decide_eq_true_eq, Option.any_eq_true, Rule.isBase,
    Option.isNone_iff_eq_none, Bool.not_eq_true'] at facts
  obtain ⟨⟨⟨⟨⟨top, nodes⟩, hit, found, noEntity⟩, phrase, ofPhrase, isLiteral, role, wording⟩,
    pair, ofPair, onSymbols, insertion, transposed⟩, name, ofName, isName, placeholder⟩ := facts
  have words : forest.nodes[0]? = some ⟨0, 0, 2, [.terminal 0 0]⟩ := by rw [nodes]; rfl
  have user : forest.nodes[1]? = some ⟨2, 2, 4, [.terminal 2 1]⟩ := by rw [nodes]; rfl
  have whole : forest.nodes[2]? = some ⟨1, 0, 4, [.branch 1 [0, 1]]⟩ := by rw [nodes]; rfl
  have literal : Tree.Verbatim table forest (.branch 0 0 ⟨0, 2⟩ [.leaf 0 ⟨0, 2⟩]) :=
    .literal ofPhrase isLiteral role wording found noEntity
  have typed : Tree.Verbatim table forest (.branch 1 2 ⟨2, 4⟩ [.leaf 1 ⟨2, 4⟩]) :=
    .typed ofName isName placeholder
  have verbatim : Tree.Verbatim table forest (.branch 2 1 ⟨0, 4⟩ [_, _]) :=
    .symbols ofPair onSymbols insertion transposed
      (List.forall_mem_cons.2 ⟨literal, List.forall_mem_singleton.2 typed⟩)
  have left : forest.Spells [0] [(0, 0)] [.branch 0 0 ⟨0, 2⟩ [.leaf 0 ⟨0, 2⟩]] :=
    spells_one.2 ⟨_, 0, .terminal 0 0, [], [], words, rfl, .nil, rfl, rfl⟩
  have right : forest.Spells [1] [(1, 0)] [.branch 1 2 ⟨2, 4⟩ [.leaf 1 ⟨2, 4⟩]] :=
    spells_one.2 ⟨_, 0, .terminal 2 1, [], [], user, rfl, .nil, rfl, rfl⟩
  have spells : forest.Spells [2] [(2, 0), (0, 0), (1, 0)] [.branch 2 1 ⟨0, 4⟩ [_, _]] :=
    spells_one.2 ⟨_, 0, .branch 1 [0, 1], _, _, whole, rfl, left.append right, rfl, rfl⟩
  exact ⟨table, lattice, forest, 2, _, _, compiled, read, made, top, spells, verbatim,
    phrasing_reads_query compiled read made top spells verbatim⟩

end Forest

end QueryGrammar
