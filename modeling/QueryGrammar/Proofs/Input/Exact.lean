import Mathlib.Data.List.Fold
import Mathlib.Data.List.MinMax
import QueryGrammar.Input.Lattice
import QueryGrammar.Proofs.Grammar.Rules
import QueryGrammar.Proofs.Table.Compiled
import QueryGrammar.Proofs.Text.Words

namespace QueryGrammar

/-! What a query is taken for.

Main statement: over every stretch of its words a query is matched by exactly the literals that read
like them and the entities that are called like them.  Only short stretches are looked up, but none
that is passed over could have been found.
-/

open Text

variable {κ : Type}

namespace Gazetteer

variable {gazetteer : Gazetteer} {calls : List (String × Entity)} {call : String × Entity}
  {key : String}

/-- Adds an entity, if that is possible. -/
def tryAdd (gazetteer : Gazetteer) (call : String × Entity) : Gazetteer :=
  (gazetteer.add call.1 call.2).toOption.getD gazetteer

/-- The gazetteer after a sequence of additions, of which some may have failed. -/
def ofCalls (calls : List (String × Entity)) : Gazetteer :=
  calls.foldl tryAdd empty

/-- Whether an addition concerns a normalized name and does not fail. -/
def concerns (key : String) (call : String × Entity) : Bool :=
  normalize call.2.name == key && !(isBlankText call.2.id || isBlankText call.1)

/-- The entities that were added under a normalized name, with their categories. The first one of
several with the same category and id stands for all. -/
def called (calls : List (String × Entity)) (key : String) : List (String × Entity) :=
  (calls.filter (concerns key)).eraseDupsBy fun later earlier =>
    earlier.1 == later.1 && earlier.2.id == later.2.id

theorem tryAdd_eq (gazetteer : Gazetteer) (call : String × Entity) :
    gazetteer.tryAdd call =
      if (normalize call.2.name).isEmpty || isBlankText call.2.id || isBlankText call.1 then gazetteer
      else ⟨gazetteer.byName.alter (normalize call.2.name) fun present =>
        addTo call.1 call.2 (present.getD []),
        max gazetteer.longestName (wordCount (normalize call.2.name))⟩ := by
  simp only [tryAdd, add]
  split <;> rfl

theorem lookUp_tryAdd (nonempty : key ≠ "") :
    (gazetteer.tryAdd call).lookUp key =
      if concerns key call then addTo call.1 call.2 (gazetteer.lookUp key)
      else gazetteer.lookUp key := by
  rw [tryAdd_eq]
  by_cases same : normalize call.2.name = key
  · cases noId : isBlankText call.2.id <;> cases noCategory : isBlankText call.1 <;>
      simp [concerns, nonempty, same, noId, noCategory, lookUp, Dictionary.get?_alter]
  · have other : ¬ key = normalize call.2.name := fun equal => same equal.symm
    split <;> simp [concerns, same, other, lookUp, Dictionary.get?_alter]

theorem lookUp_foldl (nonempty : key ≠ "") :
    (calls.foldl tryAdd gazetteer).lookUp key =
      (calls.filter (concerns key)).foldl (fun present call => addTo call.1 call.2 present)
        (gazetteer.lookUp key) := by
  induction calls generalizing gazetteer with
  | nil => rfl
  | cons call rest ih =>
      rw [List.foldl_cons, ih, lookUp_tryAdd nonempty]
      cases here : concerns key call <;> simp [here]

/-- Adding behind what is there leaves the first of each category and id. -/
theorem foldl_addTo (present : List (String × Entity)) :
    calls.foldl (fun present call => addTo call.1 call.2 present) present =
      List.eraseDupsBy.loop (fun later earlier =>
        earlier.1 == later.1 && earlier.2.id == later.2.id) calls present.reverse := by
  induction calls generalizing present with
  | nil => simp [List.eraseDupsBy.loop]
  | cons call rest ih =>
      rw [List.foldl_cons, ih, List.eraseDupsBy.loop, List.any_reverse, addTo]
      cases present.any fun earlier => earlier.1 == call.1 && earlier.2.id == call.2.id <;> simp

theorem lookUp_ofCalls (nonempty : key ≠ "") : (ofCalls calls).lookUp key = called calls key := by
  have nothing : empty.lookUp key = [] := rfl
  rw [ofCalls, lookUp_foldl nonempty, nothing, foldl_addTo]
  rfl

/-- The longest name is counted. -/
def Measured (gazetteer : Gazetteer) : Prop :=
  ∀ key, gazetteer.lookUp key ≠ [] → wordCount key ≤ gazetteer.longestName

theorem Measured.tryAdd (measured : gazetteer.Measured) : (gazetteer.tryAdd call).Measured := by
  rw [tryAdd_eq]
  split
  · exact measured
  · intro key present
    by_cases same : key = normalize call.2.name
    · rw [same]
      exact Nat.le_max_right ..
    · rw [lookUp, Dictionary.get?_alter, if_neg same] at present
      exact Nat.le_trans (measured key present) (Nat.le_max_left ..)

theorem measured_ofCalls (calls : List (String × Entity)) : (ofCalls calls).Measured := by
  have step : ∀ (calls : List (String × Entity)) (gazetteer : Gazetteer), gazetteer.Measured →
      (calls.foldl Gazetteer.tryAdd gazetteer).Measured := by
    intro calls
    induction calls with
    | nil => exact fun _ measured => measured
    | cons call rest ih => exact fun _ measured => ih _ measured.tryAdd
  exact step calls empty fun key present => absurd rfl present

theorem wordCount_spaced {words : List String} (nonempty : words ≠ [])
    (solid : ∀ word ∈ words, wordsOf word = [word]) : wordCount (spaced words) = words.length := by
  have none : ∀ word ∈ words, word.toList.filter (· == ' ') = [] := by
    intro word member
    have itself : word ∈ wordsOf word := by rw [solid word member]; exact List.mem_singleton_self _
    obtain ⟨letters, found, rfl⟩ := List.mem_map.1 itself
    rw [String.toList_ofList, List.filter_eq_nil_iff]
    rintro c among space
    have blank : isBlank ' ' = true := by decide +kernel
    have unblank := (words_solid found).2 c among
    rw [beq_iff_eq.1 space, blank] at unblank
    cases unblank
  clear solid
  induction words with
  | nil => exact absurd rfl nonempty
  | cons first rest ih =>
      obtain ⟨own, others⟩ := List.forall_mem_cons.1 none
      cases rest with
      | nil => simp [spaced, wordCount, own]
      | cons second more =>
          have before : ("".toList).filter (· == ' ') = [] := rfl
          have counted := ih (List.cons_ne_nil _ _) others
          rw [wordCount] at counted
          rw [spaced_cons_cons, wordCount, String.toList_append, String.toList_append,
            List.filter_append, List.filter_append, own]
          simp only [List.nil_append, List.length_append, List.length_cons] at counted ⊢
          have one : (" ".toList.filter (· == ' ')).length = 1 := by decide
          omega

end Gazetteer

/-- Whether a rule is on a literal that reads like `key`. -/
def Rule.readsLike (rule : Rule κ) (key : String) : Bool :=
  match rule.production with
  | .literal text => normalize text == key
  | .symbols _ => false

theorem Rule.readsLike_iff {rule : Rule κ} {key : String} :
    rule.readsLike key = true ↔ ∃ text, rule.production = .literal text ∧ normalize text = key := by
  unfold readsLike
  cases rule.production <;> simp

namespace Table

variable {table : Table κ} {kernels : Array Kernel} {key : String}

/-- Whether a rule of the table is on a literal that reads like `key`. -/
def spells (table : Table κ) (key : String) : Bool :=
  table.rules.any fun entry => entry.rule.readsLike key

theorem Compiled.mem_literalRules {id : Nat} (compiled : table.Compiled kernels) :
    id ∈ table.literalRules key ↔
      ∃ entry, table.rules[id]? = some entry ∧ entry.rule.readsLike key = true := by
  rw [compiled.literal key id]
  simp only [Rule.readsLike_iff, exists_and_left]

/-- The index of literals is that of the rules. -/
theorem Compiled.isLiteral_eq (compiled : table.Compiled kernels) (key : String) :
    Lattice.isLiteral table key = table.spells key := by
  rw [Bool.eq_iff_iff, spells, Array.any_eq_true, Lattice.isLiteral, Bool.not_eq_true',
    List.isEmpty_eq_false_iff_exists_mem]
  refine exists_congr fun id => compiled.mem_literalRules.trans ?_
  simp only [Array.getElem?_eq_some_iff]
  constructor
  · rintro ⟨entry, ⟨inside, rfl⟩, reads⟩
    exact ⟨inside, reads⟩
  · rintro ⟨inside, reads⟩
    exact ⟨_, ⟨inside, rfl⟩, reads⟩

theorem length_le_longestOf {literals : Dictionary (List Nat)} {ids : List Nat}
    (present : literals.get? key = some ids) : (wordsOf key).length ≤ longestOf literals := by
  have member : key ∈ literals.keys := Dictionary.mem_keys_iff.2 ⟨ids, present⟩
  rw [longestOf, List.foldl_eq_foldr]
  exact List.le_max_of_le' 0 (List.mem_map_of_mem member) (Nat.le_refl _)

theorem longestLiteral_of_compile [Cost κ] {grammar : Grammar κ}
    (compiled : compile grammar = .ok table) : table.longestLiteral = longestOf table.literals := by
  obtain ⟨-, edited, -, built⟩ := stages_of_compile compiled
  simp only [build] at built
  split at built
  · cases built
  · cases mapped : mapAll (indexRule edited.rules.keys) edited.allRules with
    | error cause => simp [mapped, bind, Except.bind] at built
    | ok rules =>
        simp only [mapped, bind, Except.bind, Except.ok.injEq] at built
        rw [← built]

end Table

namespace Lattice

variable {table : Table κ} {gazetteer : Gazetteer} {query : String} {run : List Token}
  {calls : List (String × Entity)} {words : List String} {span : Nat × Nat} {count longest : Nat}

/-- The stretches of `count` words, by start, then by stop. -/
def spans (count : Nat) : List (Nat × Nat) :=
  (List.range (count + 1)).flatMap fun start =>
    ((List.range (count + 1)).filter (start < ·)).map fun stop => (start, stop)

/-- What a stretch of words should be taken for: a literal that reads like it, then every entity that
is called like it, where its category is a literal. -/
def expected (table : Table κ) (calls : List (String × Entity)) (words : List String)
    (span : Nat × Nat) : List Match :=
  let typed := (words.take span.2).drop span.1
  let key := spaced (typed.map lower)
  let hit (literal : String) (entity : Option Entity) : Match :=
    ⟨literal, span.1, span.2, spaced typed, entity⟩
  (if table.spells key then [hit key none] else []) ++
    ((Gazetteer.called calls key).filter fun call => table.spells (categoryLiteral call.1)).map
      fun call => hit (categoryLiteral call.1) (some call.2)

theorem mem_spans : span ∈ spans count ↔ span.1 < span.2 ∧ span.2 ≤ count := by
  simp only [spans, List.mem_flatMap, List.mem_map, List.mem_filter, List.mem_range,
    decide_eq_true_eq]
  constructor
  · rintro ⟨start, -, stop, ⟨inside, before⟩, rfl⟩
    exact ⟨before, Nat.le_of_lt_succ inside⟩
  · rintro ⟨before, inside⟩
    exact ⟨span.1, by omega, span.2, ⟨by omega, before⟩, rfl⟩

theorem filter_range {start : Nat} (inside : start ≤ count) :
    (List.range (count + 1)).filter (start < ·) =
      (List.range (count - start)).map (start + 1 + ·) := by
  obtain ⟨more, rfl⟩ := Nat.exists_eq_add_of_le inside
  have parts : start + more + 1 = start + 1 + more := by omega
  have early : (List.range (start + 1)).filter (start < ·) = [] := by
    rw [List.filter_eq_nil_iff]
    intro stop member
    rw [List.mem_range] at member
    simp only [decide_eq_true_eq]
    omega
  have later : ((List.range more).map (start + 1 + ·)).filter (start < ·) =
      (List.range more).map (start + 1 + ·) := by
    rw [List.filter_eq_self, List.forall_mem_map]
    intro length _
    simp only [decide_eq_true_eq]
    omega
  rw [parts, List.range_add, List.filter_append, early, later, List.nil_append,
    Nat.add_sub_cancel_left]

theorem spans_eq_runs (count : Nat) : spans count = runs count count := by
  have last : (List.range (count - count)).map (fun length => (count, count + length + 1)) = [] := by
    rw [Nat.sub_self]
    rfl
  calc spans count
      = (List.range (count + 1)).flatMap fun start =>
          (List.range (count - start)).map fun length => (start, start + length + 1) := by
        refine List.flatMap_congr fun start member => ?_
        rw [List.mem_range] at member
        rw [filter_range (by omega), List.map_map]
        exact List.map_congr_left fun length _ => Prod.ext rfl (Nat.add_right_comm ..)
    _ = runs count count := by
        rw [List.range_succ, List.flatMap_append, List.flatMap_singleton, last, List.append_nil]
        refine List.flatMap_congr fun start _ => ?_
        rw [Nat.min_eq_right (Nat.sub_le ..)]

/-- Stretches that are taken for nothing need not be looked up. -/
theorem flatMap_runs {look : Nat × Nat → List Match}
    (nothing : ∀ span ∈ spans count, longest < span.2 - span.1 → look span = []) :
    (runs count longest).flatMap look = (spans count).flatMap look := by
  rw [spans_eq_runs, runs, runs, List.flatMap_assoc, List.flatMap_assoc]
  refine List.flatMap_congr fun start member => ?_
  rw [List.mem_range] at member
  rw [Nat.min_eq_right (Nat.sub_le ..), List.flatMap_map, List.flatMap_map]
  obtain ⟨more, parts⟩ := Nat.exists_eq_add_of_le (Nat.min_le_right longest (count - start))
  rw [parts, List.range_add, List.flatMap_append, ← parts]
  have rest : ((List.range more).map (min longest (count - start) + ·)).flatMap
      (fun length => look (start, start + length + 1)) = [] := by
    rw [List.flatMap_map, List.flatMap_eq_nil_iff]
    intro length inside
    rw [List.mem_range] at inside
    exact nothing _ (mem_spans.2 (by simp only; omega)) (by simp only; omega)
  rw [rest, List.append_nil]

theorem wordsOf_normalized (known : ∀ token ∈ run, token ∈ tokensOf query) :
    ∀ word ∈ run.map Token.normalized, wordsOf word = [word] := by
  rw [List.forall_mem_map]
  intro token member
  obtain ⟨word, found, rfl⟩ := List.mem_map.1 (known token member)
  exact wordsOf_lower found

/-- A literal or a name has as many words as the stretches that it is found over. -/
theorem length_le_longest [Cost κ] {grammar : Grammar κ}
    (compiled : Table.compile grammar = .ok table)
    (nonempty : run ≠ []) (known : ∀ token ∈ run, token ∈ tokensOf query)
    (present : isLiteral table (keyOf run) = true ∨
      (Gazetteer.ofCalls calls).lookUp (keyOf run) ≠ []) :
    run.length ≤ max table.longestLiteral (Gazetteer.ofCalls calls).longestName := by
  have solid := wordsOf_normalized known
  rcases present with literal | named
  · refine Nat.le_trans ?_ (Nat.le_max_left ..)
    obtain ⟨ids, stored⟩ : ∃ ids, table.literals.get? (keyOf run) = some ids := by
      cases stored : table.literals.get? (keyOf run) with
      | some ids => exact ⟨ids, rfl⟩
      | none => simp [isLiteral, Table.literalRules, stored] at literal
    have bound := Table.length_le_longestOf stored
    rw [← Table.longestLiteral_of_compile compiled, keyOf, wordsOf_spaced,
      List.flatMap_congr solid, List.flatMap_singleton', List.length_map] at bound
    exact bound
  · refine Nat.le_trans ?_ (Nat.le_max_right ..)
    have bound := Gazetteer.measured_ofCalls calls (keyOf run) named
    rw [keyOf, Gazetteer.wordCount_spaced (by simpa using nonempty) solid, List.length_map] at bound
    exact bound

theorem matchesOver_eq {kernels : Array Kernel} (compiled : table.Compiled kernels)
    (member : span ∈ spans (wordsOf query).length) :
    matchesOver table (.ofCalls calls) (tokensOf query) span =
      expected table calls (wordsOf query) span := by
  obtain ⟨before, inside⟩ := mem_spans.1 member
  generalize isTyped : ((wordsOf query).take span.2).drop span.1 = typed
  have run : ((tokensOf query).take span.2).drop span.1 =
      typed.map fun word => ⟨word, lower word⟩ := by
    rw [tokensOf, ← List.map_take, ← List.map_drop, isTyped]
  have text : textOf (typed.map fun word => ⟨word, lower word⟩) = spaced typed := by
    simp [textOf, Function.comp_def]
  have key : keyOf (typed.map fun word => ⟨word, lower word⟩) = spaced (typed.map lower) := by
    simp [keyOf, Function.comp_def]
  have nonempty : spaced (typed.map lower) ≠ "" := by
    have some : typed ≠ [] := by
      rw [← isTyped, Ne, List.drop_eq_nil_iff, List.length_take]
      omega
    obtain ⟨word, rest, rfl⟩ := List.exists_cons_of_ne_nil some
    have among : word ∈ wordsOf query :=
      List.mem_of_mem_take (List.mem_of_mem_drop (isTyped ▸ List.mem_cons_self ..))
    intro none
    have words := wordsOf_spaced ((word :: rest).map lower)
    rw [none, List.map_cons, List.flatMap_cons, wordsOf_lower among] at words
    cases words
  simp only [matchesOver, expected, run, text, key, isTyped, compiled.isLiteral_eq,
    Gazetteer.lookUp_ofCalls nonempty]
  generalize spaced (typed.map lower) = key
  rw [← List.filterMap_eq_map', List.filterMap_filter]

/-- A query is matched by the literals that read like its words and the entities that are called like
them, and by nothing else, however long they are. -/
theorem ofQuery_exact [Cost κ] {grammar : Grammar κ} (compiled : Table.compile grammar = .ok table)
    (calls : List (String × Entity)) (nonempty : wordsOf query ≠ []) :
    ∃ lattice, ofQuery table (.ofCalls calls) query = .ok lattice ∧
      lattice.tokens = (wordsOf query).map (fun word => ⟨word, lower word⟩) ∧
      lattice.found.toList =
        (spans (wordsOf query).length).flatMap (expected table calls (wordsOf query)) := by
  obtain ⟨kernels, automaton⟩ := Table.compile_compiled compiled
  obtain ⟨first, rest, tokens⟩ : ∃ first rest, tokensOf query = first :: rest :=
    List.exists_cons_of_ne_nil (by simpa [tokensOf] using nonempty)
  have count : (tokensOf query).length = (wordsOf query).length := by simp [tokensOf]
  have read : ofQuery table (.ofCalls calls) query = .ok ⟨tokensOf query,
      ((runs (wordsOf query).length
        (max table.longestLiteral (Gazetteer.ofCalls calls).longestName)).flatMap
          (matchesOver table (.ofCalls calls) (tokensOf query))).toArray⟩ := by
    rw [← count, ofQuery, tokens]
  refine ⟨_, read, rfl, ?_⟩
  rw [List.toList_toArray, flatMap_runs,
    List.flatMap_congr fun span member => matchesOver_eq automaton member]
  intro span member long
  obtain ⟨before, inside⟩ := mem_spans.1 member
  have known : ∀ token ∈ ((tokensOf query).take span.2).drop span.1, token ∈ tokensOf query :=
    fun token among => List.mem_of_mem_take (List.mem_of_mem_drop among)
  have size : (((tokensOf query).take span.2).drop span.1).length = span.2 - span.1 := by
    rw [List.length_drop, List.length_take, count, Nat.min_eq_left inside]
  have absent := fun present => Nat.not_le_of_lt long
    (size ▸ length_le_longest compiled (List.ne_nil_of_length_pos (by omega)) known present)
  have noLiteral : isLiteral table (keyOf (((tokensOf query).take span.2).drop span.1)) = false :=
    Bool.eq_false_iff.2 fun literal => absent (.inl literal)
  have noName : (Gazetteer.ofCalls calls).lookUp
      (keyOf (((tokensOf query).take span.2).drop span.1)) = [] :=
    by_contra fun named => absent (.inr named)
  simp [matchesOver, noLiteral, noName]

end Lattice

/-- A grammar that has the name of a user as a word of its own. -/
def Grammar.nickname : Grammar Amount where
  start := "S"
  rules := .ofList [("S", [.literal "Danny  b",
    { Rule.literal "\x7buser\x7d" with role := .placeholder }])]
  concepts := {}

/-- A user who is added twice, under two names, and another who cannot be added. -/
def Gazetteer.dannyTwice : List (String × Entity) :=
  [("user", ⟨"1", "danny b"⟩), ("user", ⟨" ", "danny b"⟩), ("user", ⟨"1", "DANNY B"⟩)]

namespace Lattice

set_option maxRecDepth 100000 in
theorem ofQuery_exact_nickname : ∃ table lattice,
    Table.compile Grammar.nickname = .ok table ∧
      ofQuery table (.ofCalls Gazetteer.dannyTwice) " Danny B" = .ok lattice ∧
      lattice.found.toList = [⟨"danny b", 0, 2, "Danny B", none⟩,
        ⟨"\x7buser\x7d", 0, 2, "Danny B", some ⟨"1", "danny b"⟩⟩] := by
  have matched : ((Table.compile Grammar.nickname).toOption.any fun table =>
      decide ((spans (wordsOf " Danny B").length).flatMap
        (expected table Gazetteer.dannyTwice (wordsOf " Danny B")) =
          [⟨"danny b", 0, 2, "Danny B", none⟩,
            ⟨"\x7buser\x7d", 0, 2, "Danny B", some ⟨"1", "danny b"⟩⟩])) = true := by
    decide +kernel
  obtain ⟨table, compiled, matched⟩ := exists_ok_of_any matched
  have nonempty : wordsOf " Danny B" ≠ [] := by decide +kernel
  obtain ⟨lattice, read, -, found⟩ := ofQuery_exact compiled Gazetteer.dannyTwice nonempty
  exact ⟨table, lattice, compiled, read, found.trans (of_decide_eq_true matched)⟩

end Lattice

end QueryGrammar
