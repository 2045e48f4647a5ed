import Mathlib.Data.List.Count
import QueryGrammar.Grammar.Notation.Statement
import QueryGrammar.Proofs.Grammar.Steps
import QueryGrammar.Proofs.Grammar.Rules

namespace QueryGrammar

/-! What is taken from options.

Main statement: what takes its options leaves just those that have another key, and those that repeat
a key.
-/

/-- A result is known as such. -/
theorem Ensures.self {ε : Type u} {α : Type v} (outcome : Except ε α) :
    Ensures (fun value => outcome = .ok value) outcome :=
  fun _ same => same

namespace Notation

namespace Taking

variable {α β : Type} {keys more : List String} {key : String} {taking : Taking α}
  {next : α → Taking β} {options rest : Options} {value : Value}

/-- One option of each of the keys is taken, where there is one. -/
def Takes (keys : List String) (taking : Taking α) : Prop :=
  ∀ options, Ensures (fun taken => taken.2.map Prod.fst = (options.map Prod.fst).diff keys)
    (taking options)

theorem Takes.pure {value : α} : Takes [] (pure value) :=
  fun _ => .ok rfl

theorem Takes.refuse {error : NotationError} : Takes keys (refuse error : Taking α) :=
  fun _ => .error

theorem Takes.bind (first : Takes keys taking) (go : ∀ value, Takes more (next value)) :
    Takes (keys ++ more) (taking >>= next) := fun options =>
  (first options).bind fun taken own => by
    rw [List.diff_append, ← own]
    exact go taken.1 taken.2

/-- Nothing else is taken after the last key. -/
theorem Takes.last (first : Takes keys taking) (go : ∀ value, Takes [] (next value)) :
    Takes keys (taking >>= next) := by
  have whole := first.bind go
  rwa [List.append_nil] at whole

theorem keys_of_removeFirst (removed : removeFirst key options = some (value, rest)) :
    rest.map Prod.fst = (options.map Prod.fst).erase key := by
  induction options generalizing rest with
  | nil => cases removed
  | cons first options ih =>
      obtain ⟨present, own⟩ := first
      rw [removeFirst] at removed
      split at removed
      · rename_i same
        cases removed
        simp [same]
      · rename_i other
        obtain ⟨⟨found, others⟩, inner, same⟩ := Option.map_eq_some_iff.1 removed
        cases same
        simp [other, ih inner]

theorem not_mem_of_removeFirst (absent : removeFirst key options = none) :
    key ∉ options.map Prod.fst := by
  induction options with
  | nil => simp
  | cons first options ih =>
      obtain ⟨present, own⟩ := first
      rw [removeFirst] at absent
      split at absent
      · cases absent
      · rename_i other
        have later := ih (Option.map_eq_none_iff.1 absent)
        simp [Ne.symm other, later]

theorem take_takes (key : String) : Takes [key] (take key) := by
  intro options
  unfold take
  rw [List.diff_cons, List.diff_nil]
  split
  · rename_i removed
    exact .ok (keys_of_removeFirst removed)
  · rename_i absent
    exact .ok (List.erase_of_not_mem (not_mem_of_removeFirst absent)).symm

theorem words_takes (key : String) : Takes [key] (words key) := by
  refine (take_takes key).last fun value => ?_
  split
  · exact .pure
  · exact .pure
  · exact .refuse

theorem word?_takes (key : String) : Takes [key] (word? key) := by
  refine (words_takes key).last fun value => ?_
  split
  · exact .pure
  · exact .pure
  · exact .refuse

theorem word_takes (key : String) : Takes [key] (word key) := by
  refine (word?_takes key).last fun value => ?_
  split
  · exact .pure
  · exact .refuse

theorem number?_takes (key : String) : Takes [key] (number? key) := by
  refine (word?_takes key).last fun value => ?_
  split
  · exact .pure
  · split
    · exact .pure
    · exact .refuse

theorem number_takes (key : String) (value : Amount) : Takes [key] (number key value) :=
  (number?_takes key).last fun _ => .pure

theorem flag_takes (key : String) : Takes [key] (flag key) := by
  refine (word?_takes key).last fun value => ?_
  split
  · exact .pure
  · exact .pure
  · exact .pure
  · exact .refuse

theorem named?_takes (key : String) (ofLabel? : String → Option α)
    (unknown : String → NotationError) : Takes [key] (named? key ofLabel? unknown) := by
  refine (word?_takes key).last fun value => ?_
  split
  · exact .pure
  · split
    · exact .pure
    · exact .refuse

theorem penalized_takes (penaltyKey wordsKey : String) :
    Takes [penaltyKey, wordsKey] (penalized penaltyKey wordsKey) :=
  (number_takes penaltyKey 0).bind fun _ => (words_takes wordsKey).last fun _ => .pure

theorem substitutions_takes : Takes ["sub-cost", "subs"] substitutions :=
  penalized_takes "sub-cost" "subs"

theorem lift_takes (outcome : Except GrammarError α) :
    Takes [] (StateT.lift outcome : Taking α) :=
  fun _ => Ensures.after fun _ => .ok rfl

theorem meaning?_takes (builder : Builder Amount) : Takes ["sem"] (meaning? builder) := by
  refine (take_takes "sem").last fun value => ?_
  split
  · exact .pure
  · rw [map_eq_pure_bind]
    exact (lift_takes _).last fun _ => .pure
  · exact .refuse

theorem wording?_takes : Takes ["text"] wording? := by
  refine (take_takes "text").last fun value => ?_
  split
  · exact .pure
  · exact (lift_takes _).last fun _ => .pure
  · exact .pure
  · exact .refuse

end Taking

def slotKeys : List String :=
  ["form"]

def ruleKeys : List String :=
  ["cost", "insert", "transpose", "sem", "pn", "no-insert", "kind", "text"]

def Directive.keys : Directive → List String
  | .start => []
  | .function => ["min", "max", "cost", "forbids-multiple", "people"]
  | .argument => ["cost"]
  | .word => ["accepted", "sub-cost", "subs", "insert", "optional"]
  | .verb => ["one-sg", "three-sg", "pl", "past", "accepted", "sub-cost", "subs", "insert"]
  | .pronoun => ["nom", "obj", "sub-cost", "subs", "insert", "sem"]
  | .stopWords => ["sub-cost", "words"]
  | .placeholder => ["category", "sem"]
  | .optional => []

namespace Taking

variable {builder : Builder Amount}

theorem rule_takes (production : Production) : Takes ruleKeys (rule builder production) :=
  (number_takes "cost" 0).bind fun _ => (number?_takes "insert").bind fun _ =>
    (number?_takes "transpose").bind fun _ => (meaning?_takes builder).bind fun _ =>
      (named?_takes "pn" _ _).bind fun _ => (flag_takes "no-insert").bind fun _ =>
        (named?_takes "kind" _ _).bind fun _ => wording?_takes.last fun _ => .pure

theorem arity_takes (key : String) : Takes [key] (arity key) :=
  (number_takes key _).last fun _ => .pure

theorem function_takes (name : String) : Takes Directive.function.keys (function name) :=
  (arity_takes "min").bind fun _ => (arity_takes "max").bind fun _ =>
    (number_takes "cost" 0).bind fun _ => (flag_takes "forbids-multiple").bind fun _ =>
      (flag_takes "people").last fun _ => .pure

theorem wordEntry_takes : Takes Directive.word.keys wordEntry :=
  (words_takes "accepted").bind fun _ => substitutions_takes.bind fun _ =>
    (number?_takes "insert").bind fun _ => (flag_takes "optional").last fun _ => .pure

theorem verb_takes : Takes Directive.verb.keys verb :=
  (word_takes "one-sg").bind fun _ => (word_takes "three-sg").bind fun _ =>
    (word_takes "pl").bind fun _ => (word?_takes "past").bind fun _ =>
      (words_takes "accepted").bind fun _ => substitutions_takes.bind fun _ =>
        (number?_takes "insert").last fun _ => .pure

theorem pronoun_takes : Takes Directive.pronoun.keys (pronoun builder) :=
  (word_takes "nom").bind fun _ => (word_takes "obj").bind fun _ =>
    substitutions_takes.bind fun _ => (number?_takes "insert").bind fun _ =>
      (meaning?_takes builder).last fun _ => .pure

theorem placeholder_takes : Takes Directive.placeholder.keys (placeholder builder) :=
  (word_takes "category").bind fun _ => (meaning?_takes builder).last fun _ => .pure

end Taking

/-! Options that are all taken. -/

/-- Every option has one of the keys, and no other option has its key. -/
def OfKeys (keys : List String) (options : Options) : Prop :=
  ∀ option ∈ options, option.1 ∈ keys ∧ (options.map Prod.fst).count option.1 = 1

section

variable {keys : List String} {options rest : Options} {key subject : String}

theorem diff_eq_nil_iff (distinct : keys.Nodup) :
    (options.map Prod.fst).diff keys = [] ↔ OfKeys keys options := by
  -- A key is left as often as it is given beyond the one time that it is taken, if it is.
  constructor
  · intro nothing option member
    have given : option.1 ∈ options.map Prod.fst := List.mem_map_of_mem member
    have some := List.count_pos_iff.2 given
    have none := List.count_diff option.1 (options.map Prod.fst) keys
    rw [nothing, List.count_nil] at none
    have one := List.nodup_iff_count.1 distinct option.1
    exact ⟨List.count_pos_iff.1 (by omega), by omega⟩
  · intro proper
    refine List.eq_nil_iff_forall_not_mem.2 fun key left => ?_
    have more := List.count_pos_iff.2 left
    rw [List.count_diff] at more
    have given : key ∈ options.map Prod.fst := List.count_pos_iff.1 (by omega)
    obtain ⟨option, member, rfl⟩ := List.mem_map.1 given
    obtain ⟨known, once⟩ := proper option member
    have one := List.count_pos_iff.2 known
    omega

theorem finish_ok_iff : (∃ done, Taking.finish subject rest = .ok done) ↔ rest = [] := by
  cases rest with
  | nil => simp [Taking.finish]
  | cons first rest => simp [Taking.finish, fail]

/-- What is left over is refused just if an option has another key, or one that is repeated. -/
theorem finish_iff {α : Type} {taking : Taking α} {value : α} (takes : Taking.Takes keys taking)
    (distinct : keys.Nodup) (taken : taking options = .ok (value, rest)) (subject : String) :
    (∃ done, Taking.finish subject rest = .ok done) ↔ OfKeys keys options := by
  rw [finish_ok_iff, ← diff_eq_nil_iff distinct, ← takes options _ taken, List.map_eq_nil_iff]

theorem slotOf_ensures (symbol : String) (options : Options) :
    Ensures (fun _ => OfKeys slotKeys options) (slotOf symbol options) := by
  refine (Ensures.self _).bindPair fun form rest taken => ?_
  refine (Ensures.self _).bind fun done finished => .ok ?_
  exact (finish_iff (Taking.named?_takes "form" _ _) (by decide) taken symbol).1 ⟨done, finished⟩

end

/-! Statements that are carried out. -/

theorem of_bind_ok {α β : Type} {builder after : Builder Amount} {first : Build Amount α}
    {next : α → Build Amount β} {value : β} (ran : (first >>= next) builder = (.ok value, after)) :
    ∃ own between, first builder = (.ok own, between) ∧ next own between = (.ok value, after) := by
  rw [Build.bind_eq] at ran
  split at ran
  · rename_i own between found
    exact ⟨own, between, found, ran⟩
  · cases ran

def Statement.OfKeys : Statement → Prop
  | .rule _ options _ => Notation.OfKeys ruleKeys options
  | .directive kind _ options => Notation.OfKeys kind.keys options

variable {builder after : Builder Amount}

theorem carryOut_ofKeys {α : Type} {keys : List String} {options : Options} {subject : String}
    {taking : Builder Amount → Taking α} {step : α → Build Amount Unit}
    (ran : carryOut options subject taking step builder = (.ok (), after))
    (takes : (taking builder).Takes keys) (distinct : keys.Nodup) : OfKeys keys options := by
  obtain ⟨⟨taken, rest⟩, _, given, ran⟩ := of_bind_ok ran
  obtain ⟨_, _, _, ran⟩ := of_bind_ok ran
  obtain ⟨done, _, finished, _⟩ := of_bind_ok ran
  exact (finish_iff takes distinct (congrArg Prod.fst given) subject).1
    ⟨done, congrArg Prod.fst finished⟩

theorem Statement.ofKeys_of_carryOut {statement : Statement}
    (ran : statement.carryOut builder = (.ok (), after)) : statement.OfKeys := by
  cases statement with
  | rule symbol options parts =>
      rw [Statement.carryOut] at ran
      obtain ⟨taken, _, given, _⟩ := of_bind_ok ran
      refine (?_ : Ensures (fun _ => Notation.OfKeys ruleKeys options) _) taken
        (congrArg Prod.fst given)
      refine .after fun production => (Ensures.self _).bindPair fun own rest taken => ?_
      refine (Ensures.self _).bind fun done finished => .ok ?_
      exact (finish_iff (Taking.rule_takes production) (by decide) taken symbol).1 ⟨done, finished⟩
  | directive directive name options =>
      cases directive <;> rw [Statement.carryOut] at ran
      case start => exact carryOut_ofKeys ran .pure .nil
      case function => exact carryOut_ofKeys ran (Taking.function_takes name) (by decide)
      case argument => exact carryOut_ofKeys ran (Taking.number_takes "cost" 0) (by decide)
      case word => exact carryOut_ofKeys ran Taking.wordEntry_takes (by decide)
      case verb => exact carryOut_ofKeys ran Taking.verb_takes (by decide)
      case pronoun => exact carryOut_ofKeys ran Taking.pronoun_takes (by decide)
      case stopWords => exact carryOut_ofKeys ran (Taking.penalized_takes _ _) (by decide)
      case placeholder => exact carryOut_ofKeys ran Taking.placeholder_takes (by decide)
      case optional => exact carryOut_ofKeys ran .pure .nil

end Notation

end QueryGrammar
