import QueryGrammar.Engine.Settings
import QueryGrammar.Parse.Stack
import QueryGrammar.Search.Run
import QueryGrammar.Table.Compile
import QueryGrammar.Tree.Labelled
import QueryGrammar.Tree.Phrasing

namespace QueryGrammar

/-! Engines: compiled grammars with the entities they can refer to, which answer queries. -/

structure Engine where
  table : Table Amount
  gazetteer : Gazetteer := .empty
  search : SearchSettings := {}

structure Request where
  query : String
  /-- How many results are wanted, if not as many as the engine is set to. -/
  results : Option Nat := none
  /-- Whether to show the derivation of every result. -/
  trees : Bool := false
  /-- Whether to hand back the forest. -/
  forest : Bool := false
  /-- Whether to list the other phrasings of every result. -/
  ambiguity : Bool := false

/-- Another derivation of the meaning of a result. -/
structure Ambiguity where
  text : String
  cost : Amount

/-- One meaning of a query. -/
structure Answer where
  /-- The query as the grammar would phrase it. -/
  text : String
  cost : Amount
  meaning : Interpretation Amount
  tree : Option LabelledTree
  ambiguous : List Ambiguity

structure Response where
  /-- The best answer first. -/
  answers : List Answer
  stats : SearchStats
  forest : Option Forest

/-- A query whose best answer does not read as it was typed. -/
structure Mismatch where
  query : String
  /-- How the best answer reads, if there is one. -/
  found : Option String

namespace Engine

/-- The limits of a search. A time limit of zero has passed before the search begins; any other is
taken to be out of reach. -/
def limits (engine : Engine) (request : Request) (cancelled : Bool) : Limits where
  results := request.results.getD engine.search.results
  maxExpansions := engine.search.maxExpansions
  keepDuplicates := request.ambiguity
  interrupted := fun _ => cancelled || engine.search.timeLimit == some 0

/-- The phrasing of a derivation that is given by its choices. -/
def phrase? (engine : Engine) (forest : Forest) (choices : List Choice) :
    Except Fault (Option (Tree × String)) := do
  match ← Tree.ofChoices forest choices with
  | none => .ok none
  | some tree =>
      let text ← tree.phrasing engine.table forest
      .ok (some (tree, text))

def ambiguities (engine : Engine) (forest : Forest) :
    List (Duplicate Amount) → Except Fault (List Ambiguity)
  | [] => .ok []
  | duplicate :: rest => do
      let found ← engine.phrase? forest duplicate.choices
      let others ← engine.ambiguities forest rest
      match found with
      | some (_, text) => .ok (⟨text, duplicate.cost⟩ :: others)
      | none => .ok others

def answers (engine : Engine) (request : Request) (forest : Forest) :
    List (Derivation Amount) → Except Fault (List Answer)
  | [] => .ok []
  | derivation :: rest => do
      let found ← engine.phrase? forest derivation.choices
      let ambiguous ← engine.ambiguities forest derivation.duplicates
      match found with
      | none => engine.answers request forest rest
      | some (tree, text) =>
          let labelled ←
            if request.trees then some <$> tree.labelled engine.table forest else .ok none
          let others ← engine.answers request forest rest
          .ok (⟨text, derivation.cost, derivation.meaning, labelled, ambiguous⟩ :: others)

/-- Answers a query. A cancelled search stops at once. -/
def respond (engine : Engine) (request : Request) (cancelled : Bool) :
    Except Fault (Except ParseError Response) :=
  match Lattice.ofQuery engine.table engine.gazetteer request.query with
  | .error cause => .ok (.error cause)
  | .ok lattice => do
      match ← Forest.ofLattice engine.table lattice with
      | .error cause => .ok (.error cause)
      | .ok forest =>
          let (derivations, stats) ←
            forest.search engine.table (engine.limits request cancelled)
          let answers ← engine.answers request forest derivations
          .ok (.ok ⟨answers, stats, if request.forest then some forest else none⟩)

/-- Answers a query with positions that are words. -/
def reply (engine : Engine) (request : Request) (cancelled : Bool) :
    Except Fault (Except ParseError Response) :=
  if Lattice.fits engine.table engine.gazetteer request.query then engine.respond request cancelled
  else .error .overflow

/-- Answers requests, each by itself. -/
def respondAll (engine : Engine) (requests : List Request) :
    Except Fault (List (Except ParseError Response)) :=
  requests.mapM fun request => engine.reply request false

def bestText : Except ParseError Response → Option String
  | .ok ⟨answer :: _, _, _⟩ => some answer.text
  | _ => none

def mismatch? (query : String) (response : Except ParseError Response) : Option Mismatch :=
  let found := bestText response
  if found == some query then none else some ⟨query, found⟩

/-- The queries that do not read as typed, in order. -/
def mismatches (engine : Engine) (queries : List String) : Except Fault (List Mismatch) := do
  let responses ← engine.respondAll (queries.map fun query => { query, results := some 1 })
  .ok ((queries.zip responses).filterMap fun (query, response) => mismatch? query response)

end Engine

/-- A list of queries, one on a line. Blank lines and lines that start with two slashes do not
count. -/
def readQueries (content : String) : List String :=
  ((Text.linesOf content).map Text.trimmed).filterMap fun line =>
    if line.isEmpty || line.toList.take 2 == ['/', '/'] then none
    else some (Text.spaced (Text.wordsOf line))

end QueryGrammar
