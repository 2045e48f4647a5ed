import QueryGrammar.Text.Blank
import QueryGrammar.Text.Case
import QueryGrammar.Text.Quoted
import QueryGrammar.Data.Dictionary
import QueryGrammar.Decimal.Shortest
import QueryGrammar.Json.Decoder
import QueryGrammar.Json.Writer
import QueryGrammar.Fault
import QueryGrammar.Meaning.Interpretation
import QueryGrammar.Meaning.Pool
import QueryGrammar.Rule.Basic
import QueryGrammar.Grammar.Validity
import QueryGrammar.Grammar.Entry
import QueryGrammar.Grammar.Notation.Lexeme
import QueryGrammar.Grammar.Notation.Options
import QueryGrammar.Grammar.Notation.Statement
import QueryGrammar.Artifact.Grammar
import QueryGrammar.Edits.Derivation
import QueryGrammar.Table.Compile
import QueryGrammar.Artifact.Table
import QueryGrammar.Forest.Cheapest
import QueryGrammar.Forest.Display
import QueryGrammar.Tree.Labelled
import QueryGrammar.Tree.Phrasing
import QueryGrammar.Parse.Stack
import QueryGrammar.Search.Run
import QueryGrammar.Engine.Basic
import QueryGrammar.Main
import QueryGrammar.Proofs.Edits.Acyclic
import QueryGrammar.Proofs.Edits.Cheapest
import QueryGrammar.Proofs.Edits.Costs
import QueryGrammar.Proofs.Edits.Deduplicated
import QueryGrammar.Proofs.Edits.Folding
import QueryGrammar.Proofs.Edits.Inserted
import QueryGrammar.Proofs.Edits.Phrased
import QueryGrammar.Proofs.Edits.Repeated
import QueryGrammar.Proofs.Edits.Restored
import QueryGrammar.Proofs.Engine.Loaded
import QueryGrammar.Proofs.Forest.Placeholders
import QueryGrammar.Proofs.Forest.WellFormed
import QueryGrammar.Proofs.Grammar.Operations
import QueryGrammar.Proofs.Grammar.Ties
import QueryGrammar.Proofs.Grammar.WellFormed
import QueryGrammar.Proofs.Grammar.Written
import QueryGrammar.Proofs.Input.Categories
import QueryGrammar.Proofs.Meaning.Siblings
import QueryGrammar.Proofs.Notation.Accepted
import QueryGrammar.Proofs.Parse.Turns
import QueryGrammar.Proofs.Search.Legal
import QueryGrammar.Proofs.Search.Limits
import QueryGrammar.Proofs.Search.Transparent
import QueryGrammar.Proofs.Search.Optimal
import QueryGrammar.Proofs.Search.Precedence
import QueryGrammar.Proofs.Tree.Displayed
import QueryGrammar.Proofs.Tree.Preorder
import QueryGrammar.Proofs.Tree.ReadBack
import QueryGrammar.Proofs.Tree.Swapped
import QueryGrammar.Proofs.Table.Buildable
import QueryGrammar.Proofs.Table.Canonical
import QueryGrammar.Proofs.Artifact.RoundTrip
