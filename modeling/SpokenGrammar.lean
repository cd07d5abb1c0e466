import SpokenGrammar.Text.Blank
import SpokenGrammar.Text.Cut
import SpokenGrammar.Text.Offset
import SpokenGrammar.Text.Quoted
import SpokenGrammar.Text.Shown
import SpokenGrammar.Decimal.Nearest
import SpokenGrammar.Decimal.Numeral
import SpokenGrammar.Decimal.Positional
import SpokenGrammar.Decimal.Shortest
import SpokenGrammar.Fault
import SpokenGrammar.Punctuation
import SpokenGrammar.Token.Basic
import SpokenGrammar.Token.Lexeme
import SpokenGrammar.Token.Reading
import SpokenGrammar.Token.Weight
import SpokenGrammar.Graph.Basic
import SpokenGrammar.Graph.Drawing
import SpokenGrammar.Graph.Edge
import SpokenGrammar.Graph.Elide
import SpokenGrammar.Graph.OfTokens
import SpokenGrammar.Graph.Paths
import SpokenGrammar.Graph.RandomWalk
import SpokenGrammar.Graph.Splice
import SpokenGrammar.Graph.Weights
import SpokenGrammar.Chance.Choice
import SpokenGrammar.Chance.Supply
import SpokenGrammar.Recorder
import SpokenGrammar.Rule.Basic
import SpokenGrammar.Rule.References
import SpokenGrammar.Rule.Sentences
import SpokenGrammar.Rule.Table
import SpokenGrammar.Settings
import SpokenGrammar.Source.Basic
import SpokenGrammar.Source.Layout
import SpokenGrammar.Source.Reader
import SpokenGrammar.Grammar.Basic
import SpokenGrammar.Grammar.Loading
import SpokenGrammar.Grammar.Order
import SpokenGrammar.Grammar.Resolution
import SpokenGrammar.Grammar.Sentences
import SpokenGrammar.Proofs.Language.Substitution
import SpokenGrammar.Proofs.Graph.Route
import SpokenGrammar.Proofs.Graph.Splice
import SpokenGrammar.Proofs.Graph.Elide
import SpokenGrammar.Proofs.Graph.Enumeration
import SpokenGrammar.Proofs.Chance.Yields
import SpokenGrammar.Proofs.Graph.RandomWalk
import SpokenGrammar.Proofs.Graph.Sampling
import SpokenGrammar.Proofs.Source.Expression
import SpokenGrammar.Proofs.Graph.Assembly
import SpokenGrammar.Proofs.Graph.Branches
import SpokenGrammar.Proofs.Phrase.Basic
import SpokenGrammar.Proofs.Phrase.Nesting
import SpokenGrammar.Proofs.Phrase.Paths
import SpokenGrammar.Proofs.Graph.Language
import SpokenGrammar.Proofs.Graph.Composition
import SpokenGrammar.Proofs.Graph.Thinning
import SpokenGrammar.Proofs.Attempt
import SpokenGrammar.Proofs.Rule.Compile
import SpokenGrammar.Proofs.Grammar.Order
import SpokenGrammar.Proofs.Grammar.Reach
import SpokenGrammar.Proofs.Rule.Splicing
import SpokenGrammar.Proofs.Rule.Compiled
import SpokenGrammar.Proofs.Rule.Resolve
import SpokenGrammar.Proofs.Grammar.Resolution
import SpokenGrammar.Proofs.Grammar.Finishing
import SpokenGrammar.Proofs.Rule.Sentences
import SpokenGrammar.Proofs.Grammar.Sentences
import SpokenGrammar.Proofs.Grammar.Loading
import SpokenGrammar.Proofs.Source.Sentences
import SpokenGrammar.Proofs.Grammar.Meaning
import SpokenGrammar.Proofs.Grammar.Sampling
import SpokenGrammar.Proofs.Grammar.Minimization
import SpokenGrammar.Proofs.Grammar.Calls
import SpokenGrammar.Proofs.Grammar.Sinks
import SpokenGrammar.Proofs.Phrase.Account
import SpokenGrammar.Proofs.Token.Balance
import SpokenGrammar.Proofs.Token.Lexemes
import SpokenGrammar.Proofs.Graph.Account
import SpokenGrammar.Proofs.Token.Annotations
import SpokenGrammar.Proofs.Rule.Tags
import SpokenGrammar.Proofs.Graph.Derived
import SpokenGrammar.Proofs.Grammar.Merging
import SpokenGrammar.Proofs.Grammar.Stores
import SpokenGrammar.Proofs.Source.Layout
import SpokenGrammar.Proofs.Source.Taking
import SpokenGrammar.Proofs.Source.Ending
import SpokenGrammar.Proofs.Source.Statements
import SpokenGrammar.Proofs.Source.Manuscript
import SpokenGrammar.Proofs.Source.Listing
import SpokenGrammar.Proofs.Grammar.Printing
import SpokenGrammar.Proofs.Graph.Balance
import SpokenGrammar.Proofs.Graph.Ordering
import SpokenGrammar.Proofs.Phrase.Spelling
import SpokenGrammar.Proofs.Graph.Bipolar
import SpokenGrammar.Proofs.Graph.Limit
import SpokenGrammar.Proofs.Graph.Reduction
import SpokenGrammar.Proofs.Graph.Bridging
import SpokenGrammar.Proofs.Rule.Substitution
import SpokenGrammar.Proofs.Grammar.Recursion
import SpokenGrammar.Proofs.Grammar.Chains
import SpokenGrammar.Proofs.Chance.Total
import SpokenGrammar.Proofs.Chance.Choice
import SpokenGrammar.Proofs.Token.Shape
import SpokenGrammar.Proofs.Graph.Weighing
import SpokenGrammar.Proofs.Token.Writing
import SpokenGrammar.Proofs.Settings.Idempotence
import SpokenGrammar.Proofs.Graph.Reweighing
import SpokenGrammar.Proofs.Rule.Template
import SpokenGrammar.Proofs.Rule.Identifiers
import SpokenGrammar.Proofs.Graph.Parallel
import SpokenGrammar.Proofs.Graph.Tables
