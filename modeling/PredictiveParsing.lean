import PredictiveParsing.Ascending
import PredictiveParsing.Automaton.Dfa
import PredictiveParsing.Automaton.Fragment
import PredictiveParsing.Automaton.Minimal
import PredictiveParsing.Automaton.Nfa
import PredictiveParsing.Automaton.Subset
import PredictiveParsing.Bisection
import PredictiveParsing.CharSet.Basic
import PredictiveParsing.CharSet.Intervals
import PredictiveParsing.CharSet.Partition
import PredictiveParsing.Compilation
import PredictiveParsing.Diagnostic
import PredictiveParsing.Grammar.Basic
import PredictiveParsing.Grammar.Declaration
import PredictiveParsing.Grammar.Expr
import PredictiveParsing.Grammar.Validation
import PredictiveParsing.Graph.Exploration
import PredictiveParsing.Graph.Saturation
import PredictiveParsing.Lexer.Build
import PredictiveParsing.Lexer.Inlining
import PredictiveParsing.Lexer.Tables
import PredictiveParsing.Listing
import PredictiveParsing.Lookahead.Plan
import PredictiveParsing.Lookahead.Search
import PredictiveParsing.Lookahead.SequenceOrder
import PredictiveParsing.Lookahead.SequenceSet
import PredictiveParsing.Options
import PredictiveParsing.Pattern.Basic
import PredictiveParsing.Pattern.OfRegex
import PredictiveParsing.Proofs.Acceptance
import PredictiveParsing.Proofs.Alphabet
import PredictiveParsing.Proofs.BoundedConcatenation
import PredictiveParsing.Proofs.CanonicalSets
import PredictiveParsing.Proofs.CanonicalTables
import PredictiveParsing.Proofs.CaseMappings
import PredictiveParsing.Proofs.CharSets
import PredictiveParsing.Proofs.CodePoints
import PredictiveParsing.Proofs.ConcatenationLaws
import PredictiveParsing.Proofs.Conflicts
import PredictiveParsing.Proofs.CursorHistories
import PredictiveParsing.Proofs.CursorUndo
import PredictiveParsing.Proofs.Declarations
import PredictiveParsing.Proofs.DefinitionFaults
import PredictiveParsing.Proofs.Derivation
import PredictiveParsing.Proofs.DiscoveryOrder
import PredictiveParsing.Proofs.EmptySequences
import PredictiveParsing.Proofs.ExactFollow
import PredictiveParsing.Proofs.ExactPartition
import PredictiveParsing.Proofs.Exploration
import PredictiveParsing.Proofs.FailedMatches
import PredictiveParsing.Proofs.FirstSets
import PredictiveParsing.Proofs.FollowSets
import PredictiveParsing.Proofs.Fragments
import PredictiveParsing.Proofs.Inlining
import PredictiveParsing.Proofs.JoinedTransitions
import PredictiveParsing.Proofs.Layout
import PredictiveParsing.Proofs.LeastSolutions
import PredictiveParsing.Proofs.LeftRecursion
import PredictiveParsing.Proofs.LetterSets
import PredictiveParsing.Proofs.Lexemes
import PredictiveParsing.Proofs.Lexing
import PredictiveParsing.Proofs.LoweredPatterns
import PredictiveParsing.Proofs.MinimalTables
import PredictiveParsing.Proofs.Minimization
import PredictiveParsing.Proofs.NameResolution
import PredictiveParsing.Proofs.NameTables
import PredictiveParsing.Proofs.Nullability
import PredictiveParsing.Proofs.ParentLinks
import PredictiveParsing.Proofs.PatternFaults
import PredictiveParsing.Proofs.PatternLanguage
import PredictiveParsing.Proofs.PeekedTokens
import PredictiveParsing.Proofs.PostOrder
import PredictiveParsing.Proofs.Prediction
import PredictiveParsing.Proofs.Pruning
import PredictiveParsing.Proofs.QuotedText
import PredictiveParsing.Proofs.ReachableModes
import PredictiveParsing.Proofs.Recompilation
import PredictiveParsing.Proofs.RecursionChecks
import PredictiveParsing.Proofs.Relocation
import PredictiveParsing.Proofs.ResolvedReferences
import PredictiveParsing.Proofs.RuleTables
import PredictiveParsing.Proofs.Saturation
import PredictiveParsing.Proofs.Scheduling
import PredictiveParsing.Proofs.SententialForms
import PredictiveParsing.Proofs.SetEquations
import PredictiveParsing.Proofs.SetFamilies
import PredictiveParsing.Proofs.ShadowedTokens
import PredictiveParsing.Proofs.Simulation
import PredictiveParsing.Proofs.SmallerBound
import PredictiveParsing.Proofs.SortedReports
import PredictiveParsing.Proofs.Stages
import PredictiveParsing.Proofs.StatedLookahead
import PredictiveParsing.Proofs.SubsetConstruction
import PredictiveParsing.Proofs.TableInvariant
import PredictiveParsing.Proofs.TokenPlaces
import PredictiveParsing.Proofs.TokenTable
import PredictiveParsing.Proofs.Tokenization
import PredictiveParsing.Proofs.Transitions
import PredictiveParsing.Proofs.Trees
import PredictiveParsing.Proofs.UniformLookahead
import PredictiveParsing.Proofs.VisitingOrders
import PredictiveParsing.Regex.Normal
import PredictiveParsing.Regex.OfSurface
import PredictiveParsing.Regex.Reader
import PredictiveParsing.Regex.ScalarSet
import PredictiveParsing.Regex.Surface
import PredictiveParsing.Scanner.Scanner
import PredictiveParsing.Scanner.Table
import PredictiveParsing.Sets.Basic
import PredictiveParsing.Sets.First
import PredictiveParsing.Sets.Follow
import PredictiveParsing.Sets.LeftRecursion
import PredictiveParsing.Sets.Nullable
import PredictiveParsing.Symbols
import PredictiveParsing.Text.Blank
import PredictiveParsing.Text.Case
import PredictiveParsing.Text.CodePoints
import PredictiveParsing.Text.Cursor
import PredictiveParsing.Text.Escaped
import PredictiveParsing.Text.Letter
import PredictiveParsing.Text.Position
import PredictiveParsing.Text.Quoted
