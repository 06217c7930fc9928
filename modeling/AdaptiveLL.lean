import AdaptiveLL.Command.Request
import AdaptiveLL.Command.Run
import AdaptiveLL.Grammar.Basic
import AdaptiveLL.Grammar.Calculator
import AdaptiveLL.Grammar.Description
import AdaptiveLL.Grammar.Rules
import AdaptiveLL.Grammar.Samples
import AdaptiveLL.IntervalSet
import AdaptiveLL.Json.Magnitude
import AdaptiveLL.Json.Pointer
import AdaptiveLL.Json.Reader
import AdaptiveLL.Json.Record
import AdaptiveLL.Json.Value
import AdaptiveLL.Lexer.Basic
import AdaptiveLL.Lexer.Scanner
import AdaptiveLL.Main
import AdaptiveLL.Network.Assembly
import AdaptiveLL.Network.Basic
import AdaptiveLL.Network.Codec
import AdaptiveLL.Network.Ebnf
import AdaptiveLL.Network.Error
import AdaptiveLL.Network.LexerAction
import AdaptiveLL.Network.Lookahead
import AdaptiveLL.Network.State
import AdaptiveLL.Network.Transition
import AdaptiveLL.Options
import AdaptiveLL.Parser.Basic
import AdaptiveLL.Parser.Parse
import AdaptiveLL.Parser.Recovery
import AdaptiveLL.Prediction.Adaptive
import AdaptiveLL.Prediction.Choice
import AdaptiveLL.Prediction.Closure
import AdaptiveLL.Prediction.Configuration
import AdaptiveLL.Prediction.Conflict
import AdaptiveLL.Prediction.Guard
import AdaptiveLL.Prediction.Guard.Codec
import AdaptiveLL.Prediction.Reach
import AdaptiveLL.Prediction.Simulation
import AdaptiveLL.Prediction.StackGraph
import AdaptiveLL.Prediction.Table
import AdaptiveLL.Proofs.Grammar.Infix
import AdaptiveLL.Proofs.Grammar.Written
import AdaptiveLL.Proofs.IntervalSet
import AdaptiveLL.Proofs.IntervalSet.Construction
import AdaptiveLL.Proofs.IntervalSet.Separated
import AdaptiveLL.Proofs.Json.Record
import AdaptiveLL.Proofs.Json.Text
import AdaptiveLL.Proofs.Lexer.Cache
import AdaptiveLL.Proofs.Lexer.Commands
import AdaptiveLL.Proofs.Lexer.Denotation
import AdaptiveLL.Proofs.Lexer.Located
import AdaptiveLL.Proofs.Lexer.LongestMatch
import AdaptiveLL.Proofs.Lexer.Lossless
import AdaptiveLL.Proofs.Lexer.Match
import AdaptiveLL.Proofs.Lexer.NonGreedy
import AdaptiveLL.Proofs.Lexer.Positions
import AdaptiveLL.Proofs.Lexer.Refinement
import AdaptiveLL.Proofs.Lexer.Table
import AdaptiveLL.Proofs.Lexer.Thread
import AdaptiveLL.Proofs.Lexer.Transparency
import AdaptiveLL.Proofs.Lexer.Waiting
import AdaptiveLL.Proofs.Lexer.Whereabouts
import AdaptiveLL.Proofs.Network.Answers
import AdaptiveLL.Proofs.Network.Assembled
import AdaptiveLL.Proofs.Network.Assembling
import AdaptiveLL.Proofs.Network.Callers
import AdaptiveLL.Proofs.Network.Combinators
import AdaptiveLL.Proofs.Network.Confined
import AdaptiveLL.Proofs.Network.Definitions
import AdaptiveLL.Proofs.Network.Delimited
import AdaptiveLL.Proofs.Network.Ebnf
import AdaptiveLL.Proofs.Network.Expected
import AdaptiveLL.Proofs.Network.Fragments
import AdaptiveLL.Proofs.Network.Language
import AdaptiveLL.Proofs.Network.Lookahead
import AdaptiveLL.Proofs.Network.OperatorLoops
import AdaptiveLL.Proofs.Network.PastEnd
import AdaptiveLL.Proofs.Network.Pushdown
import AdaptiveLL.Proofs.Network.Settling
import AdaptiveLL.Proofs.Network.Shapes
import AdaptiveLL.Proofs.Network.Solution
import AdaptiveLL.Proofs.Network.Spelling
import AdaptiveLL.Proofs.Network.Verified
import AdaptiveLL.Proofs.Network.Visits
import AdaptiveLL.Proofs.Network.WellFormed
import AdaptiveLL.Proofs.Network.Written
import AdaptiveLL.Proofs.Parser.Agreement
import AdaptiveLL.Proofs.Parser.Alongside
import AdaptiveLL.Proofs.Parser.Calls
import AdaptiveLL.Proofs.Parser.Calm
import AdaptiveLL.Proofs.Parser.Choice
import AdaptiveLL.Proofs.Parser.Climbing
import AdaptiveLL.Proofs.Parser.Deriving
import AdaptiveLL.Proofs.Parser.Effect
import AdaptiveLL.Proofs.Parser.Frames
import AdaptiveLL.Proofs.Parser.InRange
import AdaptiveLL.Proofs.Parser.InStep
import AdaptiveLL.Proofs.Parser.Mending
import AdaptiveLL.Proofs.Parser.Mismatch
import AdaptiveLL.Proofs.Parser.Moves
import AdaptiveLL.Proofs.Parser.Onward
import AdaptiveLL.Proofs.Parser.Reporting
import AdaptiveLL.Proofs.Parser.Rerun
import AdaptiveLL.Proofs.Parser.Reset
import AdaptiveLL.Proofs.Parser.Signals
import AdaptiveLL.Proofs.Parser.Silence
import AdaptiveLL.Proofs.Parser.Spans
import AdaptiveLL.Proofs.Parser.Spine
import AdaptiveLL.Proofs.Parser.Standing
import AdaptiveLL.Proofs.Parser.Traversal
import AdaptiveLL.Proofs.Parser.Turn
import AdaptiveLL.Proofs.Parser.Walk
import AdaptiveLL.Proofs.Parser.Yield
import AdaptiveLL.Proofs.Prediction.Accounts
import AdaptiveLL.Proofs.Prediction.Adaptive
import AdaptiveLL.Proofs.Prediction.Alongside
import AdaptiveLL.Proofs.Prediction.Alternatives
import AdaptiveLL.Proofs.Prediction.Aside
import AdaptiveLL.Proofs.Prediction.Between
import AdaptiveLL.Proofs.Prediction.Blend
import AdaptiveLL.Proofs.Prediction.Chart
import AdaptiveLL.Proofs.Prediction.Closing
import AdaptiveLL.Proofs.Prediction.Course
import AdaptiveLL.Proofs.Prediction.Decisive
import AdaptiveLL.Proofs.Prediction.Discretion
import AdaptiveLL.Proofs.Prediction.Faithful
import AdaptiveLL.Proofs.Prediction.Generations
import AdaptiveLL.Proofs.Prediction.Guard.Algebra
import AdaptiveLL.Proofs.Prediction.Guard.Meaning
import AdaptiveLL.Proofs.Prediction.Guard.Operands
import AdaptiveLL.Proofs.Prediction.Guard.Order
import AdaptiveLL.Proofs.Prediction.Guard.Remainder
import AdaptiveLL.Proofs.Prediction.Halting
import AdaptiveLL.Proofs.Prediction.InRange
import AdaptiveLL.Proofs.Prediction.KeyedUnion
import AdaptiveLL.Proofs.Prediction.Likeness
import AdaptiveLL.Proofs.Prediction.Memo
import AdaptiveLL.Proofs.Prediction.Merge
import AdaptiveLL.Proofs.Prediction.Operators
import AdaptiveLL.Proofs.Prediction.Population
import AdaptiveLL.Proofs.Prediction.Reclosing
import AdaptiveLL.Proofs.Prediction.Refill
import AdaptiveLL.Proofs.Prediction.Renumbering
import AdaptiveLL.Proofs.Prediction.Replay
import AdaptiveLL.Proofs.Prediction.Rerun
import AdaptiveLL.Proofs.Prediction.Rooted
import AdaptiveLL.Proofs.Prediction.Searching
import AdaptiveLL.Proofs.Prediction.Session
import AdaptiveLL.Proofs.Prediction.StackGraph
import AdaptiveLL.Proofs.Prediction.StackSets
import AdaptiveLL.Proofs.Prediction.Stages
import AdaptiveLL.Proofs.Prediction.Union
import AdaptiveLL.Proofs.Prediction.Viable
import AdaptiveLL.Proofs.Recognition.Likeness
import AdaptiveLL.Proofs.Step
import AdaptiveLL.Proofs.Step.Alongside
import AdaptiveLL.Proofs.Step.Contract
import AdaptiveLL.Proofs.Stream.CharStream
import AdaptiveLL.Proofs.Stream.Cursor
import AdaptiveLL.Proofs.Stream.Hidden
import AdaptiveLL.Proofs.Stream.Prefetch
import AdaptiveLL.Proofs.Stream.TokenSource
import AdaptiveLL.Proofs.Stream.TokenStream
import AdaptiveLL.Proofs.Stream.Upcoming
import AdaptiveLL.Proofs.Tree.Derived
import AdaptiveLL.Proofs.Tree.Enclosing
import AdaptiveLL.Proofs.Tree.Grown
import AdaptiveLL.Proofs.Tree.Likeness
import AdaptiveLL.Proofs.Tree.Outline
import AdaptiveLL.Proofs.Tree.Subtree
import AdaptiveLL.Proofs.Tree.Walks
import AdaptiveLL.Recognition.Error
import AdaptiveLL.Recognition.Report
import AdaptiveLL.Settings.Basic
import AdaptiveLL.Settings.Place
import AdaptiveLL.Stream.CharStream
import AdaptiveLL.Stream.TokenSource
import AdaptiveLL.Stream.TokenStream
import AdaptiveLL.Symbol
import AdaptiveLL.Text.Quoted
import AdaptiveLL.Text.Unprintable
import AdaptiveLL.Token
import AdaptiveLL.Toml.Moment
import AdaptiveLL.Toml.Reader
import AdaptiveLL.Toml.Table
import AdaptiveLL.Toml.Value
import AdaptiveLL.Tree.Basic
import AdaptiveLL.Tree.Walk
import AdaptiveLL.Vocabulary
