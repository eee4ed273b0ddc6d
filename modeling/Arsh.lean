import Arsh.Misc.Unicode
import Arsh.Lib.Machine
import Arsh.Unicode.RadixTree
import Arsh.Unicode.RadixLookup
import Arsh.Regex.Input
import Arsh.Regex.Node
import Arsh.Regex.Emit
import Arsh.Regex.Vm
import Arsh.Regex.Search
import Arsh.Lib.Es
import Arsh.Regex.Refine
import Arsh.Regex.Sim
import Arsh.Regex.Leaf
import Arsh.Regex.StrSet
import Arsh.Regex.Correct
import Arsh.Regex.Es
import Arsh.Regex.Agree
import Arsh.Regex.Match
import Arsh.Regex.Strings
import Arsh.Regex.First
import Arsh.Regex.SearchPrefix
import Arsh.Lib.PopStack
import Arsh.Lib.Vec
import Arsh.Job.Table
import Arsh.Job.Invariant
import Arsh.Job.Run
import Arsh.Job.Safety
import Arsh.Analyzer.Archives
import Arsh.Analyzer.Closure
import Arsh.Analyzer.Deps
import Arsh.Types.Name
import Arsh.Types.Pool
import Arsh.Types.Lookup
import Arsh.Scope.Scope
import Arsh.Scope.Tree
import Arsh.Scope.Slots
import Arsh.Scope.Capture
import Arsh.Scope.Run
import Arsh.Scope.Grow
import Arsh.Types.Discard
import Arsh.Compiler.State
import Arsh.Compiler.Discard
import Arsh.Compiler.Rollback
import Arsh.Lib.RobinHood
import Arsh.Map.OrderedMap
import Arsh.Map.Buckets
import Arsh.Map.Invariant
import Arsh.Map.Operations
import Arsh.Map.Refine
import Arsh.Vm.Stack
import Arsh.Vm.Frames
import Arsh.Lib.GlobalSearch
import Arsh.Regex.Global
import Arsh.Regex.MatchAll
import Arsh.Regex.Replace
import Arsh.Regex.Split
import Arsh.Lib.Ranges
import Arsh.Unicode.CodePointSet
import Arsh.Unicode.SetBuilder
import Arsh.Unicode.SetAlgebra
import Arsh.Unicode.SetRun
import Arsh.Lib.LongestFirst
import Arsh.Regex.StrMembers
import Arsh.Lib.Splice
import Arsh.Analyzer.Source
import Arsh.Analyzer.Sync
import Arsh.Misc.OptParser
import Arsh.Cli.ArgEntry
import Arsh.Cli.ArgParser
import Arsh.Cli.Entries
import Arsh.Cli.Required
import Arsh.Cli.Records
import Arsh.Brace.Range
import Arsh.Brace.Numeral
import Arsh.Brace.Progression
import Arsh.Brace.Values
import Arsh.Brace.Expansion
import Arsh.Brace.Words
import Arsh.Brace.Product
import Arsh.Line.LineBuffer
import Arsh.Line.History
import Arsh.Line.AtomicEdit
import Arsh.Glob.Scanner
import Arsh.Glob.CharSet
import Arsh.Glob.Language
import Arsh.Glob.Rounds
import Arsh.Glob.Segments
import Arsh.Glob.Matching
import Arsh.Glob.Escape
import Arsh.Glob.BaseDir
import Arsh.Glob.Paths
import Arsh.Regex.Runs
import Arsh.Regex.Syntax
import Arsh.Regex.Escapes
import Arsh.Regex.Atoms
import Arsh.Regex.CharClasses
import Arsh.Regex.Parser
import Arsh.Regex.Lookahead
import Arsh.Regex.LookaheadClasses
import Arsh.Regex.ParserStep
import Arsh.Regex.GroupCount
import Arsh.Lib.Layout
import Arsh.Regex.TreeLayout
import Arsh.Regex.GroupNames
import Arsh.Misc.RingBuffer
import Arsh.Line.KillRing
import Arsh.Analyzer.Position
import Arsh.Analyzer.SourceManager
import Arsh.Misc.NumUtil
import Arsh.Types.Subtype
import Arsh.Lib.InsertionSort
import Arsh.Types.CommonSuper
import Arsh.Types.Hierarchy
import Arsh.Types.Order
import Arsh.Cmd.Arg
import Arsh.Cmd.Quote
import Arsh.Cmd.Pieces
import Arsh.Cmd.RoundTrip
import Arsh.Lib.Segments
import Arsh.Unicode.Grapheme
import Arsh.Unicode.Scanner
import Arsh.Misc.OptGrammar
import Arsh.Lib.FrameStack
import Arsh.Misc.Double
import Arsh.Obj.Value
import Arsh.Obj.Key
import Arsh.Obj.Equality
import Arsh.Obj.Structure
import Arsh.Obj.KeyLookup
import Arsh.Obj.Ordering
import Arsh.Obj.Lexicographic
import Arsh.Concat.Append
import Arsh.Concat.Codegen
import Arsh.Concat.Correct
import Arsh.Case.Pattern
import Arsh.Lib.Labels
import Arsh.Case.Checked
import Arsh.Case.Codegen
import Arsh.Case.Selection
import Arsh.Case.Keys
import Arsh.Case.MapCase
import Arsh.Case.IfElse
import Arsh.Case.Dispatch
import Arsh.Dirs.Paths
import Arsh.Dirs.ExpandDots
import Arsh.Dirs.Tilde
import Arsh.Dirs.FormatDir
import Arsh.Dirs.DirStack
import Arsh.Dirs.Rotation
import Arsh.Dirs.Runs
import Arsh.Line.HistRotator
import Arsh.Lib.Captures
import Arsh.Uri.Grammar
import Arsh.Uri.Parse
import Arsh.Uri.RoundTrip
import Arsh.Test.Ops
import Arsh.Test.Evaluator
import Arsh.Test.Steps
import Arsh.Test.Bounds
import Arsh.Test.Grammar
import Arsh.Test.Fixed
import Arsh.Test.Correct
import Arsh.Misc.BitSet
import Arsh.Pager.Model
import Arsh.Pager.Moves
import Arsh.Pager.Layout
import Arsh.Pager.Render
import Arsh.Pager.Runs
import Arsh.Lib.Levenshtein
import Arsh.Misc.EditDistance
import Arsh.Misc.Shift
import Arsh.Regex.Stepping
import Arsh.Key.Event
import Arsh.Key.Parser
import Arsh.Key.Canonical
import Arsh.Tagged.Encoding
import Arsh.Tagged.SmallStr
import Arsh.Tagged.Value
import Arsh.Tagged.Faithful
import Arsh.Tagged.Append
import Arsh.Unicode.RadixMap
import Arsh.Unicode.PackedRadix
import Arsh.Lib.Undo
import Arsh.Line.Editor
import Arsh.Json.Lexer
import Arsh.Json.Parser
import Arsh.Json.Correct
import Arsh.Json.Serializer
import Arsh.Rpc.Transport
import Arsh.Rpc.Message
import Arsh.Rpc.Handler
