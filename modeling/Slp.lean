import Slp.Graph.Linked
import Slp.Graph.Marking
import Slp.Gc.MarkSweep
import Slp.Gc.Accounting
import Slp.Vm.Continuation
import Slp.Compiler.Ast
import Slp.Compiler.Bytecode
import Slp.Compiler.Compile
import Slp.Compiler.Shape
import Slp.Compiler.Emission
import Slp.Compiler.Loops
import Slp.Compiler.Overwrite
import Slp.Compiler.LoopLaw
import Slp.Compiler.Chunks
import Slp.Compiler.Disasm
import Slp.Table.Tombstone
import Slp.Object.Dictionary
import Slp.Object.HashOrder
import Slp.Object.View
import Slp.Object.Stale
import Slp.Object.WriteThrough
import Slp.Vm.Index
import Slp.Codec.RoundTrip
import Slp.Codec.Damage
import Slp.Vm.Control
import Slp.Vm.Fork
import Slp.Vm.Foreach
import Slp.Vm.ForeachHash
import Slp.Vm.ForeachArray
import Slp.Vm.ForeachRemove
import Slp.Vm.ForeachRemoveHash
import Slp.Vm.ForeachNest
import Slp.Iteration.Pass
import Slp.Vm.Operators
import Slp.Vm.Taint
import Slp.Parse.Lexer
import Slp.Parse.Parser
import Slp.Parse.Bounds
import Slp.Parse.Good
import Slp.Parse.Depth
import Slp.Gc.Interning
import Slp.Vm.Compound
import Slp.Vm.Scope
import Slp.Compiler.Run
import Slp.Vm.Arguments
import Slp.Compiler.Increment
import Slp.Compiler.TupleAssignment
import Slp.Stdlib.Clone
import Slp.Stdlib.CloneLaw
import Slp.Binary.Word
import Slp.Binary.Blocks
import Slp.Stdlib.Digest
import Slp.Stdlib.Pack
import Slp.Stdlib.Snapshot
import Slp.Vm.Nested
import Slp.Vm.Mark
import Slp.Vm.CallValue
import Slp.Vm.EvalInline
import Slp.Vm.Division
import Slp.Table.Recency
import Slp.Vm.Bounded
import Slp.Object.Gap
import Slp.Object.Sources
import Slp.Object.Texts
import Slp.Object.Assigned
import Slp.Stdlib.Bulk
import Slp.Order.Stable
import Slp.Stdlib.Sort
import Slp.Stdlib.Copy
import Slp.Vm.Stringify
import Slp.Stdlib.HashKeys
import Slp.Vm.Conversions
import Slp.Vm.ForeachIterator
import Slp.Text.Wildcard
import Slp.Vm.TextPredicates
import Slp.Number.CInt
import Slp.Stdlib.Replace
import Slp.Stdlib.TextSearch
import Slp.Number.Rounding
import Slp.Vm.Comparison
import Slp.Text.Scan
import Slp.Vm.RegexFind
import Slp.Vm.HasMatch
import Slp.Text.Pieces
import Slp.Stdlib.Split
import Slp.Stdlib.Scanners
import Slp.Text.Slice
import Slp.Stdlib.Indexes
import Slp.Object.Room
import Slp.Stdlib.Splice
import Slp.Regex.Backtracking
import Slp.Regex.Extended
import Slp.Regex.Java
import Slp.Vm.TranslateRegex
import Slp.Vm.TranslateClass
import Slp.Vm.TranslatePattern
import Slp.Parse.Names
import Slp.Parse.Skips
import Slp.Parse.Partition
import Slp.Parse.Steady
import Slp.Parse.Lines
import Slp.Vm.LocalScope
import Slp.Compiler.Pieces
import Slp.Compiler.Operands
import Slp.Compiler.ConstantTable
import Slp.Compiler.Variables
import Slp.Graph.Unfolding
import Slp.Stdlib.Flatten
import Slp.Vm.Rendering
import Slp.Vm.Buffer
import Slp.Stdlib.DigestLaw
import Slp.Embed.Unpack
import Slp.Embed.UnpackLaw
import Slp.Embed.Callable
import Slp.Embed.CallableLaw
import Slp.Parse.Strings
import Slp.Parse.Adjacent
import Slp.Stdlib.Fields
import Slp.Stdlib.PackLaw
import Slp.Stdlib.Streams
import Slp.Stdlib.StreamLaw
import Slp.Stdlib.TaintGraph
import Slp.Stdlib.TaintLaw
import Slp.Flow.Command
import Slp.Flow.Goes
import Slp.Compiler.Activation
import Slp.Compiler.Meaning
import Slp.Compiler.Layout
import Slp.Compiler.Patching
import Slp.Compiler.Placement
import Slp.Compiler.LaidOut
import Slp.Compiler.ControlFlow
