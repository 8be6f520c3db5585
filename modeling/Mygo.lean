import Mygo.Compiler.Tables
import Mygo.Parser.Backtrace
import Mygo.Lib.Forward
import Mygo.Loop.Loopback
import Mygo.Lib.Pipe
import Mygo.Loop.Boot
import Mygo.Loop.Turns
import Mygo.Lib.RoundRobin
import Mygo.Compiler.Labels
import Mygo.Lib.Brackets
import Mygo.Compiler.Erasure
import Mygo.Compiler.Runs
import Mygo.Vm.Relocation
import Mygo.Parser.Canonical
import Mygo.Parser.Erasure
import Mygo.Parser.Reprint
import Mygo.Lexer.Render
import Mygo.Parser.Overrun
import Mygo.Parser.Limits
import Mygo.Parser.Choices
import Mygo.Parser.Readings
import Mygo.Parser.Predict
import Mygo.Lib.Predict
import Mygo.Parser.Stamps
import Mygo.Parser.Nesting
import Mygo.Parser.Spans
import Mygo.Lib.Spans
import Mygo.Parser.Fatal
import Mygo.Lexer.Lookahead
import Mygo.Lexer.Lines
import Mygo.Vm.Value
import Mygo.Lexer.Literals
import Mygo.Parser.Blanks
import Mygo.Lexer.Blanks
import Mygo.Parser.Similar
import Mygo.Lib.Simulate
import Mygo.Loop.Rounds
import Mygo.Lib.Worklist
import Mygo.Loop.Payload
import Mygo.Loop.Timer
import Mygo.Parser.Invocations
import Mygo.Lib.Logged
import Mygo.Compiler.Reads
import Mygo.Lib.DefUse
import Mygo.Compiler.Initialisers
import Mygo.Compiler.Arguments
import Mygo.Compiler.SlotTypes
import Mygo.Compiler.Sizes
import Mygo.Compiler.Scoping
import Mygo.Compiler.Visits
import Mygo.Compiler.Order
import Mygo.Stream.Locations
import Mygo.Parser.Soundness
import Mygo.Parser.Grammar
import Mygo.Compiler.Frames
import Mygo.Vm.Writes
import Mygo.Loop.Lifetime
import Mygo.Compiler.Types
import Mygo.Parser.Shapes
import Mygo.Parser.Backtrack
import Mygo.Parser.Progress
import Mygo.Lib.Descent
import Mygo.Stream.Cache
import Mygo.Stream.Walk
import Mygo.Lexer.Tiles
import Mygo.Lexer.Munch
import Mygo.Lib.ByteMemory
import Mygo.Lib.Interp
import Mygo.Vm.Machine
import Mygo.Vm.CallReturn
import Mygo.Ast
import Mygo.Compiler.Arith
import Mygo.Compiler.ArithBody
import Mygo.Compiler.Control
import Mygo.Compiler.Linking
import Mygo.Lib.Trace
import Mygo.Loop.Queue
import Mygo.Loop.Server
import Mygo.Parser.Print
import Mygo.Parser.Program
import Mygo.Loop.Client
import Mygo.Loop.Handles
