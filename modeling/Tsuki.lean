import Tsuki.Rust
import Tsuki.Lib.ByteDigits
import Tsuki.Str.PackInt
import Tsuki.Str.UnpackSafe
import Tsuki.Str.Explore
import Tsuki.Str.MatchRefine
import Tsuki.Str.PatternRefine
import Tsuki.Str.Pack
import Tsuki.Lib.AgreesUntil
import Tsuki.Str.GsubFold
import Tsuki.F64
import Tsuki.Lib.Chains
import Tsuki.Table.Legacy
import Tsuki.Lib.Scatter
import Tsuki.Table.Cells
import Tsuki.Table.HashPart
import Tsuki.Table.Insert
import Tsuki.Table.Sizes
import Tsuki.Table.Access
import Tsuki.Table.Resize
import Tsuki.Table.Length
import Tsuki.Table.Run
import Tsuki.Table.Auxsort
import Tsuki.Parser.State
import Tsuki.Parser.Vars
import Tsuki.Parser.Labels
import Tsuki.Parser.Scope
import Tsuki.Parser.Resolve
import Tsuki.Parser.Names
import Tsuki.Vm.Heap
import Tsuki.Vm.Index
import Tsuki.Vm.NewIndex
import Tsuki.Gc.Refs
import Tsuki.Gc.RefLists
import Tsuki.Lib.Buckets
import Tsuki.Gc.StringTable
import Tsuki.Gc.Interned
import Tsuki.Thread.Coroutine
import Tsuki.Thread.Conversation
import Tsuki.Thread.Transfer
import Tsuki.Gc.Collector
import Tsuki.Gc.Cycle
import Tsuki.Gc.Debt
import Tsuki.Gc.Account
import Tsuki.Gc.Marking
import Tsuki.Gc.Traverse
import Tsuki.Gc.Converge
import Tsuki.Gc.Clearing
import Tsuki.Gc.WeakTables
import Tsuki.Code.LineInfo
import Tsuki.Gc.Layouts
import Tsuki.Table.Border
import Tsuki.Table.Rehash
import Tsuki.Table.Next
import Tsuki.Vm.Flags
import Tsuki.Lex.State
import Tsuki.Lex.ReadString
import Tsuki.Lex.StringLiteral
import Tsuki.Lex.Numeral
import Tsuki.Str.Quote
import Tsuki.Str.QuoteRoundTrip
import Tsuki.Lex.LongString
import Tsuki.Lex.NumeralForm
import Tsuki.Base.StrToInt
import Tsuki.Vm.Arith
import Tsuki.F64.Value
import Tsuki.Vm.Compare
import Tsuki.Vm.ForLoop
import Tsuki.Lex.NumeralText
import Tsuki.Str.Format
import Tsuki.Str.FormatSafe
import Tsuki.Str.Directive
import Tsuki.Thread.Upval
import Tsuki.Thread.UpvalAlias
import Tsuki.Thread.TbcList
import Tsuki.Thread.Context
import Tsuki.Thread.Slots
import Tsuki.Thread.Results
import Tsuki.Thread.Calls
import Tsuki.Thread.CallsExact
import Tsuki.Thread.Unwind
import Tsuki.Thread.UnwindExact
import Tsuki.Thread.TbcDeclared
import Tsuki.Code.Constants
import Tsuki.Code.Constructor
import Tsuki.Code.ConstructorRun
import Tsuki.Code.ConstructorSpec
import Tsuki.Code.Assign
import Tsuki.Code.AssignExact
import Tsuki.Vm.Concat
import Tsuki.Lib.Utf8Decode
import Tsuki.Lex.Utf8Esc
import Tsuki.Lex.Llex
import Tsuki.Lex.Tokens
import Tsuki.Base.Mem
import Tsuki.Code.LoadNil
import Tsuki.Code.Jumps
import Tsuki.Code.JumpsPatch
import Tsuki.Code.JumpsRun
import Tsuki.Parser.Lists
import Tsuki.Code.Finish
import Tsuki.Code.LogicValue
import Tsuki.Thread.Varargs
import Tsuki.Str.FindPlain
import Tsuki.Jit.Runs
import Tsuki.Lib.Threads
