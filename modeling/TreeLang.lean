import TreeLang.Text.Decimal
import TreeLang.Text.Blank
import TreeLang.Operator
import TreeLang.Ty
import TreeLang.Failure
import TreeLang.Tree
import TreeLang.Tree.Traverse
import TreeLang.Tree.Equality
import TreeLang.Tree.Slot
import TreeLang.Json.Document
import TreeLang.Json.Token
import TreeLang.Json.Reader
import TreeLang.Json.Writer
import TreeLang.Form.Reader
import TreeLang.Form.Writer
import TreeLang.Heap
import TreeLang.Datum
import TreeLang.Env
import TreeLang.OperandStack
import TreeLang.Registry
import TreeLang.Console
import TreeLang.Machine
import TreeLang.Eval
import TreeLang.Interpreter
import TreeLang.CommandLine
import TreeLang.Main
import TreeLang.Proofs.Ending
import TreeLang.Proofs.Declarations
import TreeLang.Proofs.HeapCells
import TreeLang.Proofs.Law
import TreeLang.Proofs.LawfulRuns
import TreeLang.Proofs.Operations
import TreeLang.Proofs.StackDiscipline
import TreeLang.Proofs.ControlState
import TreeLang.Proofs.HeapTyping
import TreeLang.Proofs.HeapWalks
import TreeLang.Proofs.CallEffects
import TreeLang.Proofs.Signatures
import TreeLang.Proofs.Echo
import TreeLang.Proofs.EchoingRuns
import TreeLang.Proofs.CallIsolation
import TreeLang.Proofs.Moments
import TreeLang.Proofs.Sharing
import TreeLang.Proofs.StaticTags
import TreeLang.Proofs.Parts
import TreeLang.Proofs.Visiting
import TreeLang.Proofs.Placement
import TreeLang.Proofs.Termination
import TreeLang.Proofs.SettledTypes
import TreeLang.Proofs.Renaming
import TreeLang.Proofs.TwinRuns
import TreeLang.Proofs.SideBySide
import TreeLang.Proofs.Rerun
import TreeLang.Proofs.CallDepth
import TreeLang.Proofs.InputTokens
import TreeLang.Proofs.Numerals
import TreeLang.Proofs.Scanning
import TreeLang.Proofs.JsonText
import TreeLang.Proofs.WrittenForm
import TreeLang.Proofs.Spelling
import TreeLang.Proofs.Loading
import TreeLang.Proofs.PureExpressions
import TreeLang.Proofs.Overloads
import TreeLang.Proofs.FunctionOrder
import TreeLang.Proofs.ParameterBinding
import TreeLang.Proofs.ArrayAssignment
import TreeLang.Proofs.TokenStream
import TreeLang.Proofs.ReadingCells
import TreeLang.Proofs.ArgumentPassing
import TreeLang.Proofs.StatementLists
import TreeLang.Proofs.EntryPoint
import TreeLang.Proofs.ScopeStack
import TreeLang.Proofs.FreshCells
import TreeLang.Proofs.TokenValues
import TreeLang.Proofs.PrintedText
