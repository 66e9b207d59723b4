import Fasm.Lib.Pushdown
import Fasm.Bytecode.Canonical
import Fasm.Vm.CallReturn
import Fasm.Vm.TailCall
import Fasm.Vm.Panic
import Fasm.Vm.Session
import Fasm.Vm.Uncaught
import Fasm.Vm.AsyncCall
import Fasm.Vm.SeenRun
import Fasm.Vm.Transparent
import Fasm.Vm.Division
import Fasm.Vm.Comparison
import Fasm.Vm.Shift
import Fasm.Vm.Indexing
import Fasm.Vm.Bitvec
import Fasm.Vm.Vectors
import Fasm.Vm.StructEquality
import Fasm.Vm.StructMap
import Fasm.Vm.Descent
import Fasm.Vm.ParseInt
import Fasm.Engine.JitCache
import Fasm.Engine.Isolation
import Fasm.Engine.Reuse
import Fasm.Engine.FirstDelivery
import Fasm.Engine.QueueLooper
import Fasm.Engine.PubSub
import Fasm.Engine.JsonFields
import Fasm.Engine.PercentDecode
import Fasm.Compiler.CatchBody
import Fasm.Compiler.TmpScope
import Fasm.Compiler.FaultSymbols
import Fasm.Compiler.TryTargets
import Fasm.Compiler.Params
import Fasm.Compiler.Termination
import Fasm.Compiler.ReadOnly
import Fasm.Compiler.Numbers
import Fasm.Compiler.ParserTotal
import Fasm.Compiler.OperandShapes
import Fasm.Compiler.Reparse
import Fasm.Compiler.LexLines
import Fasm.Compiler.Output
import Fasm.Compiler.WellFormed
import Fasm.Compiler.Outline
import Fasm.Jit.Outcome
import Fasm.Jit.Typing
import Fasm.Jit.Loop
import Fasm.Jit.Transparency
import Fasm.Engine.Tasks
import Fasm.Engine.StartUp
import Fasm.Engine.RouteRaces
import Fasm.Engine.RegistryAccess
import Fasm.Engine.RegistryReload
import Fasm.Engine.RegistryRestart
import Fasm.Sandbox.Sidecar
import Fasm.Sandbox.PluginManifest
import Fasm.Sandbox.PluginArgs
