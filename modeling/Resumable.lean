import Resumable.Assembly.Assembler
import Resumable.Assembly.Finish
import Resumable.Bindings
import Resumable.Bytecode.Code
import Resumable.Bytecode.Comparison
import Resumable.Bytecode.Instruction
import Resumable.Bytecode.Listing
import Resumable.Bytecode.LoopNesting
import Resumable.Bytecode.Opcode
import Resumable.Call.Arguments
import Resumable.Call.Binding
import Resumable.Cause
import Resumable.Config
import Resumable.Continuation.Record
import Resumable.Continuation.Reentry
import Resumable.Continuation.Suspension
import Resumable.EntryHooks
import Resumable.Fault
import Resumable.Frame
import Resumable.Machine.Calls
import Resumable.Machine.Capture
import Resumable.Machine.Handlers
import Resumable.Machine.Instructions
import Resumable.Machine.Natives
import Resumable.Machine.Operands
import Resumable.Machine.Run
import Resumable.Machine.State
import Resumable.Text.Blank
import Resumable.Text.Hidden
import Resumable.Text.Layout
import Resumable.Value.Arithmetic
import Resumable.Value.Basic
import Resumable.Value.Equality
import Resumable.Value.Iteration
import Resumable.Value.Store
import Resumable.Value.Written
import Resumable.Proofs.Footprint
import Resumable.Proofs.CallSite
import Resumable.Proofs.History
import Resumable.Proofs.NestedResume
import Resumable.Proofs.RecordOrder
import Resumable.Proofs.CallsInFlight
import Resumable.Proofs.RenamedActions
import Resumable.Proofs.RenamedInstructions
import Resumable.Proofs.RenamedRun
import Resumable.Proofs.ResumedRun
import Resumable.Proofs.HandledException
import Resumable.Proofs.ArmState
import Resumable.Proofs.Sessions
import Resumable.Proofs.Boundaries
import Resumable.Proofs.StackEffect
import Resumable.Proofs.HeldBodies
import Resumable.Proofs.HeldActions
import Resumable.Proofs.Discipline
import Resumable.Proofs.DisciplinedRun
import Resumable.Proofs.DisciplinedSession
import Resumable.Proofs.WholeChain
import Resumable.Proofs.FatalFaults
import Resumable.Proofs.Untouched
import Resumable.Proofs.CallIsolation
import Resumable.Proofs.ExceptionRoutes
import Resumable.Proofs.SavedException
import Resumable.Proofs.HandledBalance
import Resumable.Proofs.AssembledBodies
import Resumable.Proofs.EnclosingLoops
import Resumable.Proofs.StackSizes
import Resumable.Proofs.AssemblyCalls
import Resumable.Proofs.HookChains
import Resumable.Proofs.HookTurns
import Resumable.Proofs.OperandStack
import Resumable.Proofs.RecordRoundTrip
import Resumable.Proofs.HandlerRoundTrip
import Resumable.Proofs.LoopCode
import Resumable.Proofs.ArgumentBinding
import Resumable.Proofs.CallLifetimes
import Resumable.Proofs.CallShapes
import Resumable.Proofs.MethodCalls
import Resumable.Proofs.PoolIndices
import Resumable.Proofs.LineTables
import Resumable.Proofs.LocalSlots
import Resumable.Proofs.RangeIteration
import Resumable.Proofs.ValueEquality
