import SatCheck.AddressTables
import SatCheck.Alloc
import SatCheck.AnnotatedTraces
import SatCheck.BranchDirections
import SatCheck.BranchRecord
import SatCheck.BuildSchedule
import SatCheck.ClauseStream
import SatCheck.CodeGraph
import SatCheck.ComesTo
import SatCheck.ConflictSet
import SatCheck.Constraint
import SatCheck.ConstraintVars
import SatCheck.DeferredUpdates
import SatCheck.Dependences
import SatCheck.Encoding
import SatCheck.EventIds
import SatCheck.EventRecord
import SatCheck.EventRecorder
import SatCheck.ExecPoint
import SatCheck.ExecutionEncoding
import SatCheck.Exploration
import SatCheck.FunctionGoals
import SatCheck.FunctionInputs
import SatCheck.Goals
import SatCheck.HashSetRuns
import SatCheck.HashTableProbes
import SatCheck.IncSolver
import SatCheck.KeepBytes
import SatCheck.LTConstraint
import SatCheck.Library.ByteMemory
import SatCheck.Library.Saturation
import SatCheck.Library.Tournament
import SatCheck.Library.Worklist
import SatCheck.LoadClosure
import SatCheck.MayReadFrom
import SatCheck.Negation
import SatCheck.OrderInvariant
import SatCheck.OrderTable
import SatCheck.OutsideBranches
import SatCheck.PathCondition
import SatCheck.PhiInputs
import SatCheck.Planner
import SatCheck.PlannerCalls
import SatCheck.PlannerGrowth
import SatCheck.PlannerInvariant
import SatCheck.PlannerReachable
import SatCheck.PlannerTermination
import SatCheck.PointHash
import SatCheck.PointOrder
import SatCheck.ProcessAdd
import SatCheck.ProcessBranch
import SatCheck.ProcessCAS
import SatCheck.ProcessEquals
import SatCheck.ProcessFunction
import SatCheck.ProcessRecord
import SatCheck.ProcessYield
import SatCheck.ProgramEncoding
import SatCheck.RMWReads
import SatCheck.RMWStores
import SatCheck.ReadValues
import SatCheck.ReadsFrom
import SatCheck.RecordKinds
import SatCheck.RecordTable
import SatCheck.RecordWalk
import SatCheck.RecordedGraph
import SatCheck.RunCoverage
import SatCheck.RunOrder
import SatCheck.RunWalk
import SatCheck.Schedule
import SatCheck.ScheduleGraph
import SatCheck.ScheduleOrder
import SatCheck.ScheduleReplay
import SatCheck.Scheduler
import SatCheck.Simplify
import SatCheck.Snapshot
import SatCheck.SnapshotInvariant
import SatCheck.SnapshotStack
import SatCheck.SolvedSchedule
import SatCheck.SolvingAgain
import SatCheck.StoreBuffer
import SatCheck.StoreLoadReset
import SatCheck.StoreLoadTable
import SatCheck.Subsumption
import SatCheck.TSOFence
import SatCheck.TSOUnscheduled
import SatCheck.TableVars
import SatCheck.ThreadConditions
import SatCheck.ThreadCoverage
import SatCheck.ThreadOrder
import SatCheck.ThreadSwitch
import SatCheck.TransOrder
import SatCheck.ValueRecord
import SatCheck.WaitedThreads
