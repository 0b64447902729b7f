import PathSlice.CommandLine.Options
import PathSlice.CommandLine.Run
import PathSlice.CommandLine.Words
import PathSlice.Effect.Call
import PathSlice.Effect.Fault
import PathSlice.Effect.Instruction
import PathSlice.Effect.Resolve
import PathSlice.Effect.State
import PathSlice.External.Summary
import PathSlice.Json.Basic
import PathSlice.Json.Numeral
import PathSlice.Json.Outline
import PathSlice.Json.Printer
import PathSlice.Json.Shape
import PathSlice.Json.Tagged
import PathSlice.Json.Token
import PathSlice.Main
import PathSlice.Order.Agenda
import PathSlice.Order.Ascending
import PathSlice.Path.Basic
import PathSlice.Path.Flow
import PathSlice.Path.Frame
import PathSlice.Path.Marks
import PathSlice.Path.Origin
import PathSlice.Path.Printer
import PathSlice.Path.Version
import PathSlice.Program.Declaration
import PathSlice.Program.Format
import PathSlice.Program.Opcode
import PathSlice.Program.Value
import PathSlice.Proofs.AddressResolution
import PathSlice.Proofs.AgendaRuns
import PathSlice.Proofs.ArraySubstitution
import PathSlice.Proofs.AscendingLists
import PathSlice.Proofs.BacktrackRuns
import PathSlice.Proofs.CallBinding
import PathSlice.Proofs.ChainSearch
import PathSlice.Proofs.ClosureLoops
import PathSlice.Proofs.ComposedShadows
import PathSlice.Proofs.CopiedAddresses
import PathSlice.Proofs.CoreLocations
import PathSlice.Proofs.CoreStores
import PathSlice.Proofs.CoreVersions
import PathSlice.Proofs.CreatedVersions
import PathSlice.Proofs.CreationOrder
import PathSlice.Proofs.DeclarationChecks
import PathSlice.Proofs.DeclaredPrograms
import PathSlice.Proofs.EffectCorrespondence
import PathSlice.Proofs.EffectUses
import PathSlice.Proofs.ElementOffsets
import PathSlice.Proofs.ElementTargets
import PathSlice.Proofs.FailedEffects
import PathSlice.Proofs.FlowClosure
import PathSlice.Proofs.FlowDrawing
import PathSlice.Proofs.FlowOrder
import PathSlice.Proofs.ForkTransparency
import PathSlice.Proofs.FrameOwnership
import PathSlice.Proofs.FrameWalks
import PathSlice.Proofs.GlobalRegistration
import PathSlice.Proofs.GlobalVersions
import PathSlice.Proofs.GraphHistories
import PathSlice.Proofs.IdentityRenaming
import PathSlice.Proofs.LoadAfterStore
import PathSlice.Proofs.LookupLoops
import PathSlice.Proofs.MarkingOrder
import PathSlice.Proofs.MemoryAccess
import PathSlice.Proofs.MergedFrames
import PathSlice.Proofs.MirroredPaths
import PathSlice.Proofs.NearestLocations
import PathSlice.Proofs.PathInvariants
import PathSlice.Proofs.PathJournals
import PathSlice.Proofs.QuietRecording
import PathSlice.Proofs.RecorderCorrespondence
import PathSlice.Proofs.RecordingMoves
import PathSlice.Proofs.RepeatedLookups
import PathSlice.Proofs.ReplayRuns
import PathSlice.Proofs.ResultVersions
import PathSlice.Proofs.ShadowedStores
import PathSlice.Proofs.SiblingPaths
import PathSlice.Proofs.SinkConsumption
import PathSlice.Proofs.SinkExhaustion
import PathSlice.Proofs.SinkFrontier
import PathSlice.Proofs.SliceMarks
import PathSlice.Proofs.StableResolution
import PathSlice.Proofs.StoreTables
import PathSlice.Proofs.SupportCoverage
import PathSlice.Proofs.SupportSoundness
import PathSlice.Proofs.SupportTrees
import PathSlice.Proofs.TermShapes
import PathSlice.Proofs.TrackedResults
import PathSlice.Replay.Event
import PathSlice.Replay.Format
import PathSlice.Replay.Report
import PathSlice.Replay.Run
import PathSlice.Shadow.Copy
import PathSlice.Shadow.Session
import PathSlice.Shadow.Substitution
import PathSlice.Slice.Marking
import PathSlice.Slice.Stores
import PathSlice.Support.Graph
import PathSlice.Support.Printer
import PathSlice.Term.Basic
import PathSlice.Term.Format
import PathSlice.Term.Order
import PathSlice.Term.Printer
import PathSlice.Text.Blank
import PathSlice.Text.Invisible
import PathSlice.Text.Layout
import PathSlice.Text.Quoted
import PathSlice.Proofs.ArgumentLookups
