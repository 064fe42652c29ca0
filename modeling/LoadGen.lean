import LoadGen.Arguments
import LoadGen.Binary64
import LoadGen.Binary64.Decimal
import LoadGen.Chronicle
import LoadGen.CommandLine
import LoadGen.Compliance
import LoadGen.DefinitionError
import LoadGen.Ensemble
import LoadGen.ErrorChain
import LoadGen.Event
import LoadGen.Fault
import LoadGen.Handler
import LoadGen.Histogram
import LoadGen.LoadSchedule
import LoadGen.LogFile
import LoadGen.LogLine
import LoadGen.Main
import LoadGen.Metrics
import LoadGen.Mix
import LoadGen.Operation
import LoadGen.Pacing
import LoadGen.Percentile
import LoadGen.Phase
import LoadGen.PhaseLength
import LoadGen.Policy
import LoadGen.Program
import LoadGen.Proofs.AbortDating
import LoadGen.Proofs.AbortEffect
import LoadGen.Proofs.AbortRecord
import LoadGen.Proofs.AbortSignal
import LoadGen.Proofs.ActiveLevels
import LoadGen.Proofs.AfterStart
import LoadGen.Proofs.BuiltWorkload
import LoadGen.Proofs.CallOutcomes
import LoadGen.Proofs.CarriedPolicy
import LoadGen.Proofs.ClockReadings
import LoadGen.Proofs.CommonBounds
import LoadGen.Proofs.Continuation
import LoadGen.Proofs.CycleAccounting
import LoadGen.Proofs.CycleTally
import LoadGen.Proofs.DelayBounds
import LoadGen.Proofs.DelayMeasures
import LoadGen.Proofs.DraftChecks
import LoadGen.Proofs.DueOrder
import LoadGen.Proofs.EnsembleRun
import LoadGen.Proofs.FailedThreads
import LoadGen.Proofs.FatalCause
import LoadGen.Proofs.FirstAbort
import LoadGen.Proofs.FixedSequence
import LoadGen.Proofs.FreshMetrics
import LoadGen.Proofs.GateReadings
import LoadGen.Proofs.HandlerRecords
import LoadGen.Proofs.HistogramCounts
import LoadGen.Proofs.History
import LoadGen.Proofs.Initialization
import LoadGen.Proofs.LabelDisplay
import LoadGen.Proofs.LabelReading
import LoadGen.Proofs.Latch
import LoadGen.Proofs.Launch
import LoadGen.Proofs.LevelLookup
import LoadGen.Proofs.LoopOutline
import LoadGen.Proofs.MetricsRecords
import LoadGen.Proofs.MixChecks
import LoadGen.Proofs.ModestRequests
import LoadGen.Proofs.NumberOrder
import LoadGen.Proofs.NumberTexts
import LoadGen.Proofs.OneShot
import LoadGen.Proofs.ParkingProgress
import LoadGen.Proofs.PendingInvocations
import LoadGen.Proofs.PhaseOrder
import LoadGen.Proofs.PlannedSchedule
import LoadGen.Proofs.Playback
import LoadGen.Proofs.ProgramLogic
import LoadGen.Proofs.Protocol
import LoadGen.Proofs.QuietRequests
import LoadGen.Proofs.ReadableSpans
import LoadGen.Proofs.Recordings
import LoadGen.Proofs.RepairedRecords
import LoadGen.Proofs.ResponseChecks
import LoadGen.Proofs.ResponseTimes
import LoadGen.Proofs.Rounding
import LoadGen.Proofs.RunEnd
import LoadGen.Proofs.RunLimits
import LoadGen.Proofs.RunOfPlan
import LoadGen.Proofs.SafeRuns
import LoadGen.Proofs.SampleConservation
import LoadGen.Proofs.SampleContract
import LoadGen.Proofs.SampleCounts
import LoadGen.Proofs.SampleTimes
import LoadGen.Proofs.ScheduleTexts
import LoadGen.Proofs.Sections
import LoadGen.Proofs.SharedMemory
import LoadGen.Proofs.SignalAgreement
import LoadGen.Proofs.SimultaneousStart
import LoadGen.Proofs.SlotInvariants
import LoadGen.Proofs.SlotMemory
import LoadGen.Proofs.SlotPlans
import LoadGen.Proofs.SpanReading
import LoadGen.Proofs.SpanTexts
import LoadGen.Proofs.Stamps
import LoadGen.Proofs.StartKnowledge
import LoadGen.Proofs.StartSignal
import LoadGen.Proofs.SteadyAnswers
import LoadGen.Proofs.SteadyView
import LoadGen.Proofs.TextEnds
import LoadGen.Proofs.ThreadWay
import LoadGen.Proofs.TimingRecords
import LoadGen.Proofs.WakeUps
import LoadGen.Proofs.WeightedDraws
import LoadGen.Random.ChaCha
import LoadGen.Random.Real
import LoadGen.Random.Source
import LoadGen.Random.Words
import LoadGen.Random.Ziggurat
import LoadGen.Rehearsal
import LoadGen.Run
import LoadGen.RunControl
import LoadGen.RunError
import LoadGen.RunId
import LoadGen.RunReport
import LoadGen.Sample
import LoadGen.Script
import LoadGen.Shop
import LoadGen.Signals
import LoadGen.Simulation
import LoadGen.Span
import LoadGen.Span.Readable
import LoadGen.Span.Reading
import LoadGen.Summary
import LoadGen.Text.Blank
import LoadGen.Text.Numeral
import LoadGen.TimeUnit
import LoadGen.Timing
import LoadGen.Timing.Readings
import LoadGen.Total
import LoadGen.VirtualUser
import LoadGen.Word
import LoadGen.Workload
