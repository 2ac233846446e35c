import MicroSampler.Agents.Context
import MicroSampler.Agents.Evidence
import MicroSampler.Agents.Exceptions
import MicroSampler.Agents.Feedback
import MicroSampler.Agents.Governor
import MicroSampler.Agents.Passage
import MicroSampler.Agents.Replay
import MicroSampler.Agents.ReportLog
import MicroSampler.BearSSL.ConditionalCopy
import MicroSampler.BearSSL.ConstantTime
import MicroSampler.BearSSL.Decoding
import MicroSampler.BearSSL.Division
import MicroSampler.BearSSL.Encoding
import MicroSampler.BearSSL.Exponentiation
import MicroSampler.BearSSL.HexInput
import MicroSampler.BearSSL.Integers
import MicroSampler.BearSSL.Modpow
import MicroSampler.BearSSL.Montgomery
import MicroSampler.BearSSL.MontgomeryForm
import MicroSampler.BearSSL.MulAdd
import MicroSampler.BearSSL.Reduction
import MicroSampler.BearSSL.SyntheticTests
import MicroSampler.BearSSL.WindowedExponentiation
import MicroSampler.Harness.Buffers
import MicroSampler.Harness.Fill
import MicroSampler.Harness.Hooks
import MicroSampler.Harness.Main
import MicroSampler.Harness.Output
import MicroSampler.Harness.TrialReset
import MicroSampler.Keys.Generator
import MicroSampler.Keys.Labels
import MicroSampler.Keys.RoundLog
import MicroSampler.Keys.Truncation
import MicroSampler.Library.Aggregates
import MicroSampler.Library.ChiSquared
import MicroSampler.Library.Dict
import MicroSampler.Library.Division
import MicroSampler.Library.Json
import MicroSampler.Library.JsonLimits
import MicroSampler.Library.JsonText
import MicroSampler.Library.Limbs
import MicroSampler.Library.Loops
import MicroSampler.Library.Montgomery
import MicroSampler.Library.Padding
import MicroSampler.Library.Python
import MicroSampler.Library.Radix
import MicroSampler.Library.Regex
import MicroSampler.Library.Rings
import MicroSampler.Library.StateQueue
import MicroSampler.Library.Tally
import MicroSampler.Library.TwoRuns
import MicroSampler.Library.Utf8
import MicroSampler.Prompting.Templates
import MicroSampler.Reporting.FinalVerification
import MicroSampler.Reporting.Timeline
import MicroSampler.Scripts.Association
import MicroSampler.Scripts.ComponentLoop
import MicroSampler.Scripts.CorrelationReader
import MicroSampler.Scripts.CorrelationSummary
import MicroSampler.Scripts.IterationIds
import MicroSampler.Scripts.IterationSlices
import MicroSampler.Scripts.Iterations
import MicroSampler.Scripts.KeyComparison
import MicroSampler.Scripts.LeakDetector
import MicroSampler.Scripts.LeakSummary
import MicroSampler.Scripts.Microarchitecture
import MicroSampler.Scripts.MissCounting
import MicroSampler.Scripts.MissRows
import MicroSampler.Scripts.PcFinder
import MicroSampler.Scripts.PrintedListing
import MicroSampler.Scripts.QueueContents
import MicroSampler.Scripts.StateClasses
import MicroSampler.Scripts.TableLines
import MicroSampler.Scripts.TableWriter
import MicroSampler.Scripts.TraceParser
import MicroSampler.Scripts.TracePatterns
import MicroSampler.Scripts.TraceSegments
import MicroSampler.Scripts.TwoTraces
import MicroSampler.Simulation.Context
import MicroSampler.Simulation.Deployment
import MicroSampler.Simulation.Documents
import MicroSampler.Simulation.IncludeFilter
import MicroSampler.Simulation.Tabulate
import MicroSampler.Statistics.Agreement
import MicroSampler.Statistics.Analysis
import MicroSampler.Statistics.Columns
