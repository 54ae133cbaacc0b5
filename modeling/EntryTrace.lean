import EntryTrace.Config.Decode
import EntryTrace.Instrument.Pass
import EntryTrace.Proofs.Calls
import EntryTrace.Proofs.Capture
import EntryTrace.Proofs.Census
import EntryTrace.Proofs.CompactText
import EntryTrace.Proofs.ConfigDecoders
import EntryTrace.Proofs.DiagnosticRemoval
import EntryTrace.Proofs.EventLog
import EntryTrace.Proofs.ExpressionReader
import EntryTrace.Proofs.FaultPositions
import EntryTrace.Proofs.FixedPoint
import EntryTrace.Proofs.Grouping
import EntryTrace.Proofs.Guard
import EntryTrace.Proofs.GuardedRuns
import EntryTrace.Proofs.Idempotence
import EntryTrace.Proofs.Indentation
import EntryTrace.Proofs.InertComments
import EntryTrace.Proofs.Jumps
import EntryTrace.Proofs.KeptComments
import EntryTrace.Proofs.Labels
import EntryTrace.Proofs.Literals
import EntryTrace.Proofs.Outline
import EntryTrace.Proofs.PrintedRecords
import EntryTrace.Proofs.PrintedTrees
import EntryTrace.Proofs.Recovery
import EntryTrace.Proofs.RelatedTexts
import EntryTrace.Proofs.Rewrapping
import EntryTrace.Proofs.SourcePositions
import EntryTrace.Proofs.SpanText
import EntryTrace.Proofs.StatefulVisits
import EntryTrace.Proofs.StatementReader
import EntryTrace.Proofs.Structural
import EntryTrace.Proofs.Tokens
import EntryTrace.Proofs.Units
import EntryTrace.Proofs.WalkEnds
import EntryTrace.Proofs.WalkTrace
import EntryTrace.Proofs.WellFormed
import EntryTrace.Proofs.Writing
import EntryTrace.Session
import EntryTrace.Tree.Build
import EntryTrace.Tree.Print
import EntryTrace.Tree.Traverse
import EntryTrace.Tree.Visitor
