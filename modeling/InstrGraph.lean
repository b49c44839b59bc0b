import InstrGraph.Format.Config
import InstrGraph.Format.Diagnostic
import InstrGraph.Main
import InstrGraph.Proofs.Batch.Failures
import InstrGraph.Proofs.Batch.History
import InstrGraph.Proofs.Batch.Interleaving
import InstrGraph.Proofs.Batch.OutputPaths
import InstrGraph.Proofs.Batch.Resume
import InstrGraph.Proofs.Batch.Writers
import InstrGraph.Proofs.Canonical.Placeholders
import InstrGraph.Proofs.Canonical.Types
import InstrGraph.Proofs.Canonical.Uncached
import InstrGraph.Proofs.Config.RoundTrip
import InstrGraph.Proofs.Fixpoint.SecondRun
import InstrGraph.Proofs.Graph.Conditions
import InstrGraph.Proofs.Graph.History
import InstrGraph.Proofs.Graph.Parameters
import InstrGraph.Proofs.Graph.Sequential
import InstrGraph.Proofs.Graph.Success
import InstrGraph.Proofs.Graph.Texts
import InstrGraph.Proofs.Graph.Warnings
import InstrGraph.Proofs.Json.Records
import InstrGraph.Proofs.Metadata.Spelling
import InstrGraph.Proofs.Metadata.Unmentioned
import InstrGraph.Proofs.Renaming.Process
import InstrGraph.Proofs.Symbols.Bijections
import InstrGraph.Proofs.Symbols.Specification
import InstrGraph.Proofs.Symbols.Spellings
import InstrGraph.Proofs.Text.Annotations
import InstrGraph.Proofs.Text.Gaps
