import Readings.Grammar.Derivation
import Readings.Grammar.Display
import Readings.Grammar.Equality
import Readings.Main
import Readings.Proofs.Protocol
import Readings.Search.Steps
import Readings.Text.Quoted
import Readings.Proofs.Shape
import Readings.Proofs.Soundness
import Readings.Proofs.Consistency
import Readings.Proofs.Agreement
import Readings.Proofs.Completeness
import Readings.Proofs.Ending
import Readings.Proofs.Termination
import Readings.Proofs.Anchoring
import Readings.Proofs.Clearing
import Readings.Proofs.Settled
import Readings.Proofs.Reports
import Readings.Proofs.Comparing
import Readings.Proofs.InOrder
import Readings.Proofs.Alike
import Readings.Proofs.Direct
import Readings.Proofs.Recognition
import Readings.Proofs.Union
import Readings.Proofs.Lifetime
import Readings.Proofs.Translation
import Readings.Proofs.Actions
import Readings.Proofs.Digest
import Readings.Proofs.Walks
import Readings.Proofs.Product
import Readings.Proofs.Placement
import Readings.Proofs.Filtering
import Readings.Proofs.Failures
import Readings.Proofs.Spelling
import Readings.Proofs.Splicing
import Readings.Proofs.Spans
import Readings.Proofs.Values
import Readings.Proofs.Arguments
import Readings.Proofs.Lines
import Readings.Proofs.Boundaries
import Readings.Proofs.Rounds
