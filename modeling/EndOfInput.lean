import EndOfInput.Scanner.Run
import EndOfInput.Parse
import EndOfInput.Session
import EndOfInput.Lexer.Units
import EndOfInput.Engine
import EndOfInput.Interchange
import EndOfInput.Versions
import EndOfInput.Proofs.Emission
import EndOfInput.Proofs.Sharing
import EndOfInput.Proofs.Boundaries
import EndOfInput.Proofs.Visits
import EndOfInput.Proofs.Reparse
import EndOfInput.Proofs.Utf8.Encoding
import EndOfInput.Proofs.Utf8.Sequences
import EndOfInput.Proofs.Utf8.Segmentation
import EndOfInput.Proofs.Utf8.Lines
import EndOfInput.Proofs.Walk
import EndOfInput.Proofs.Segments
import EndOfInput.Proofs.RoundTrip
import EndOfInput.Proofs.Resynchronisation
import EndOfInput.Proofs.Alignment
import EndOfInput.Proofs.Handles
import EndOfInput.Proofs.FullParse
import EndOfInput.Proofs.SessionSteps
import EndOfInput.Proofs.Checkpoints
import EndOfInput.Proofs.Interference
import EndOfInput.Proofs.Column
import EndOfInput.Proofs.Concatenation
import EndOfInput.Proofs.TokenHistory
import EndOfInput.Proofs.Monotonicity
import EndOfInput.Proofs.Report
import EndOfInput.Proofs.RecordFormat
import EndOfInput.Proofs.LastRecord
import EndOfInput.Proofs.EventLines
import EndOfInput.Proofs.AuditTrail
import EndOfInput.Proofs.Forms
