import StepsLang.Main
import StepsLang.Proofs.Execution.Termination
import StepsLang.Proofs.Text.Utf8
import StepsLang.Proofs.Token.Piece
import StepsLang.Proofs.Token.Scan
import StepsLang.Proofs.Parse.Reads
import StepsLang.Proofs.Print.Expression
import StepsLang.Proofs.Print.Outline
import StepsLang.Proofs.Parse.Expression
import StepsLang.Proofs.Print.Statement
import StepsLang.Proofs.Parse.Statement
import StepsLang.Proofs.Print.Routine
import StepsLang.Proofs.Parse.Routine
import StepsLang.Proofs.Print.RoundTrip
import StepsLang.Proofs.Value.Likeness
import StepsLang.Proofs.Execution.Stop
import StepsLang.Proofs.Execution.Activation
import StepsLang.Proofs.Execution.Fixed
import StepsLang.Proofs.Execution.Limits
import StepsLang.Proofs.Failure.Run
import StepsLang.Proofs.Debug.Nesting
import StepsLang.Proofs.Debug.Protocol
import StepsLang.Proofs.Debug.Stepping
import StepsLang.Proofs.Recovery.Expression
import StepsLang.Proofs.Recovery.Rounds
import StepsLang.Proofs.Recovery.Silent
import StepsLang.Proofs.Recovery.Blocks
import StepsLang.Proofs.Recovery.BadLine
import StepsLang.Proofs.Recovery.Ending
import StepsLang.Proofs.Relocation.Joined
import StepsLang.Proofs.Relocation.Registry
import StepsLang.Proofs.Debug.Verdict
import StepsLang.Proofs.Debug.Marks
import StepsLang.Proofs.Debug.Regime
import StepsLang.Proofs.Project.Loading
import StepsLang.Proofs.Project.Lookup
import StepsLang.Proofs.Token.LineEnd
import StepsLang.Proofs.Native.File
import StepsLang.Proofs.Native.Text
import StepsLang.Proofs.Progress.Reading
import StepsLang.Proofs.Expression.Soundness
import StepsLang.Proofs.Token.CarriageReturn
import StepsLang.Proofs.Token.Location
import StepsLang.Proofs.Token.Phrase
import StepsLang.Proofs.Token.Depth
import StepsLang.Proofs.Token.BlockComment
import StepsLang.Proofs.Text.Malformed
import StepsLang.Proofs.Token.Encoding
import StepsLang.Proofs.Execution.Atomic
import StepsLang.Proofs.Execution.Signal
import StepsLang.Proofs.Execution.Leaving
import StepsLang.Proofs.Debug.Listing
import StepsLang.Proofs.Environment.Assignment
import StepsLang.Proofs.Execution.Attempt
import StepsLang.Proofs.Execution.Loops
import StepsLang.Proofs.Value.Rendering
import StepsLang.Proofs.Value.Removal
import StepsLang.Proofs.Number.Text
import StepsLang.Proofs.Native.Length
import StepsLang.Proofs.Text.Quotes
import StepsLang.Proofs.Debug.Pausing
import StepsLang.Proofs.Debug.Breakpoints
import StepsLang.Proofs.Debug.Script
import StepsLang.Proofs.EditDistance.Least
import StepsLang.Proofs.EditDistance.Suggestion
import StepsLang.Proofs.Sources.Registry
import StepsLang.Proofs.Report.Excerpt
import StepsLang.Proofs.CommandLine.Breakpoint
import StepsLang.Proofs.Text.Template
