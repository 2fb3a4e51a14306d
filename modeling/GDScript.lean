import GDScript.Main
import GDScript.Files.Listed
import GDScript.Proofs.Expression.RoundTrip
import GDScript.Proofs.Script.RoundTrip
import GDScript.Proofs.WellFormed.Script
import GDScript.Proofs.Report.Script
import GDScript.Proofs.Indentation.Script
import GDScript.Proofs.Pairing.Reindented
import GDScript.Proofs.Pairing.Returns
import GDScript.Proofs.Pairing.Joined
import GDScript.Proofs.Stretch.Script
import GDScript.Proofs.Limit
import GDScript.Proofs.Exact
import GDScript.Proofs.Pairing.Branches
import GDScript.Proofs.Batch
import GDScript.Proofs.Nested
import GDScript.Proofs.Program.Balance
import GDScript.Proofs.Program.Choice
import GDScript.Proofs.Pairing.Wrapped
import GDScript.Proofs.Pairing.Alone
import GDScript.Proofs.CommandLine
import GDScript.Proofs.Items
import GDScript.Proofs.Indentation.Tab
import GDScript.Proofs.Rendering.Expression
import GDScript.Proofs.Rendering.Outline
import GDScript.Proofs.Rendering.Script
import GDScript.Proofs.Lexeme.Literal
import GDScript.Proofs.Report.Data
import GDScript.Proofs.Report.Lines
import GDScript.Proofs.Rendering.Quotation
import GDScript.Proofs.Expression.Integer
import GDScript.Proofs.Report.Template
import GDScript.Proofs.Files.Listing
import GDScript.Proofs.Arguments
import GDScript.Proofs.Lexeme.Longest
import GDScript.Proofs.Indentation.Header
import GDScript.Proofs.Termination
