import LutLogic.Main
import LutLogic.Cell.Run
import LutLogic.Json.Form
import LutLogic.Reference
import LutLogic.Proofs.Contents.Reduction
import LutLogic.Proofs.Cell.RoundTrip
import LutLogic.Proofs.Equation.Grammar
import LutLogic.Proofs.Equation.Readable
import LutLogic.Proofs.Cell.Language
import LutLogic.Proofs.Contents.Congruence
import LutLogic.Proofs.Contents.Canonical
import LutLogic.Proofs.Decomposition.Resize
import LutLogic.Proofs.Contents.Width
import LutLogic.Proofs.Command.RoundTrip
import LutLogic.Proofs.Command.Moves
import LutLogic.Proofs.Decomposition.Determining
import LutLogic.Proofs.Error.Place
import LutLogic.Proofs.Equation.Faults
import LutLogic.Proofs.Error.Pointing
import LutLogic.Proofs.TruthTable.Words
import LutLogic.Proofs.TruthTable.Halves
import LutLogic.Proofs.Decomposition.Widths
import LutLogic.Proofs.TruthTable.Numeral
import LutLogic.Proofs.Equation.Layout
import LutLogic.Proofs.Equation.Viable
import LutLogic.Proofs.Error.Relocation
import LutLogic.Proofs.TruthTable.Printed
import LutLogic.Proofs.Equation.Unambiguous
import LutLogic.Proofs.Equation.Renumber
import LutLogic.Proofs.Cell.Source
import LutLogic.Proofs.Contents.Dispatch
import LutLogic.Proofs.Equation.Cursor
import LutLogic.Proofs.Decomposition.Calls
