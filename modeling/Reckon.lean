import Reckon.Expr.Printer
import Reckon.Main
import Reckon.Proofs.Engine.Frames
import Reckon.Proofs.Printer
import Reckon.Proofs.Script
import Reckon.Session
import Reckon.Proofs.Evaluate.Judgement
import Reckon.Proofs.Operation.Shape
import Reckon.Proofs.Evaluate.Lookup
import Reckon.Proofs.Evaluate.Bindings
import Reckon.Proofs.Engine.Shape
import Reckon.Proofs.Decimal.Numeral
import Reckon.Proofs.Evaluate.Results
import Reckon.Proofs.Exact.Denotation
import Reckon.Proofs.Exact.Arithmetic
import Reckon.Proofs.Exact.Text
import Reckon.Proofs.Display
import Reckon.Proofs.Operation.Broadcast
import Reckon.Proofs.Lexer.Laid
import Reckon.Proofs.Evaluate.Nesting
import Reckon.Proofs.Engine.Values
import Reckon.Proofs.Evaluate.Routes
import Reckon.Proofs.Operation.Pairs
import Reckon.Proofs.Exact.Reading
import Reckon.Proofs.Exact.Truncation
import Reckon.Proofs.Exact.Sign
import Reckon.Proofs.Exact.Downgrade
import Reckon.Proofs.Operation.Power
import Reckon.Proofs.Operation.Parity
import Reckon.Proofs.Binary64.Order
import Reckon.Proofs.Binary64.Difference
import Reckon.Proofs.Tolerance
import Reckon.Proofs.Tolerance.Sorting
import Reckon.Proofs.Operation.Comparison
import Reckon.Proofs.Operation.Mirror
import Reckon.Proofs.Operation.Truth
import Reckon.Proofs.Exact.Root
import Reckon.Proofs.Shape.Transpose
import Reckon.Proofs.Select
import Reckon.Proofs.Operation.Conversion
import Reckon.Proofs.Lexer.Mistake
import Reckon.Proofs.Reader.Relocation
import Reckon.Proofs.Layout
import Reckon.Proofs.Exact.Literal
import Reckon.Proofs.Reader.Locations
import Reckon.Proofs.Exact.Rounding
import Reckon.Proofs.Operation.Multiplication
import Reckon.Proofs.Operation.Refusal
import Reckon.Proofs.Reader.Parts
import Reckon.Proofs.Promotion.Settling
import Reckon.Proofs.Program
