import Sentential.Decimal.General
import Sentential.Weight.Double
import Sentential.Vtree.Assembly
import Sentential.Format.Vtree
import Sentential.Format.VtreeTable
import Sentential.Format.Sdd
import Sentential.Format.Psdd
import Sentential.Store.ModelCount
import Sentential.Dot.Diagram
import Sentential.Dot.Vtree
import Sentential.Files
import Sentential.Proofs.Vtree.Shapes
import Sentential.Proofs.Walk.PostOrder
import Sentential.Proofs.Format.Reading
import Sentential.Proofs.Store.Extension
import Sentential.Proofs.Vtree.Reading
import Sentential.Proofs.Vtree.Under
import Sentential.Proofs.Vtree.Consistency
import Sentential.Proofs.Text.Rendered
import Sentential.Proofs.Format.Rows
import Sentential.Proofs.Format.Acceptance
import Sentential.Proofs.Format.Grammar
import Sentential.Proofs.Vtree.Grammar
import Sentential.Proofs.Vtree.Assembly
import Sentential.Proofs.Store.Base
import Sentential.Proofs.Store.Sound
import Sentential.Proofs.Store.Step
import Sentential.Proofs.Store.History
import Sentential.Proofs.Store.Tables
import Sentential.Proofs.Store.InStep
import Sentential.Proofs.Store.Order
import Sentential.Proofs.Circuit.Layout
import Sentential.Proofs.Circuit.Emission
import Sentential.Proofs.Circuit.Compile
import Sentential.Proofs.Circuit.Evaluation
import Sentential.Proofs.Circuit.Value
import Sentential.Proofs.Store.Outline
import Sentential.Proofs.Format.Sdd
import Sentential.Proofs.Format.SddRoundTrip
import Sentential.Proofs.Circuit.SameOutline
import Sentential.Proofs.Weight.Laws
import Sentential.Proofs.Format.Psdd
import Sentential.Proofs.Format.PsddRoundTrip
import Sentential.Proofs.Weight.Extreme
import Sentential.Proofs.Weight.Zero
import Sentential.Proofs.Weight.Indefinite
import Sentential.Proofs.Store.Coherent
import Sentential.Proofs.Meaning.Assignment
import Sentential.Proofs.Meaning.Function
import Sentential.Proofs.Store.Unfolding
import Sentential.Proofs.Format.BuiltRows
import Sentential.Proofs.Format.SddGrammar
import Sentential.Proofs.Meaning.ModelCount
import Sentential.Proofs.Meaning.Falsity
import Sentential.Proofs.Circuit.Wiring
import Sentential.Proofs.Circuit.Exact
import Sentential.Proofs.Meaning.Marginal
import Sentential.Proofs.Meaning.Support
import Sentential.Proofs.Format.PsddImage
import Sentential.Proofs.Format.PsddClosure
import Sentential.Proofs.Meaning.Marginalization
import Sentential.Proofs.Format.PsddGrammar
import Sentential.Proofs.Format.NoFault
import Sentential.Proofs.Format.VtreeTable
import Sentential.Proofs.Format.Totality
import Sentential.Proofs.Dot.Drawing
import Sentential.Proofs.Dot.Totality
import Sentential.Proofs.Format.Queries
import Sentential.Proofs.Circuit.Alignment
import Sentential.Proofs.Format.VtreeRoundTrip
import Sentential.Proofs.Vtree.Numbering
import Sentential.Proofs.Weight.OneLine
import Sentential.Proofs.Circuit.Literals
import Sentential.Proofs.Meaning.Stripped
import Sentential.Proofs.Format.SddMeaning
import Sentential.Proofs.Store.Copy
import Sentential.Proofs.Circuit.Copy
import Sentential.Proofs.Format.Copy
import Sentential.Proofs.Dot.Copy
import Sentential.Proofs.Store.Continuation
import Sentential.Proofs.Store.SameOutputs
import Sentential.Proofs.Text.Records
import Sentential.Proofs.Format.Refusal
import Sentential.Proofs.Format.FailedReads
import Sentential.Proofs.Format.Renumbering
import Sentential.Proofs.Format.LocalNumbers
import Sentential.Proofs.Format.Rereading
import Sentential.Proofs.Store.Traversal
import Sentential.Proofs.Store.PositiveOrder
import Sentential.Proofs.Store.References
import Sentential.Proofs.Store.Atomicity
import Sentential.Proofs.Vtree.Planting
import Sentential.Proofs.Dot.Statements
import Sentential.Proofs.Dot.Marks
import Sentential.Proofs.Dot.Depiction
import Sentential.Proofs.Decimal.General
import Sentential.Proofs.Format.MissingWeights
import Sentential.Proofs.Store.VariableWords
import Sentential.Proofs.Vtree.SubtreeOrder
