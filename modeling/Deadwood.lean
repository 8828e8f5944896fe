import Deadwood.Value
import Deadwood.Instr
import Deadwood.Func
import Deadwood.Func.Printer
import Deadwood.Text.Printable
import Deadwood.Text.Quoted
import Deadwood.Text.Numeral
import Deadwood.Flow
import Deadwood.Oracle
import Deadwood.WellFormed
import Deadwood.Fault
import Deadwood.Marking
import Deadwood.Elimination
import Deadwood.Environment
import Deadwood.Settings
import Deadwood.Session
import Deadwood.Batch
import Deadwood.Builder
import Deadwood.Builder.History
import Deadwood.Source.Ty
import Deadwood.Source.Program
import Deadwood.Source.Lowering
import Deadwood.Source.Lint
import Deadwood.Proofs.Elimination
import Deadwood.Proofs.Execution
import Deadwood.Proofs.Preservation
import Deadwood.Proofs.Findings
import Deadwood.Proofs.Staging
import Deadwood.Proofs.Batch
import Deadwood.Proofs.LoweringWellFormed
import Deadwood.Proofs.Correspondence
import Deadwood.Proofs.Diagnosis
import Deadwood.Proofs.Knowledge
import Deadwood.Proofs.Rearrangement
import Deadwood.Proofs.CheckOrder
import Deadwood.Proofs.Reachability
import Deadwood.Proofs.Predecessors
import Deadwood.Proofs.SingleAssignment
import Deadwood.Proofs.Accounting
import Deadwood.Proofs.MarkingSteps
import Deadwood.Proofs.Termination
import Deadwood.Proofs.Counts
import Deadwood.Proofs.Printing
