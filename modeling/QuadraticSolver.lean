import QuadraticSolver.Binary64.Bits
import QuadraticSolver.Proofs.Application.Clicks
import QuadraticSolver.Proofs.Application.Deletion
import QuadraticSolver.Proofs.Application.Display
import QuadraticSolver.Proofs.Application.History
import QuadraticSolver.Proofs.Application.Invariant
import QuadraticSolver.Proofs.Application.Replay
import QuadraticSolver.Proofs.Equation.Accumulation
import QuadraticSolver.Proofs.Equation.Concatenation
import QuadraticSolver.Proofs.Equation.IntegerSums
import QuadraticSolver.Proofs.Equation.Renaming
import QuadraticSolver.Proofs.Equation.TokenText
import QuadraticSolver.Proofs.Equation.Transposition
import QuadraticSolver.Proofs.Equation.Writing
import QuadraticSolver.Proofs.Journal
import QuadraticSolver.Proofs.Journal.Quoted
import QuadraticSolver.Proofs.Report.Answer
import QuadraticSolver.Proofs.Report.ExactForm
import QuadraticSolver.Proofs.Report.Limits
import QuadraticSolver.Proofs.Solver.Separation
import QuadraticSolver.Proofs.Binary64.Signs
import QuadraticSolver.Proofs.Solver.Symmetry
import QuadraticSolver.Proofs.Decimal.Trimming
import QuadraticSolver.Proofs.Decimal.Rounded
import QuadraticSolver.Proofs.Report.IntegerText
