import PathTheory.Fault
import PathTheory.Name
import PathTheory.Level.Basic
import PathTheory.Level.Order
import PathTheory.Level.Solver
import PathTheory.Universe
import PathTheory.Term.Basic
import PathTheory.Term.Text
import PathTheory.Term.Occurrence
import PathTheory.Term.Canonical
import PathTheory.Pattern
import PathTheory.Definition
import PathTheory.Environment
import PathTheory.Substitution
import PathTheory.Reduction
import PathTheory.Typing
import PathTheory.Library
import PathTheory.Diagnostic
import PathTheory.Equation.Store
import PathTheory.Equation.Conversion
import PathTheory.Equation.Solution
import PathTheory.Matching
import PathTheory.Surface
import PathTheory.Elaboration.Basic
import PathTheory.Elaboration.Judge
import PathTheory.Elaboration.Call
import PathTheory.Elaboration.Clauses
import PathTheory.Elaboration.Expr
import PathTheory.Elaboration.Declaration
import PathTheory.Session
import PathTheory.Proofs.Level.Relaxation
import PathTheory.Proofs.Level.Value
import PathTheory.Proofs.Level.Assignment
import PathTheory.Proofs.Level.Overflow
import PathTheory.Proofs.Level.Instantiation
import PathTheory.Proofs.Level.Solution
import PathTheory.Proofs.Matching.Built
import PathTheory.Proofs.Matching.Columns
import PathTheory.Proofs.Matching.Coverage
import PathTheory.Proofs.Matching.FirstMatch
import PathTheory.Proofs.Reduction.UpTo
import PathTheory.Proofs.Reduction.Simulation
import PathTheory.Proofs.Reduction.Stability
import PathTheory.Proofs.Conversion.Finished
import PathTheory.Proofs.Conversion.Convertible
import PathTheory.Proofs.Conversion.Running
import PathTheory.Proofs.Conversion.Showing
import PathTheory.Proofs.Conversion.Heads
import PathTheory.Proofs.Conversion.Soundness
import PathTheory.Proofs.Syntax.Capture
import PathTheory.Proofs.Syntax.Gathering
import PathTheory.Proofs.Syntax.Solving
import PathTheory.Proofs.Syntax.Transparency
import PathTheory.Proofs.Reduction.Stuck
import PathTheory.Proofs.Reduction.Idempotence
import PathTheory.Proofs.Matching.Truncation
import PathTheory.Proofs.Syntax.Allowed
import PathTheory.Proofs.Reduction.Allowed
import PathTheory.Proofs.Equation.History
import PathTheory.Proofs.Equation.Allowed
import PathTheory.Proofs.Equation.Sound
import PathTheory.Proofs.Equation.Settled
import PathTheory.Proofs.Equation.Acyclic
import PathTheory.Proofs.Matching.Allowed
import PathTheory.Proofs.Elaboration.Run
import PathTheory.Proofs.Elaboration.Truncation
import PathTheory.Proofs.Elaboration.Allowed
import PathTheory.Proofs.Elaboration.Sound
import PathTheory.Proofs.Elaboration.Judgement
import PathTheory.Proofs.Elaboration.Stored
import PathTheory.Proofs.Syntax.Levels
import PathTheory.Proofs.Elaboration.Declarations
import PathTheory.Proofs.Elaboration.Contents
import PathTheory.Proofs.Elaboration.Outcome
import PathTheory.Proofs.Elaboration.Sessions
import PathTheory.Proofs.Elaboration.Accepted
import PathTheory.Proofs.Elaboration.Levels
import PathTheory.Proofs.Matching.Reported
import PathTheory.Proofs.Elaboration.Compiled
import PathTheory.Proofs.Equation.Scopes
import PathTheory.Proofs.Equation.Accounts
import PathTheory.Proofs.Equation.Bounds
import PathTheory.Proofs.Equation.Final
import PathTheory.Proofs.Matching.Noted
import PathTheory.Proofs.Matching.Explored
import PathTheory.Proofs.Matching.Seen
import PathTheory.Proofs.Matching.Exact
import PathTheory.Proofs.Syntax.Renaming
import PathTheory.Proofs.Syntax.Later
import PathTheory.Proofs.Reduction.Later
import PathTheory.Proofs.Matching.Later
import PathTheory.Proofs.Matching.CatchAll
import PathTheory.Proofs.Matching.Parted
import PathTheory.Proofs.Matching.Ends
import PathTheory.Proofs.Matching.Inspected
import PathTheory.Proofs.Elaboration.Intervals
import PathTheory.Proofs.Reduction.Unblocked
import PathTheory.Proofs.Reduction.Refined
import PathTheory.Proofs.Matching.Typed
import PathTheory.Proofs.Matching.Fitting
import PathTheory.Proofs.Matching.Agreement
import PathTheory.Proofs.Elaboration.Clauses
import PathTheory.Proofs.Level.Canonical
import PathTheory.Proofs.Syntax.Injective
import PathTheory.Proofs.Syntax.Untouched
import PathTheory.Proofs.Reduction.Spine
import PathTheory.Proofs.Conversion.Looking
import PathTheory.Proofs.Conversion.Renamed
import PathTheory.Proofs.Level.Operations
import PathTheory.Proofs.Level.Extent
import PathTheory.Proofs.Level.Formation
import PathTheory.Proofs.Level.Deferred
import PathTheory.Proofs.Level.Parents
import PathTheory.Proofs.Level.Raising
import PathTheory.Proofs.Level.Cycle
import PathTheory.Proofs.Elaboration.Frame
import PathTheory.Proofs.Elaboration.Sizes
import PathTheory.Proofs.Conversion.Cumulative
import PathTheory.Proofs.Level.Denotation
import PathTheory.Proofs.Syntax.Lasting
import PathTheory.Proofs.Matching.Splits
import PathTheory.Proofs.Matching.Consumed
import PathTheory.Proofs.Reduction.Counting
import PathTheory.Proofs.Elaboration.Arithmetic
