import Dpll.CommandLine.Arguments
import Dpll.CommandLine.Help
import Dpll.CommandLine.Run
import Dpll.Host.Surroundings
import Dpll.Main
import Dpll.Proofs.Adjacency.Clause
import Dpll.Proofs.Trail
import Dpll.Proofs.UnitClosure
import Dpll.Proofs.Valuation
import Dpll.Proofs.Adjacency.Replay
import Dpll.Proofs.Adjacency.Propagation
import Dpll.Proofs.Heuristic
import Dpll.Proofs.Adjacency.Laws
import Dpll.Proofs.Search.Run
import Dpll.Proofs.Watched.Replacement
import Dpll.Proofs.Watched.Views
import Dpll.Proofs.Watched.Maintenance
import Dpll.Proofs.Watched.Visits
import Dpll.Proofs.Watched.History
import Dpll.Proofs.Watched.Attention
import Dpll.Proofs.Watched.Propagation
import Dpll.Proofs.Watched.Construction
import Dpll.Proofs.Watched.Laws
import Dpll.Proofs.Cnf
import Dpll.Proofs.Solver
import Dpll.Proofs.Lockstep
import Dpll.Proofs.SearchAgain
import Dpll.Proofs.Moves
import Dpll.Proofs.Adjacency.Recomputed
import Dpll.Proofs.Watched.Sound
import Dpll.Proofs.Adjacency.Undoing
import Dpll.Proofs.Watched.Undoing
import Dpll.Proofs.Undoing
import Dpll.Proofs.Watched.Backlog
import Dpll.Proofs.Exhaustion
import Dpll.Proofs.Nnf
import Dpll.Proofs.Nnf.Token
import Dpll.Proofs.Nnf.Naming
import Dpll.Proofs.Nnf.Grammar
import Dpll.Proofs.Numbers
import Dpll.Proofs.Dimacs.Grammar
import Dpll.Proofs.Tseitin
import Dpll.Proofs.Nnf.Chain
import Dpll.Proofs.Tseitin.Chain
import Dpll.Proofs.Tseitin.Satisfaction
import Dpll.Proofs.Tseitin.Extension
import Dpll.Proofs.Text.Lines
import Dpll.Proofs.Text.Numeral
import Dpll.Proofs.Text.Order
import Dpll.Proofs.Sources
import Dpll.Proofs.Dimacs.Writer
import Dpll.Proofs.Dimacs.RoundTrip
import Dpll.Proofs.Search.Recursion
import Dpll.Proofs.Watched.Vigilance
import Dpll.Proofs.CommandLine.Programs
import Dpll.Proofs.CommandLine.Report
import Dpll.Proofs.CommandLine.Printed
import Dpll.Proofs.CommandLine.Listing
import Dpll.Proofs.CommandLine.Truth
import Dpll.Proofs.Path
import Dpll.Proofs.FileTree
import Dpll.Proofs.Tseitin.Shape
import Dpll.Proofs.CommandLine.Conversion
import Dpll.Proofs.CommandLine.AllOrNothing
import Dpll.Proofs.CommandLine.Entries
import Dpll.Proofs.CommandLine.Batch
import Dpll.Proofs.Adjacency.Removals
import Dpll.Proofs.Watched.Books
import Dpll.Proofs.Rounds
import Dpll.Proofs.Search.Bounds
import Dpll.Proofs.Suggestions
import Dpll.Proofs.Nnf.Refusals
import Dpll.Proofs.Dimacs.Refusals
import Dpll.Proofs.Plain.Table
import Dpll.Proofs.Plain.Adjacency
import Dpll.Proofs.Plain.Watched
import Dpll.Proofs.Plain.Sessions
import Dpll.Proofs.Indices
import Dpll.Proofs.Nnf.Layout
import Dpll.Proofs.Nnf.Spacing
